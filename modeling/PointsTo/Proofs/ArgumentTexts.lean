import PointsTo.Proofs.Spelling

/-!
Arguments as they are spelled: characters outside of string constants, and string constants with
whatever they hold. Outside of these an argument has no comma and its parentheses are balanced. The
scan for the parenthesis that closes a list of such arguments and the scan that cuts the list agree
with the spelling, and so with each other, on where every string constant begins and ends.
-/
namespace PointsTo.Jimple

open PointsTo.Text

/-- A part of an argument: one character, or a whole string constant. -/
inductive Segment where
  | code (c : Char) (valid : c ≠ '\x22')
  | constant (parts : List StringPart)

namespace Segment

def chars : Segment → List Char
  | code c _ => [c]
  | constant parts => stringText parts

/-- What the segment has outside of string constants. -/
def outside : Segment → List Char
  | code c _ => [c]
  | constant _ => []

/-- What a scan reads of the segment outside of string constants: of these it meets the quote that
opens them. -/
def met : Segment → List Char
  | code c _ => [c]
  | constant _ => ['\x22']

end Segment

def segmentText (segments : List Segment) : List Char := segments.flatMap Segment.chars

/-- Every parenthesis is closed by one of its own, and none is closed that was not opened. -/
inductive Balanced : List Char → Prop
  | nil : Balanced []
  | other {c s} (valid : c ≠ '(' ∧ c ≠ ')') (behind : Balanced s) : Balanced (c :: s)
  | nest {s t} (inside : Balanced s) (behind : Balanced t) : Balanced ('(' :: s ++ ')' :: t)

/-- The segments are those of an argument. -/
structure IsArgumentText (segments : List Segment) : Prop where
  ne_nil : segmentText segments ≠ []
  trimmed : Trimmed (segmentText segments)
  no_comma : ',' ∉ segments.flatMap Segment.outside
  balanced : Balanced (segments.flatMap Segment.outside)

/-! ### What a scan meets -/

theorem Balanced.nesting_append {s : List Char} (h : Balanced s) (i : Nat) (t : List Char) :
    nesting '(' ')' i (s ++ t) = nesting '(' ')' i t := by
  induction h generalizing i t with
  | nil => rfl
  | @other c s valid _ ih =>
    rw [List.cons_append, nesting, if_neg valid.1, if_neg valid.2]
    exact ih i t
  | @nest s u _ _ inside behind =>
    rw [List.append_assoc, List.cons_append, nesting, if_pos rfl, inside, List.cons_append, nesting,
      if_neg (by decide), if_pos rfl, if_neg (Nat.succ_ne_zero i)]
    exact behind i t

/-- A scan over the spelling of segments is outside of string constants behind each of them. -/
theorem outsides_segmentText (segments : List Segment) :
    outsides .outside (segmentText segments) = segments.flatMap Segment.met ∧
      Quoting.outside.after (segmentText segments) = .outside := by
  induction segments with
  | nil => exact ⟨rfl, rfl⟩
  | cons segment segments ih =>
    obtain ⟨houtsides, hafter⟩ := ih
    have hsegment : outsides .outside segment.chars = segment.met ∧
        Quoting.outside.after segment.chars = .outside := by
      cases segment with
      | code c valid => exact outsides_of_not_mem (by simpa [Segment.chars] using Ne.symm valid)
      | constant parts => exact outsides_stringText parts
    have htext : segmentText (segment :: segments) = segment.chars ++ segmentText segments :=
      List.flatMap_cons
    rw [htext, outsides_append, Quoting.after_append, hsegment.1, hsegment.2, houtsides,
      List.flatMap_cons]
    exact ⟨rfl, hafter⟩

theorem mem_met {c : Char} (hc : c ≠ '\x22') (segments : List Segment) :
    c ∈ segments.flatMap Segment.met ↔ c ∈ segments.flatMap Segment.outside := by
  rw [List.mem_flatMap, List.mem_flatMap]
  refine exists_congr fun segment => and_congr_right fun _ => ?_
  cases segment with
  | code d valid => exact Iff.rfl
  | constant parts => exact iff_of_false (by simpa [Segment.met] using hc) List.not_mem_nil

/-- The quotes that open string constants count for no parenthesis. -/
theorem nesting_met (segments : List Segment) (i : Nat) :
    nesting '(' ')' i (segments.flatMap Segment.met) =
      nesting '(' ')' i (segments.flatMap Segment.outside) := by
  induction segments generalizing i with
  | nil => rfl
  | cons segment segments ih =>
    rw [List.flatMap_cons, List.flatMap_cons]
    cases segment with
    | code c valid =>
      simp only [Segment.met, Segment.outside, List.singleton_append, nesting, ih]
    | constant parts =>
      simp only [Segment.met, Segment.outside, List.singleton_append, List.nil_append]
      rw [nesting, if_neg (by decide), if_neg (by decide)]
      exact ih i

/-- The spelling of an argument is read as one. -/
theorem IsArgumentText.isArgument {segments : List Segment} (h : IsArgumentText segments) :
    IsArgument (segmentText segments) := by
  obtain ⟨houtsides, hclosed⟩ := outsides_segmentText segments
  refine ⟨h.ne_nil, h.trimmed, hclosed, ?_, ?_⟩
  · rw [houtsides, mem_met (by decide)]
    exact h.no_comma
  · have hbalanced := h.balanced.nesting_append 0 []
    rw [List.append_nil] at hbalanced
    rw [houtsides, nesting_met, hbalanced]
    rfl

/-! ### Lists of arguments -/

/-- A list of arguments in parentheses. -/
def parenthesized (texts : List (List Char)) : List Char :=
  '(' :: joinArguments texts ++ [')']

/-- **A list of arguments in parentheses is read as these arguments**, whatever their string
constants hold and whatever follows: the parenthesis that closes it is found, and the text between
the two parentheses is cut into the arguments. -/
theorem argumentList_read {args : List (List Segment)} (h : ∀ a ∈ args, IsArgumentText a)
    (rest : List Char) :
    parenEnd? (parenthesized (args.map segmentText) ++ rest) 0 =
        some (parenthesized (args.map segmentText)).length ∧
      splitArgs (((parenthesized (args.map segmentText) ++ rest).take
        ((parenthesized (args.map segmentText)).length - 1)).drop 1) = args.map segmentText := by
  have hargs : ∀ s ∈ args.map segmentText, IsArgument s := by
    intro s hs
    obtain ⟨a, ha, rfl⟩ := List.mem_map.1 hs
    exact (h a ha).isArgument
  have hend := parenEnd?_joinArguments hargs [] rest
  have hsplit := splitArgs_joinArguments hargs
  generalize args.map segmentText = texts at hend hsplit ⊢
  have hlength : (parenthesized texts).length = (joinArguments texts).length + 2 := by
    simp [parenthesized]
  have hwhole : parenthesized texts ++ rest = ('(' :: joinArguments texts) ++ ')' :: rest := by
    simp [parenthesized]
  constructor
  · rw [hlength, hwhole]
    simpa using hend
  · have htake : (parenthesized texts ++ rest).take ((parenthesized texts).length - 1) =
        '(' :: joinArguments texts := by
      rw [hwhole, hlength]
      exact List.take_left' rfl
    rw [htake, List.drop_succ_cons, List.drop_zero]
    exact hsplit

/-- A string constant that holds a comma, parentheses, an escaped quote and a backslash at its
end. -/
def tangledArgument : List Segment :=
  [.constant [.plain ',' (by decide), .plain ')' (by decide), .escaped '\x22',
    .plain '(' (by decide), .escaped '\\']]

/-- A call with a string constant that holds a parenthesis. -/
def nestedArgument : List Segment :=
  [.code 'f' (by decide), .code '(' (by decide), .constant [.plain ')' (by decide)],
    .code ')' (by decide)]

theorem argumentList_read_tangled :
    (∀ a ∈ [tangledArgument, nestedArgument], IsArgumentText a) ∧
    parenEnd? "(\",)\\\"(\\\\\", f(\")\"));)".toList 0 = some 19 ∧
    splitArgs "\",)\\\"(\\\\\", f(\")\")".toList =
      ["\",)\\\"(\\\\\"".toList, "f(\")\")".toList] := by
  have tangled : IsArgumentText tangledArgument :=
    ⟨by decide, ⟨fun c hc => by cases hc; rfl, fun c hc => by cases hc; rfl⟩, by decide, .nil⟩
  have nested : IsArgumentText nestedArgument :=
    ⟨by decide, ⟨fun c hc => by cases hc; rfl, fun c hc => by cases hc; rfl⟩, by decide,
      .other (by decide) (.nest .nil .nil)⟩
  have hargs : ∀ a ∈ [tangledArgument, nestedArgument], IsArgumentText a := by
    intro a ha
    rcases List.mem_cons.1 ha with rfl | ha
    · exact tangled
    · exact List.mem_singleton.1 ha ▸ nested
  obtain ⟨hend, hsplit⟩ := argumentList_read hargs ";)".toList
  exact ⟨hargs, hend, hsplit⟩

end PointsTo.Jimple
