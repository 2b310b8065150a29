import Mathlib.Data.Bool.AllAny
import Mathlib.Data.List.Basic
import Mathlib.Data.List.TakeWhile
import PointsTo.Text.Blank
import PointsTo.Text.Word

/-!
How the functions that cut a text act on texts put together. A run of one kind of character in
front of a character of another kind is cut off whole, trimming takes what surrounds a text and no
more, and a text is cut at a mark where the first character of the mark comes up first.
-/
namespace PointsTo.Text

/-! ### Classes of characters -/

/-- The two ranges have no code point in common. -/
def areApart (a b : CodeRange) : Bool := a.2 < b.1 || b.2 < a.1

theorem not_inRanges_of_areApart {as : List CodeRange} (bs : List CodeRange) {code : Nat}
    (h : (as.all fun a => bs.all fun b => areApart a b) = true) (ha : inRanges as code = true) :
    inRanges bs code = false := by
  obtain ⟨a, hmem, hlow, hhigh⟩ := inRanges_iff.1 ha
  rw [Bool.eq_false_iff]
  intro hb
  obtain ⟨b, hmem', hlow', hhigh'⟩ := inRanges_iff.1 hb
  have hapart : areApart a b = true := List.all_eq_true.1 (List.all_eq_true.1 h a hmem) b hmem'
  simp only [areApart, Bool.or_eq_true, decide_eq_true_eq] at hapart
  omega

theorem isAlpha_iff {c : Char} : c.isAlpha = true ↔
    (65 ≤ c.toNat ∧ c.toNat ≤ 90) ∨ (97 ≤ c.toNat ∧ c.toNat ≤ 122) := by
  have hform : c.isAlpha =
      (decide (65 ≤ c.val ∧ c.val ≤ 90) || (decide (97 ≤ c.val) && decide (c.val ≤ 122))) := rfl
  have hval : c.val.toNat = c.toNat := rfl
  simp only [hform, Bool.or_eq_true, Bool.and_eq_true, decide_eq_true_eq,
    UInt32.le_iff_toNat_le, hval]
  rfl

theorem inRanges_of_isAlphanum {c : Char} (h : c.isAlphanum = true) :
    inRanges [(0x30, 0x39), (0x41, 0x5a), (0x61, 0x7a)] c.toNat = true := by
  simp only [Char.isAlphanum, Char.isDigit, Bool.or_eq_true, isAlpha_iff, Bool.and_eq_true,
    decide_eq_true_eq, UInt32.le_iff_toNat_le, ge_iff_le] at h
  have hval : c.val.toNat = c.toNat := rfl
  simp only [inRanges_iff, List.mem_cons, List.not_mem_nil, or_false, exists_eq_or_imp,
    exists_eq_left]
  grind

/-- No letter or number is blank. -/
theorem not_isBlank_of_isWord {c : Char} (h : isWord c = true) : isBlank c = false := by
  rw [Bool.eq_false_iff]
  intro hblank
  simp only [isWord, Bool.or_eq_true, Bool.and_eq_true, beq_iff_eq] at h
  rcases h with (h | rfl) | ⟨-, h⟩
  · have hapart := not_inRanges_of_areApart blankRanges (by decide)
      (inRanges_of_isAlphanum h)
    rw [isBlank, hapart] at hblank
    cases hblank
  · exact absurd hblank (by decide)
  · have hapart := not_inRanges_of_areApart wordRanges (by decide +kernel) hblank
    rw [h] at hapart
    cases hapart

/-! ### Runs -/

section Runs

variable {α : Type} {p : α → Bool} {run rest : List α} {c : α}

theorem takeWhile_run (hrun : ∀ x ∈ run, p x = true) (hc : p c = false) :
    (run ++ c :: rest).takeWhile p = run := by
  rw [List.takeWhile_append_of_pos hrun, List.takeWhile_cons_of_neg (by simp [hc]),
    List.append_nil]

theorem dropWhile_run (hrun : ∀ x ∈ run, p x = true) (hc : p c = false) :
    (run ++ c :: rest).dropWhile p = c :: rest := by
  rw [List.dropWhile_append_of_pos hrun, List.dropWhile_cons_of_neg (by simp [hc])]

end Runs

/-! ### Blanks at the ends -/

/-- The text neither begins nor ends with a blank. -/
structure Trimmed (s : List Char) : Prop where
  first : ∀ c, s.head? = some c → isBlank c = false
  last : ∀ c, s.getLast? = some c → isBlank c = false

theorem Trimmed.of_not_blank {s : List Char} (h : ∀ c ∈ s, isBlank c = false) : Trimmed s :=
  ⟨fun c hc => h c (List.mem_of_head? hc), fun c hc => h c (List.mem_of_getLast? hc)⟩

theorem Trimmed.of_all {s : List Char} (h : (s.all fun c => !isBlank c) = true) : Trimmed s :=
  .of_not_blank (by simpa using h)

theorem Trimmed.append {s t u : List Char} (hs : Trimmed s) (hu : Trimmed u) (hne : s ≠ [])
    (hne' : u ≠ []) : Trimmed (s ++ t ++ u) := by
  refine ⟨fun c hc => hs.first c ?_, fun c hc => hu.last c ?_⟩
  · rwa [List.append_assoc, List.head?_append_of_ne_nil _ hne] at hc
  · rwa [List.getLast?_append_of_ne_nil _ hne'] at hc

theorem trimLeft_of_first {s : List Char} (h : ∀ c, s.head? = some c → isBlank c = false) :
    trimLeft s = s := by
  cases s with
  | nil => rfl
  | cons c s => exact List.dropWhile_cons_of_neg (by simp [h c rfl])

theorem trimRight_of_last {s : List Char} (h : ∀ c, s.getLast? = some c → isBlank c = false) :
    trimRight s = s := by
  have hrev : trimLeft s.reverse = s.reverse :=
    trimLeft_of_first fun c hc => h c (by rwa [List.head?_reverse] at hc)
  rw [trimRight, ← trimLeft, hrev, List.reverse_reverse]

theorem Trimmed.trim {s : List Char} (h : Trimmed s) : trim s = s := by
  rw [Text.trim, trimLeft_of_first h.first, trimRight_of_last h.last]

theorem trimLeft_space (s : List Char) : trimLeft (' ' :: s) = trimLeft s :=
  List.dropWhile_cons_of_pos (by decide)

theorem trimLeft_append {before s : List Char} (h : ∀ c ∈ before, isBlank c = true) :
    trimLeft (before ++ s) = trimLeft s :=
  List.dropWhile_append_of_pos h

theorem trimRight_of_blank {s : List Char} (h : ∀ c ∈ s, isBlank c = true) : trimRight s = [] := by
  rw [trimRight, List.dropWhile_eq_nil_iff.2 fun c hc => h c (List.mem_reverse.1 hc),
    List.reverse_nil]

theorem trimRight_append_of_last {s : List Char}
    (h : ∀ c, s.getLast? = some c → isBlank c = false) (after : List Char) :
    trimRight (s ++ after) = s ++ trimRight after := by
  have hs : s.reverse.dropWhile isBlank = s.reverse :=
    trimLeft_of_first fun c hc => h c (by rwa [List.head?_reverse] at hc)
  rw [trimRight, List.reverse_append, List.dropWhile_append]
  split
  · next hempty => 
    have hafter : trimRight after = [] := by
      rw [trimRight, List.isEmpty_iff.1 hempty, List.reverse_nil]
    rw [hs, List.reverse_reverse, hafter, List.append_nil]
  · rw [List.reverse_append, List.reverse_reverse]
    rfl

theorem trimmed_trim (s : List Char) : Trimmed (trim s) := by
  have stop : ∀ (u : List Char) (c : Char), (u.dropWhile isBlank).head? = some c →
      isBlank c = false := by
    intro u c hc
    have hnot := List.head?_dropWhile_not isBlank u
    rwa [hc] at hnot
  constructor
  · intro c hc
    have hsplit : trimLeft s = trim s ++ ((trimLeft s).reverse.takeWhile isBlank).reverse := by
      rw [trim, trimRight, ← List.reverse_append, List.takeWhile_append_dropWhile,
        List.reverse_reverse]
    refine stop s c ?_
    rw [← trimLeft, hsplit, List.head?_append, hc]
    rfl
  · intro c hc
    rw [trim, trimRight, List.getLast?_reverse] at hc
    exact stop _ c hc

/-- Behind a text without blanks at its ends, only the blanks at the very end go. -/
theorem Trimmed.trim_append {s : List Char} (h : Trimmed s) (hne : s ≠ []) (after : List Char) :
    Text.trim (s ++ after) = s ++ trimRight after := by
  have hfirst : ∀ c, (s ++ after).head? = some c → isBlank c = false := fun c hc =>
    h.first c (by rwa [List.head?_append_of_ne_nil _ hne] at hc)
  rw [Text.trim, trimLeft_of_first hfirst, trimRight_append_of_last h.last]

section Inside

variable {c : Char} (hc : isBlank c = false) (before after : List Char)
include hc

/-- Trimming takes nothing off beyond a character that is not blank. -/
theorem trimLeft_append_cons : trimLeft (before ++ c :: after) = trimLeft before ++ c :: after := by
  have hstop : trimLeft (c :: after) = c :: after := List.dropWhile_cons_of_neg (by simp [hc])
  rw [trimLeft, List.dropWhile_append]
  split
  · next hempty => rw [← trimLeft, hstop, trimLeft, List.isEmpty_iff.1 hempty, List.nil_append]
  · rfl

theorem trimRight_append_cons :
    trimRight (before ++ c :: after) = before ++ c :: trimRight after := by
  have hlast : ∀ d, (before ++ [c]).getLast? = some d → isBlank d = false := by
    intro d hd
    rw [List.getLast?_concat] at hd
    rwa [← Option.some.inj hd]
  have h := trimRight_append_of_last hlast after
  rwa [List.append_assoc, List.append_assoc, List.singleton_append, List.singleton_append] at h

theorem trim_append_cons :
    trim (before ++ c :: after) = trimLeft before ++ c :: trimRight after := by
  rw [trim, trimLeft_append_cons hc, trimRight_append_cons hc]

end Inside

theorem endsWith_concat (c d : Char) (s : List Char) : endsWith c (s ++ [d]) = (d == c) := by
  rw [endsWith, List.getLast?_concat]
  rfl

/-! ### Pieces -/

theorem foldr_extendFirst (s piece : List Char) (pieces : List (List Char)) :
    s.foldr extendFirst (piece :: pieces) = (s ++ piece) :: pieces := by
  induction s with
  | nil => rfl
  | cons c s ih => rw [List.foldr_cons, ih]; rfl

theorem splitWhere_append {cut : Char → Bool} {w : List Char} (h : ∀ c ∈ w, cut c = false)
    (s : List Char) : splitWhere cut (w ++ s) = w.foldr extendFirst (splitWhere cut s) := by
  induction w with
  | nil => rfl
  | cons c w ih =>
    have hc : cut c = false := h c List.mem_cons_self
    rw [List.cons_append, splitWhere, if_neg (by simp [hc]),
      ih fun d hd => h d (List.mem_cons_of_mem c hd)]
    rfl

theorem splitWhere_append_cons {cut : Char → Bool} {b : Char} (hb : cut b = true)
    (s t : List Char) : splitWhere cut (s ++ b :: t) = splitWhere cut s ++ splitWhere cut t := by
  induction s with
  | nil => exact if_pos hb
  | cons c s ih =>
    obtain ⟨piece, pieces, hs⟩ := List.exists_cons_of_ne_nil (splitWhere_ne_nil cut s)
    rw [List.cons_append, splitWhere, splitWhere, ih, hs]
    split <;> rfl

/-- A blank ends a word. -/
theorem words_append_cons {b : Char} (hb : isBlank b = true) (s t : List Char) :
    words (s ++ b :: t) = words s ++ words t := by
  rw [words, splitWhere_append_cons hb, List.filter_append]
  rfl

theorem words_of_not_blank {w : List Char} (hne : w ≠ []) (h : ∀ c ∈ w, isBlank c = false) :
    words w = [w] := by
  have hsplit := splitWhere_append h []
  rw [List.append_nil, splitWhere, foldr_extendFirst, List.append_nil] at hsplit
  rw [words, hsplit, List.filter_cons_of_pos (by simpa using hne), List.filter_nil]

/-! ### What pieces are made of -/

section Made

variable {cut : Char → Bool} {s piece : List Char} {c : Char}

theorem mem_of_mem_extendFirst {d : Char} {pieces : List (List Char)}
    (h : piece ∈ extendFirst d pieces) (hc : c ∈ piece) : c = d ∨ ∃ p ∈ pieces, c ∈ p := by
  cases pieces with
  | nil =>
    rw [extendFirst, List.mem_singleton] at h
    rw [h, List.mem_singleton] at hc
    exact .inl hc
  | cons first pieces =>
    rw [extendFirst] at h
    rcases List.mem_cons.1 h with rfl | h
    · exact (List.mem_cons.1 hc).imp_right fun hc => ⟨first, List.mem_cons_self, hc⟩
    · exact .inr ⟨piece, List.mem_cons_of_mem first h, hc⟩

theorem mem_of_mem_splitWhere (h : piece ∈ splitWhere cut s) (hc : c ∈ piece) : c ∈ s := by
  induction s generalizing piece with
  | nil =>
    rw [splitWhere, List.mem_singleton] at h
    rwa [h] at hc
  | cons d s ih =>
    rw [splitWhere] at h
    split at h
    · rcases List.mem_cons.1 h with rfl | h
      · cases hc
      · exact List.mem_cons_of_mem d (ih h hc)
    · rcases mem_of_mem_extendFirst h hc with rfl | ⟨p, hp, hc⟩
      · exact List.mem_cons_self
      · exact List.mem_cons_of_mem d (ih hp hc)

theorem mem_of_mem_words (h : piece ∈ words s) (hc : c ∈ piece) : c ∈ s :=
  mem_of_mem_splitWhere (List.mem_filter.1 h).1 hc

theorem mem_of_mem_trim (h : c ∈ trim s) : c ∈ s := by
  have hright := (List.dropWhile_sublist isBlank).subset (List.mem_reverse.1 h)
  exact (List.dropWhile_sublist isBlank).subset (List.mem_reverse.1 hright)

end Made

/-! ### Marks -/

section Marks

variable {m : Char} {mark w s : List Char}

theorem cut?_mark (mark rest : List Char) : cut? mark (mark ++ rest) = some ([], rest) := by
  cases mark with
  | nil => cases rest <;> rfl
  | cons m mark =>
    rw [List.cons_append, cut?, ← List.cons_append, after?_eq_some.2 rfl]

/-- A mark at the start of a text stands in front of any character that it does not have. -/
theorem exists_of_after? {c : Char} {w rest behind : List Char} (hc : c ∉ mark)
    (h : after? mark (w ++ c :: rest) = some behind) :
    ∃ w', w = mark ++ w' ∧ behind = w' ++ c :: rest := by
  rcases List.append_eq_append_iff.1 (after?_eq_some.1 h) with ⟨a, hmark, heq⟩ | ⟨w', hw, heq⟩
  · cases a with
    | nil => exact ⟨[], by simpa using hmark.symm, by simpa using heq.symm⟩
    | cons d a =>
      rw [(List.cons.inj heq).1] at hc
      exact absurd (hmark ▸ List.mem_append_right _ List.mem_cons_self) hc
  · exact ⟨w', hw, heq⟩

theorem startsWith_append_cons {c : Char} {w : List Char} (hc : c ∉ mark) (rest : List Char) :
    startsWith mark (w ++ c :: rest) = startsWith mark w := by
  rw [Bool.eq_iff_iff, startsWith_iff, startsWith_iff]
  constructor
  · rintro ⟨behind, heq⟩
    obtain ⟨w', rfl, -⟩ := exists_of_after? hc (after?_eq_some.2 heq)
    exact ⟨w', rfl⟩
  · rintro ⟨w', rfl⟩
    exact ⟨w' ++ c :: rest, List.append_assoc mark w' _⟩

theorem cut?_of_after?_eq_none {c : Char} (h : after? mark (c :: s) = none) :
    cut? mark (c :: s) = (cut? mark s).map fun halves => (c :: halves.1, halves.2) := by
  rw [cut?, h]

/-- A text is not cut before the first character of the mark has come up. -/
theorem cut?_append (h : m ∉ w) :
    cut? (m :: mark) (w ++ s) =
      (cut? (m :: mark) s).map fun halves => (w ++ halves.1, halves.2) := by
  induction w with
  | nil =>
    rw [List.nil_append]
    cases cut? (m :: mark) s <;> rfl
  | cons c w ih =>
    rw [List.mem_cons, not_or] at h
    have hafter : after? (m :: mark) (c :: (w ++ s)) = none := if_neg h.1
    rw [List.cons_append, cut?, hafter, ih h.2]
    cases cut? (m :: mark) s <;> rfl

theorem cut?_append_mark (mark : List Char) (h : m ∉ w) (rest : List Char) :
    cut? (m :: mark) (w ++ m :: mark ++ rest) = some (w, rest) := by
  rw [List.append_assoc, cut?_append h, cut?_mark, Option.map_some, List.append_nil]

/-- A text is not cut where the second character of the mark does not follow. -/
theorem cut?_append_of_not_follows (mark : List Char) {n : Char} (hw : n ∉ w) (hs : s.head? ≠ some n) :
    cut? (m :: n :: mark) (w ++ s) =
      (cut? (m :: n :: mark) s).map fun halves => (w ++ halves.1, halves.2) := by
  induction w with
  | nil =>
    rw [List.nil_append]
    cases cut? (m :: n :: mark) s <;> rfl
  | cons c w ih =>
    rw [List.mem_cons, not_or] at hw
    have hafter : after? (m :: n :: mark) (c :: (w ++ s)) = none := by
      rw [Option.eq_none_iff_forall_ne_some]
      intro rest hrest
      have hnext := (List.cons.inj (after?_eq_some.1 hrest)).2
      cases w with
      | nil => exact hs (congrArg List.head? hnext)
      | cons d w => exact hw.2 ((List.cons.inj hnext).1 ▸ List.mem_cons_self)
    rw [List.cons_append, cut?_of_after?_eq_none hafter, ih hw.2]
    cases cut? (m :: n :: mark) s <;> rfl

theorem cut?_eq_none {c : Char} (hc : c ∈ mark) (h : c ∉ s) : cut? mark s = none := by
  rw [Option.eq_none_iff_forall_ne_some]
  rintro ⟨before, rest⟩ hcut
  rw [eq_append_of_cut? hcut] at h
  simp [hc] at h

end Marks

end PointsTo.Text
