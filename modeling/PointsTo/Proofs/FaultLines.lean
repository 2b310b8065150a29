import Mathlib.Data.List.Basic
import Mathlib.Data.List.TakeWhile
import PointsTo.Proofs.Reading

/-!
The faults of a text name one of its lines. The reader numbers the lines as it goes, and taking the
comments off makes no line more, so the number of a fault lies inside the text. One fault has no
line: the header of a method whose parameters are not closed, which is told apart from the text.
-/
namespace PointsTo.Jimple

open PointsTo.Text

/-! ### Counting lines -/

/-- One character in front: a carriage return joins the line feed behind it, any other end of line
makes a line of its own, and all else belongs to the first line. -/
theorem length_splitLines_cons (c : Char) (s : List Char) :
    (splitLines (c :: s)).length =
      if c = '\r' ∧ s.head? = some '\n' then (splitLines s).length
      else if isLineEnd c then (splitLines s).length + 1
      else max 1 (splitLines s).length := by
  have hextend : ∀ lines, (extendFirst c lines).length = max 1 lines.length := by
    intro lines
    cases lines with
    | nil => rfl
    | cons first lines => simp [extendFirst]
  by_cases hjoin : c = '\r' ∧ s.head? = some '\n'
  · rw [if_pos hjoin]
    obtain ⟨rfl, hs⟩ := hjoin
    obtain ⟨rest, rfl⟩ := List.head?_eq_some_iff.1 hs
    simp [splitLines, isLineEnd]
  · rw [splitLines_cons hjoin, if_neg hjoin]
    split
    · rfl
    · exact hextend _

theorem length_splitLines_le_cons (c : Char) (s : List Char) :
    (splitLines s).length ≤ (splitLines (c :: s)).length := by
  rw [length_splitLines_cons]
  split
  · exact Nat.le_refl _
  · split <;> omega

/-- The same character in front of two texts keeps which has more lines. The second text must not
lose its first line feed to a carriage return alone. -/
theorem length_splitLines_cons_le {s t : List Char} (c : Char)
    (hle : (splitLines s).length ≤ (splitLines t).length)
    (hfeed : t.head? = some '\n' → s.head? = some '\n') :
    (splitLines (c :: s)).length ≤ (splitLines (c :: t)).length := by
  rw [length_splitLines_cons, length_splitLines_cons]
  by_cases ht : c = '\r' ∧ t.head? = some '\n'
  · rw [if_pos ⟨ht.1, hfeed ht.2⟩, if_pos ht]
    exact hle
  · rw [if_neg ht]
    by_cases hs : c = '\r' ∧ s.head? = some '\n'
    · rw [if_pos hs]
      split <;> omega
    · rw [if_neg hs]
      split <;> omega

/-- A comment that is reduced to its line feeds makes no line more. -/
theorem length_splitLines_feeds_le {s t : List Char} (comment : List Char)
    (hle : (splitLines s).length ≤ (splitLines t).length) :
    (splitLines (comment.filter (· = '\n') ++ s)).length ≤
      (splitLines (comment ++ t)).length := by
  have hfeed : ∀ u, (splitLines ('\n' :: u)).length = (splitLines u).length + 1 := by
    intro u
    simp [length_splitLines_cons, isLineEnd]
  induction comment with
  | nil => exact hle
  | cons c comment ih =>
    by_cases hc : c = '\n'
    · subst hc
      rw [List.filter_cons_of_pos (by simp), List.cons_append, List.cons_append, hfeed, hfeed]
      omega
    · rw [List.filter_cons_of_neg (by simpa using hc)]
      exact Nat.le_trans ih (length_splitLines_le_cons c (comment ++ t))

theorem head?_removeBlocks {s : List Char} (h : s.head? = some '\n') :
    (removeBlocks s).head? = some '\n' := by
  obtain ⟨rest, rfl⟩ := List.head?_eq_some_iff.1 h
  rw [removeBlocks.eq_def]
  rfl

theorem length_splitLines_removeBlocks (s : List Char) :
    (splitLines (removeBlocks s)).length ≤ (splitLines s).length := by
  fun_induction removeBlocks s with
  | case1 => exact Nat.le_refl _
  | case2 rest comment behind hcut ih =>
    -- The comment is what stands between its two marks, of which the last goes with the rest.
    have hbehind : (splitLines (removeBlocks behind)).length ≤
        (splitLines (['*', '/'] ++ behind)).length :=
      calc (splitLines (removeBlocks behind)).length
        _ ≤ (splitLines behind).length := ih
        _ ≤ (splitLines ('/' :: behind)).length := length_splitLines_le_cons '/' behind
        _ ≤ (splitLines ('*' :: '/' :: behind)).length := length_splitLines_le_cons '*' _
    calc (splitLines (comment.filter (· = '\n') ++ removeBlocks behind)).length
      _ ≤ (splitLines (comment ++ (['*', '/'] ++ behind))).length :=
        length_splitLines_feeds_le comment hbehind
      _ = (splitLines rest).length := by rw [eq_append_of_cut? hcut, List.append_assoc]
      _ ≤ (splitLines ('*' :: rest)).length := length_splitLines_le_cons '*' rest
      _ ≤ (splitLines ('/' :: '*' :: rest)).length := length_splitLines_le_cons '/' _
  | case3 rest hcut => exact Nat.le_refl _
  | case4 c rest hno ih => exact length_splitLines_cons_le c ih head?_removeBlocks

theorem length_codeLines_le (s : List Char) : (codeLines s).length ≤ (splitLines s).length := by
  rw [codeLines, List.length_map]
  exact length_splitLines_removeBlocks s

/-! ### Open parentheses -/

/-- The line opens a parenthesis that no later one closes. -/
def OpensOnly (s : List Char) : Prop := '(' ∈ s ∧ ')' ∉ s.dropWhile (· ≠ '(')

instance (s : List Char) : Decidable (OpensOnly s) := inferInstanceAs (Decidable (_ ∧ _))

/-- What a parenthesis opens begins with it, and goes on with what stands behind it. -/
theorem dropWhile_eq_cons {s : List Char} (h : '(' ∈ s) :
    s.dropWhile (· ≠ '(') = '(' :: s.drop ((s.takeWhile (· ≠ '(')).length + 1) := by
  induction s with
  | nil => cases h
  | cons c rest ih =>
    by_cases hc : c = '('
    · subst hc
      simp
    · have hrest : '(' ∈ rest := (List.mem_cons.1 h).resolve_left (Ne.symm hc)
      simpa [hc] using ih hrest

/-- What surrounds a text does not matter, having no parenthesis. -/
theorem opensOnly_append {before s after : List Char} (hbefore : '(' ∉ before)
    (hafter : '(' ∉ after ∧ ')' ∉ after) :
    OpensOnly (before ++ s ++ after) ↔ OpensOnly s := by
  have hskip : (before ++ s ++ after).dropWhile (· ≠ '(') = (s ++ after).dropWhile (· ≠ '(') := by
    rw [List.append_assoc]
    exact List.dropWhile_append_of_pos fun c hc => by
      simpa using fun heq : c = '(' => hbefore (heq ▸ hc)
  have hmem : '(' ∈ before ++ s ++ after ↔ '(' ∈ s := by
    simp [hbefore, hafter.1]
  unfold OpensOnly
  rw [hskip, hmem]
  refine and_congr_right fun hs => ?_
  rw [List.dropWhile_append, dropWhile_eq_cons hs]
  simp [hafter.2]

/-- Trimming takes blanks off both ends. -/
theorem exists_trim (s : List Char) : ∃ before after, s = before ++ trim s ++ after ∧
    (∀ c ∈ before, isBlank c = true) ∧ ∀ c ∈ after, isBlank c = true := by
  refine ⟨s.takeWhile isBlank, ((trimLeft s).reverse.takeWhile isBlank).reverse, ?_,
    fun c hc => List.mem_takeWhile_imp hc,
    fun c hc => List.mem_takeWhile_imp (List.mem_reverse.1 hc)⟩
  rw [List.append_assoc, trim, trimRight, ← List.reverse_append, List.takeWhile_append_dropWhile,
    List.reverse_reverse, trimLeft, List.takeWhile_append_dropWhile]

/-- What is taken off a header has no parenthesis. -/
theorem exists_headerText (s : List Char) : ∃ before after, s = before ++ headerText s ++ after ∧
    '(' ∉ before ∧ '(' ∉ after ∧ ')' ∉ after := by
  have hblank : ∀ u : List Char, (∀ c ∈ u, isBlank c = true) → '(' ∉ u ∧ ')' ∉ u := fun u hu =>
    ⟨fun hc => absurd (hu _ hc) (by decide), fun hc => absurd (hu _ hc) (by decide)⟩
  have hlast : ∀ c, c ≠ '(' → c ≠ ')' → endsWith c s = true →
      ∃ before after, s = before ++ trim s.dropLast ++ after ∧
        '(' ∉ before ∧ '(' ∉ after ∧ ')' ∉ after := by
    intro c hopen hclose hends
    obtain ⟨before, after, heq, hbefore, hafter⟩ := exists_trim s.dropLast
    have hs : s = s.dropLast ++ [c] := by
      refine (List.dropLast_append_getLast? c ?_).symm
      simpa [endsWith] using hends
    refine ⟨before, after ++ [c], ?_, (hblank before hbefore).1, ?_, ?_⟩
    · rw [← List.append_assoc, ← heq]
      exact hs
    · simp [(hblank after hafter).1, hopen.symm]
    · simp [(hblank after hafter).2, hclose.symm]
  unfold headerText
  split
  · next hends =>
    rcases Bool.or_eq_true_iff.1 hends with hends | hends
    · exact hlast ';' (by decide) (by decide) hends
    · exact hlast '\x7b' (by decide) (by decide) hends
  · exact ⟨[], [], by simp, by simp, by simp, by simp⟩

/-- A header is given up just when it opens its parameters and does not close them. -/
theorem readMethodHeader_eq_none {owner : String} {s : List Char} (h : '(' ∈ s) :
    readMethodHeader owner s = none ↔ OpensOnly s := by
  obtain ⟨before, after, heq, hbefore, hafter⟩ := exists_headerText s
  have hmem : '(' ∈ headerText s := by
    rw [heq] at h
    simpa [hbefore, hafter.1] using h
  have hopens : OpensOnly s ↔ ')' ∉ (headerText s).dropWhile (· ≠ '(') := by
    conv_lhs => rw [heq]
    rw [opensOnly_append hbefore hafter]
    exact and_iff_right hmem
  rw [hopens, dropWhile_eq_cons hmem]
  unfold readMethodHeader
  dsimp only
  split
  · next hclosed => simpa using hclosed
  · next hclosed =>
    split <;> simpa using hclosed

/-! ### The reader -/

/-- The number that a fault would get is that of a line gone by. Before the first line there is no
such number, and no fault either, the reader being outside of all classes. -/
structure Reader.Numbered (r : Reader) : Prop where
  line_le : r.line ≤ r.seen
  one_le : r.phase = .outside ∨ 1 ≤ r.line

/-- Among the lines there is one, read between the members of a class, that opens the parameters of
a method and does not close them. -/
def Reader.MeetsUnclosed (r : Reader) (lines : List (List Char)) : Prop :=
  ∃ before s after r' c, lines = before ++ s :: after ∧ before.foldlM Reader.step r = .ok r' ∧
    r'.phase = .inClass c ∧ OpensOnly s

namespace Reader

variable {r r' : Reader} {s : List Char} {line : Nat} {fault : LineFault}

theorem mapError_eq_error {α : Type} {x : Except LineFault α} {e : Fault}
    (h : x.mapError (Fault.atLine line) = .error e) : ∃ fault, e = .atLine line fault := by
  cases x with
  | error fault => exact ⟨fault, (Except.error.inj h).symm⟩
  | ok b => cases h

/-- A line at fault gives the fault its number, or is a header that was given up. -/
theorem line?_error {e : Fault} (h : r.line? s = .error e) :
    (∃ fault, e = .atLine r.line fault) ∨
      e = .unclosedHeader ∧ ∃ c, r.phase = .inClass c ∧ OpensOnly s := by
  unfold line? at h
  dsimp only at h
  split at h
  · exact .inl (mapError_eq_error h)
  · exact .inl (mapError_eq_error h)
  · next c hphase =>
    unfold member at h
    split at h
    · cases h
    split at h
    · next hopen =>
      have hopen : '(' ∈ s := by simpa using hopen
      unfold methodHeader at h
      split at h
      · next hnone =>
        cases h
        exact .inr ⟨rfl, c, hphase, (readMethodHeader_eq_none hopen).1 hnone⟩
      · cases h
        exact .inl ⟨_, rfl⟩
      · cases h
    · split at h
      · cases h
        exact .inl ⟨_, rfl⟩
      · cases h
  · exact .inl (mapError_eq_error h)
  · exact .inl (mapError_eq_error h)
  · cases h

theorem line?_unclosed {c : Class} (hphase : r.phase = .inClass c) (hs : OpensOnly s) :
    r.line? s = .error .unclosedHeader := by
  have hbrace : s ≠ ['\x7d'] := by
    rintro rfl
    exact absurd hs.1 (by decide)
  have hopen : s.contains '(' = true := by simpa using hs.1
  simp only [line?, hphase, member, if_neg hbrace, hopen, if_true, methodHeader,
    (readMethodHeader_eq_none hs.1).2 hs]

theorem step_numbered (h : r.Numbered) (hs : r.step s = .ok r') :
    r'.Numbered ∧ r'.seen = r.seen + 1 := by
  have advances := advances_of_step hs
  refine ⟨?_, advances.seen_eq⟩
  have here : ∀ {q : Reader}, q.line = r.seen + 1 → q.seen = r.seen + 1 → q.Numbered := by
    intro q hline hseen
    refine ⟨by rw [hline, hseen], .inr ?_⟩
    rw [hline]
    exact Nat.le_add_left 1 _
  cases advances with
  | inSwitch phase =>
    exact ⟨Nat.le_succ_of_le h.line_le, .inr (h.one_le.resolve_left (by simp [phase]))⟩
  | closeSwitch phase =>
    exact ⟨Nat.le_succ_of_le h.line_le, .inr (h.one_le.resolve_left (by simp [phase]))⟩
  | _ => exact here rfl rfl

theorem step_error {e : Fault} (hs : r.step s = .error e) :
    (∃ fault, e = .atLine (r.seen + 1) fault) ∨
      e = .unclosedHeader ∧ ∃ c, r.phase = .inClass c ∧ OpensOnly s := by
  unfold step at hs
  dsimp only at hs
  split at hs
  · split at hs <;> cases hs
  · split at hs
    · cases hs
    · exact line?_error hs

theorem step_unclosed {c : Class} (hphase : r.phase = .inClass c) (hs : OpensOnly s) :
    r.step s = .error .unclosedHeader := by
  have hne : s.isEmpty = false := by
    rw [List.isEmpty_eq_false_iff]
    exact List.ne_nil_of_mem hs.1
  simp only [step, hphase, hne, Bool.false_eq_true, if_false]
  exact line?_unclosed rfl hs

theorem endFault?_atLine (h : r.Numbered) (hf : r.endFault? = some (.atLine line fault)) :
    1 ≤ line ∧ line ≤ r.seen := by
  unfold endFault? at hf
  have hline : r.phase ≠ .outside → 1 ≤ r.line := h.one_le.resolve_left
  split at hf <;> cases hf
  all_goals exact ⟨hline (by simp [*]), h.line_le⟩

/-- The fault of a run has the number of one of the lines of the run or of one before it. -/
theorem run_atLine {lines : List (List Char)} (h : r.Numbered)
    (hf : (r.run lines).2 = some (.atLine line fault)) :
    1 ≤ line ∧ line ≤ r.seen + lines.length := by
  induction lines generalizing r with
  | nil => exact endFault?_atLine h hf
  | cons s rest ih =>
    unfold run at hf
    rw [List.length_cons]
    cases hs : r.step s with
    | ok r' =>
      rw [hs] at hf
      obtain ⟨hnumbered, hseen⟩ := step_numbered h hs
      have := ih hnumbered hf
      omega
    | error e =>
      rw [hs] at hf
      obtain rfl : e = .atLine line fault := Option.some.inj hf
      obtain ⟨_, heq⟩ | ⟨heq, -⟩ := step_error hs
      · cases heq
        omega
      · cases heq

theorem meetsUnclosed_cons {rest : List (List Char)} : r.MeetsUnclosed (s :: rest) ↔
    (∃ c, r.phase = .inClass c ∧ OpensOnly s) ∨
      ∃ r', r.step s = .ok r' ∧ r'.MeetsUnclosed rest := by
  constructor
  · rintro ⟨before, u, after, q, c, heq, hread, hphase, hu⟩
    cases before with
    | nil =>
      obtain ⟨rfl, -⟩ := List.cons.inj heq
      cases hread
      exact .inl ⟨c, hphase, hu⟩
    | cons first before =>
      obtain ⟨rfl, hrest⟩ := List.cons.inj heq
      rw [List.foldlM_cons] at hread
      cases hs : r.step s with
      | ok r' =>
        rw [hs] at hread
        exact .inr ⟨r', rfl, before, u, after, q, c, hrest, hread, hphase, hu⟩
      | error e =>
        rw [hs] at hread
        cases hread
  · rintro (⟨c, hphase, hs⟩ | ⟨r', hs, before, u, after, q, c, rfl, hread, hat⟩)
    · exact ⟨[], s, rest, r, c, rfl, rfl, hphase, hs⟩
    · refine ⟨s :: before, u, after, q, c, rfl, ?_, hat⟩
      rw [List.foldlM_cons, hs]
      exact hread

/-- A run has a fault without a line just when it meets an unclosed header. -/
theorem run_unclosed {lines : List (List Char)} :
    (r.run lines).2 = some .unclosedHeader ↔ r.MeetsUnclosed lines := by
  induction lines generalizing r with
  | nil =>
    refine ⟨fun h => ?_, fun ⟨before, s, after, _, _, heq, _⟩ => ?_⟩
    · change r.endFault? = _ at h
      unfold endFault? at h
      split at h <;> cases h
    · exact absurd heq (by simp)
  | cons s rest ih =>
    unfold run
    rw [meetsUnclosed_cons]
    cases hs : r.step s with
    | ok r' =>
      dsimp only
      rw [ih]
      refine ⟨fun h => .inr ⟨r', rfl, h⟩, ?_⟩
      rintro (⟨c, hphase, hu⟩ | ⟨q, hq, h⟩)
      · rw [step_unclosed hphase hu] at hs
        cases hs
      · obtain rfl := Except.ok.inj hq
        exact h
    | error e =>
      dsimp only
      constructor
      · intro h
        obtain rfl := Option.some.inj h
        obtain ⟨_, heq⟩ | ⟨-, hat⟩ := step_error hs
        · cases heq
        · exact .inl hat
      · rintro (⟨c, hphase, hu⟩ | ⟨q, hq, -⟩)
        · rw [step_unclosed hphase hu] at hs
          cases hs
          rfl
        · cases hq

end Reader

/-! ### Texts -/

/-- **The fault of a text is at one of its lines**, but for one. A text is read to its end, or the
number of its fault lies between one and the count of its lines, or the fault has no number; and it
has none just when a method header, met between the members of a class, opens its parameters and
does not close them. -/
theorem read_fault_at_line (program : Program) (text : String) :
    (∀ line fault, (read program text).2 = some (.atLine line fault) →
      1 ≤ line ∧ line ≤ (splitLines text.toList).length) ∧
    ((read program text).2 = some .unclosedHeader ↔
      ({ program } : Reader).MeetsUnclosed (codeLines text.toList)) := by
  refine ⟨fun line fault hf => ?_, Reader.run_unclosed⟩
  have hstart : ({ program } : Reader).Numbered := ⟨Nat.le_refl _, .inl rfl⟩
  obtain ⟨hone, hle⟩ := Reader.run_atLine hstart hf
  have hcode := length_codeLines_le text.toList
  exact ⟨hone, by simpa using Nat.le_trans hle (Nat.add_le_add_left hcode _)⟩

/-- A header that ends behind its opening parenthesis, and a text that ends inside a class. -/
theorem read_fault_at_line_unclosed :
    ((read ∅ "class A\n\x7b\nvoid m(\n\x7d\n").2 = some .unclosedHeader ∧
      ({ program := ∅ } : Reader).MeetsUnclosed
        (codeLines "class A\n\x7b\nvoid m(\n\x7d\n".toList)) ∧
    ((read ∅ "class A\n\x7b\nint f;\n").2 = some (.atLine 3 .unexpectedEnd) ∧
      1 ≤ 3 ∧ 3 ≤ (splitLines "class A\n\x7b\nint f;\n".toList).length) := by
  have hunclosed : (read ∅ "class A\n\x7b\nvoid m(\n\x7d\n").2 = some .unclosedHeader := by
    decide +kernel
  have hended : (read ∅ "class A\n\x7b\nint f;\n").2 = some (.atLine 3 .unexpectedEnd) := by
    decide +kernel
  exact ⟨⟨hunclosed, (read_fault_at_line ∅ _).2.1 hunclosed⟩,
    hended, (read_fault_at_line ∅ _).1 3 _ hended⟩

end PointsTo.Jimple
