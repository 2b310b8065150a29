import PointsTo.Proofs.Comments
import PointsTo.Proofs.Listing
import PointsTo.Proofs.Muting

/-!
How the reader gets over lines. `Reads` says what some lines that are not blank do to the program
and to the phase of the reader, whatever has gone by and however many blank lines stand between
them, so that what is read of a listing is put together from what is read of its parts.
-/
namespace PointsTo.Jimple

open PointsTo.Text

/-! ### Texts without comments -/

theorem blockComment?_eq_none {s : List Char} (h : cut? ['/', '*'] s = none) :
    blockComment? s = none := by
  cases s with
  | nil => rfl
  | cons c rest =>
    rw [cut?] at h
    split at h
    · cases h
    · next hafter => rw [blockComment?, hafter, Option.bind_none]

theorem removeBlocks_of_uncommented {s : List Char} (h : cut? ['/', '*'] s = none) :
    removeBlocks s = s := by
  induction s with
  | nil => rw [removeBlocks]
  | cons c rest ih =>
    rw [removeBlocks_cons (blockComment?_eq_none h), ih (cut?_eq_none_of_cons h)]

theorem beforeComment_of_uncommented {line : List Char} (q : Quoting)
    (h : cut? ['/', '/'] line = none) : beforeComment q line = line := by
  induction line generalizing q with
  | nil => cases q <;> rfl
  | cons c rest ih =>
    rw [beforeComment_cons, ih _ (cut?_eq_none_of_cons h)]
    rintro ⟨-, rfl, hhead⟩
    obtain ⟨behind, rfl⟩ := List.head?_eq_some_iff.1 hhead
    have hmark : cut? ['/', '/'] ('/' :: '/' :: behind) = some ([], behind) :=
      cut?_mark ['/', '/'] behind
    rw [hmark] at h
    cases h

theorem cut?_append_isSome (mark before after : List Char) :
    (cut? mark (before ++ mark ++ after)).isSome = true := by
  induction before with
  | nil => rw [List.nil_append, cut?_mark]; rfl
  | cons c before ih =>
    rw [List.cons_append, List.cons_append, cut?]
    split
    · rfl
    · rw [Option.isSome_map]
      exact ih

theorem cut?_eq_none_of_isInfix {mark s t : List Char} (hs : s <:+: t) (h : cut? mark t = none) :
    cut? mark s = none := by
  rw [Option.eq_none_iff_forall_ne_some]
  rintro ⟨front, behind⟩ hcut
  obtain ⟨before, after, rfl⟩ := hs
  have hsome := cut?_append_isSome mark (before ++ front) (behind ++ after)
  rw [eq_append_of_cut? hcut] at h
  simp only [List.append_assoc] at h hsome
  rw [h] at hsome
  cases hsome

theorem isPrefix_splitLines {s first : List Char} (h : (splitLines s).head? = some first) :
    first <+: s := by
  fun_induction splitLines s generalizing first with
  | case1 => cases h
  | case2 rest _ =>
    obtain rfl := Option.some.inj h
    exact List.nil_prefix
  | case3 c rest _ _ _ =>
    obtain rfl := Option.some.inj h
    exact List.nil_prefix
  | case4 c rest _ _ ih =>
    cases hlines : splitLines rest with
    | nil =>
      rw [hlines] at h
      obtain rfl := Option.some.inj h
      exact ⟨rest, rfl⟩
    | cons line lines =>
      rw [hlines] at h ih
      obtain rfl := Option.some.inj h
      exact List.cons_prefix_cons.2 ⟨rfl, ih rfl⟩

theorem isInfix_of_mem_splitLines {s line : List Char} (h : line ∈ splitLines s) : line <:+: s := by
  fun_induction splitLines s generalizing line with
  | case1 => cases h
  | case2 rest ih =>
    rcases List.mem_cons.1 h with rfl | h
    · exact List.nil_infix
    · exact (ih h).trans ((List.suffix_cons _ _).trans (List.suffix_cons _ _)).isInfix
  | case3 c rest _ _ ih =>
    rcases List.mem_cons.1 h with rfl | h
    · exact List.nil_infix
    · exact (ih h).trans (List.suffix_cons _ _).isInfix
  | case4 c rest _ _ ih =>
    cases hlines : splitLines rest with
    | nil =>
      rw [hlines] at h
      obtain rfl := List.mem_singleton.1 h
      exact List.IsPrefix.isInfix ⟨rest, rfl⟩
    | cons first lines =>
      have hfirst : first <+: rest := isPrefix_splitLines (by rw [hlines]; rfl)
      rw [hlines] at h ih
      rcases List.mem_cons.1 h with rfl | h
      · exact (List.cons_prefix_cons.2 ⟨rfl, hfirst⟩).isInfix
      · exact (ih (List.mem_cons_of_mem first h)).trans (List.suffix_cons _ _).isInfix

/-- Without comments the lines of code are the lines, trimmed. -/
theorem codeLines_of_uncommented {s : List Char} (h : isUncommented s = true) :
    codeLines s = (splitLines s).map trim := by
  simp only [isUncommented, Bool.and_eq_true, Option.isNone_iff_eq_none] at h
  rw [codeLines, removeBlocks_of_uncommented h.2]
  refine List.map_congr_left fun line hline => ?_
  rw [beforeComment_of_uncommented _ (cut?_eq_none_of_isInfix (isInfix_of_mem_splitLines hline) h.1)]

/-! ### Lines -/

namespace Reader

/-- The next line that is not blank, outside of switches. -/
theorem run_line {r : Reader} {raw : List (List Char)} {n : Nat} {s : List Char} {rest : List Line}
    (hswitch : ∀ c d opening, r.phase ≠ .inSwitch c d opening)
    (h : numberLines r.seen raw = ⟨n, s⟩ :: rest) :
    ∃ raw', numberLines n raw' = rest ∧
      ∀ q, (Reader.mk r.program r.phase n n).line? s = .ok q → r.run raw = q.run raw' := by
  induction raw generalizing r with
  | nil => cases h
  | cons t raw ih =>
    have hstep := step_of_not_inSwitch t hswitch
    rw [numberLines] at h
    split at h
    · next hblank =>
      simp only [hblank, if_true] at hstep
      obtain ⟨raw', hraw, hrun⟩ :=
        ih (r := { r with seen := r.seen + 1, line := r.seen + 1 }) hswitch h
      exact ⟨raw', hraw, fun q hq => by rw [run, hstep]; exact hrun q hq⟩
    · next hblank =>
      simp only [hblank, Bool.false_eq_true, if_false] at hstep
      obtain ⟨hline, rfl⟩ := List.cons.inj h
      obtain ⟨rfl, rfl⟩ := Line.mk.inj hline
      exact ⟨raw, rfl, fun q hq => by rw [run, hstep, hq]⟩

/-- The lines of a switch up to the one that closes it. -/
theorem run_switch {r : Reader} {raw : List (List Char)} {c : Class} {d : Draft} {opening : String}
    {inside rest : List Line} {closing : Line} (hphase : r.phase = .inSwitch c d opening)
    (hinside : ∀ l ∈ inside, closesSwitch l.chars = false)
    (hclosing : closesSwitch closing.chars = true)
    (h : numberLines r.seen raw = inside ++ closing :: rest) :
    ∃ (q : Reader) (raw' : List (List Char)), q.program = r.program ∧
      q.phase = .inBody c (d.add (.other opening) r.line) ∧ numberLines q.seen raw' = rest ∧
        r.run raw = q.run raw' := by
  induction raw generalizing r inside with
  | nil => cases inside <;> cases h
  | cons t raw ih =>
    have hskip : closesSwitch t = false → r.step t = .ok { r with seen := r.seen + 1 } := by
      intro hopen
      simp only [step, hphase, hopen, Bool.false_eq_true, if_false]
    rw [numberLines] at h
    split at h
    · next hblank =>
      obtain rfl := List.isEmpty_iff.1 hblank
      obtain ⟨q, raw', hp, hq, hrest, hrun⟩ :=
        ih (r := { r with seen := r.seen + 1 }) hphase hinside h
      exact ⟨q, raw', hp, hq, hrest, by rw [run, hskip (by decide)]; exact hrun⟩
    · cases inside with
      | nil =>
        obtain ⟨rfl, hrest⟩ := List.cons.inj h
        let q : Reader :=
          { r with seen := r.seen + 1, phase := .inBody c (d.add (.other opening) r.line) }
        have hstep : r.step t = .ok q := by simp only [step, hphase, hclosing, if_true, q]
        exact ⟨q, raw, rfl, rfl, hrest, by rw [run, hstep]⟩
      | cons l inside =>
        obtain ⟨rfl, hrest⟩ := List.cons.inj h
        obtain ⟨q, raw', hp, hq, hrest, hrun⟩ := ih (r := { r with seen := r.seen + 1 }) hphase
          (fun l hl => hinside l (List.mem_cons_of_mem _ hl)) hrest
        exact ⟨q, raw', hp, hq, hrest,
          by rw [run, hskip (hinside _ List.mem_cons_self)]; exact hrun⟩

/-- At the end of the lines the reader is done, if it is outside of all classes. -/
theorem run_end {r : Reader} {raw : List (List Char)} (hphase : r.phase = .outside)
    (h : numberLines r.seen raw = []) : r.run raw = (r.program, none) := by
  induction raw generalizing r with
  | nil => simp only [run, endFault?, hphase]
  | cons t raw ih =>
    rw [numberLines] at h
    split at h
    · next hblank =>
      have hstep := step_of_not_inSwitch (r := r) t (by simp [hphase])
      simp only [hblank, if_true] at hstep
      rw [run, hstep]
      exact ih (r := { r with seen := r.seen + 1, line := r.seen + 1 }) hphase h
    · cases h

end Reader

/-! ### Passages -/

/-- The lines take the reader from one program and phase to another, whatever stands behind them. -/
def Reads (p : Program) (phase : Phase) (lines : List Line) (p' : Program) (phase' : Phase) : Prop :=
  ∀ (r : Reader) (raw : List (List Char)) (rest : List Line), r.program = p → r.phase = phase →
    numberLines r.seen raw = lines ++ rest →
      ∃ (q : Reader) (raw' : List (List Char)), q.program = p' ∧ q.phase = phase' ∧
        numberLines q.seen raw' = rest ∧ r.run raw = q.run raw'

namespace Reads

variable {p p' p'' : Program} {phase phase' phase'' : Phase} {lines lines' : List Line}

theorem nil : Reads p phase [] p phase := fun r raw _ hp hphase h =>
  ⟨r, raw, hp, hphase, h, rfl⟩

theorem append (h : Reads p phase lines p' phase') (h' : Reads p' phase' lines' p'' phase'') :
    Reads p phase (lines ++ lines') p'' phase'' := by
  intro r raw rest hp hphase hlines
  rw [List.append_assoc] at hlines
  obtain ⟨q, raw', hp', hphase', hrest, hrun⟩ := h r raw _ hp hphase hlines
  obtain ⟨q', raw'', hp'', hphase'', hrest', hrun'⟩ := h' q raw' rest hp' hphase' hrest
  exact ⟨q', raw'', hp'', hphase'', hrest', hrun.trans hrun'⟩

theorem line {n : Nat} {s : List Char} (hswitch : ∀ c d opening, phase ≠ .inSwitch c d opening)
    (h : (Reader.mk p phase n n).line? s = .ok ⟨p', phase', n, n⟩) :
    Reads p phase [⟨n, s⟩] p' phase' := by
  rintro r raw rest rfl rfl hlines
  obtain ⟨raw', hrest, hrun⟩ := Reader.run_line hswitch hlines
  exact ⟨_, raw', rfl, rfl, hrest, hrun _ h⟩

/-- A switch is read as one statement at its first line. -/
theorem switch {c : Class} {d : Draft} {n m : Nat} {opening : List Char} {inside : List Line}
    (hopening : opensSwitch opening = true)
    (hinside : ∀ l ∈ inside, closesSwitch l.chars = false) :
    Reads p (.inBody c d) (⟨n, opening⟩ :: inside ++ [⟨m, ['\x7d', ';']⟩]) p
      (.inBody c (d.add (.other (String.ofList opening)) n)) := by
  have hclosing : closesSwitch ['\x7d', ';'] = true := by decide
  intro r raw rest hp hphase hlines
  rw [List.append_assoc, List.cons_append] at hlines
  obtain ⟨raw', hrest, hrun⟩ := Reader.run_line (by simp [hphase]) hlines
  have hopen : (Reader.mk r.program r.phase n n).line? opening =
      .ok ⟨r.program, .inSwitch c d (String.ofList opening), n, n⟩ := by
    simp only [hphase, Reader.line?, Reader.bodyLine, hopening, if_true]
    rfl
  obtain ⟨q, raw'', hp', hphase', hrest', hrun'⟩ :=
    Reader.run_switch (r := ⟨r.program, .inSwitch c d (String.ofList opening), n, n⟩) rfl hinside
      hclosing hrest
  exact ⟨q, raw'', hp'.trans hp, hphase', hrest', (hrun _ hopen).trans hrun'⟩

end Reads

end PointsTo.Jimple
