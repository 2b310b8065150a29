import PointsTo.Jimple.Reader

/-!
What the reader does with a line that it takes: one constructor of `Advances` for each thing that can
happen. Invariants of the reading are proved by cases on it, and carried through the lines of a text
by `exists_of_run`.
-/
namespace PointsTo.Jimple

open PointsTo.Text

namespace Reader

/-- The reader at its next line, outside of switches. -/
def next (r : Reader) : Reader := { r with seen := r.seen + 1, line := r.seen + 1 }

/-- What becomes of the reader by a line that it takes. -/
inductive Advances (r : Reader) (s : List Char) : Reader → Prop
  | inSwitch {c d opening} (phase : r.phase = .inSwitch c d opening) :
      Advances r s { r with seen := r.seen + 1 }
  | closeSwitch {c d opening} (phase : r.phase = .inSwitch c d opening) :
      Advances r s
        { r with seen := r.seen + 1, phase := .inBody c (d.add (.other opening) r.line) }
  | blank (unswitched : ∀ c d opening, r.phase ≠ .inSwitch c d opening) : Advances r s r.next
  | header {c} (read : readClassHeader (if endsWith '\x7b' s then trim s.dropLast else s) = .ok c) :
      Advances r s (r.next.keep c (if endsWith '\x7b' s then .inClass else .beforeClass))
  | openClass {c} (phase : r.phase = .beforeClass c) :
      Advances r s { r.next with phase := .inClass c }
  | closeClass : Advances r s { r.next with phase := .outside }
  | method {c m} (phase : r.phase = .inClass c) (read : readMethodHeader c.name s = some (.ok m)) :
      Advances r s (r.next.keep { c with methods := c.methods.put m } fun c =>
        if endsWith ';' s then .inClass c
        else if endsWith '\x7b' s then .inBody c { method := m }
        else .beforeBody c { method := m })
  | field {c f} (phase : r.phase = .inClass c) (read : readField c.name s = .ok f) :
      Advances r s (r.next.keep { c with fields := c.fields.put f } .inClass)
  | openBody {c d} (phase : r.phase = .beforeBody c d) :
      Advances r s { r.next with phase := .inBody c d }
  | openSwitch {c d} (phase : r.phase = .inBody c d) (opens : opensSwitch s = true) :
      Advances r s { r.next with phase := .inSwitch c d (String.ofList s) }
  | closeBody {c d} (phase : r.phase = .inBody c d) :
      Advances r s (r.next.keep
        { c with methods := c.methods.put { d.method with body := some d.finish } } .inClass)
  | line {c d d'} (phase : r.phase = .inBody c d) (read : d.readLine s (r.seen + 1) = .ok d') :
      Advances r s { r.next with phase := .inBody c d' }

variable {r r' : Reader} {s : List Char}

theorem mapError_eq_ok {α : Type} {line : Nat} {x : Except LineFault α} {a : α}
    (h : x.mapError (Fault.atLine line) = .ok a) : x = .ok a := by
  cases x with
  | error fault => cases h
  | ok b => exact congrArg _ (Except.ok.inj h)

theorem eq_of_brace {opening : String} {phase : Phase} (h : r.brace opening s phase = .ok r') :
    r' = { r with phase } := by
  unfold brace at h
  split at h
  · cases h
    rfl
  · cases h

/-- A line outside of switches that is not blank. -/
theorem advances_of_line? (h : r.next.line? s = .ok r')
    (unswitched : ∀ c d opening, r.phase ≠ .inSwitch c d opening) : r.Advances s r' := by
  unfold line? at h
  dsimp only [next] at h
  cases phase : r.phase with
  | outside =>
    rw [phase] at h
    have h := mapError_eq_ok h
    simp only [classHeader, bind, Except.bind, pure, Except.pure] at h
    split at h
    · cases h
    · next c read =>
      cases h
      exact .header read
  | beforeClass c =>
    rw [phase] at h
    rw [eq_of_brace (mapError_eq_ok h)]
    exact .openClass phase
  | inClass c =>
    rw [phase] at h
    dsimp only [member, methodHeader] at h
    split at h
    · cases h
      exact .closeClass
    · split at h
      · split at h
        · cases h
        · cases h
        · next m read =>
          cases h
          exact .method phase read
      · split at h
        · cases h
        · next f read =>
          cases h
          exact .field phase read
  | beforeBody c d =>
    rw [phase] at h
    rw [eq_of_brace (mapError_eq_ok h)]
    exact .openBody phase
  | inBody c d =>
    rw [phase] at h
    have h := mapError_eq_ok h
    simp only [bodyLine, bind, Except.bind, pure, Except.pure] at h
    split at h
    · next opens =>
      cases h
      exact .openSwitch phase opens
    · split at h
      · cases h
        exact .closeBody phase
      · split at h
        · cases h
        · next d' read =>
          cases h
          exact .line phase read
  | inSwitch c d opening => exact absurd phase (unswitched c d opening)

theorem advances_of_step (h : r.step s = .ok r') : r.Advances s r' := by
  unfold step at h
  dsimp only at h
  split at h
  · next c d opening phase =>
    split at h
    · cases h
      exact .closeSwitch phase
    · cases h
      exact .inSwitch phase
  · next unswitched =>
    have unswitched : ∀ c d opening, r.phase ≠ .inSwitch c d opening := by simpa using unswitched
    split at h
    · cases h
      exact .blank unswitched
    · exact advances_of_line? h unswitched

theorem Advances.seen_eq (h : r.Advances s r') : r'.seen = r.seen + 1 := by
  cases h <;> rfl

/-- What every line that is taken keeps, holds where the reading ends: behind the last line, or in
front of the line at fault. -/
theorem exists_of_run {Keeps : Reader → Prop} {lines : List (List Char)}
    (step : ∀ r r' s, lines[r.seen]? = some s → Keeps r → r.Advances s r' → Keeps r')
    (start : Keeps r) : ∃ r', Keeps r' ∧ (r.run (lines.drop r.seen)).1 = r'.program := by
  generalize hrest : lines.drop r.seen = rest
  induction rest generalizing r with
  | nil => exact ⟨r, start, rfl⟩
  | cons s rest ih =>
    have hline : lines[r.seen]? = some s := by
      rw [← List.head?_drop, hrest]
      rfl
    unfold run
    cases hs : r.step s with
    | error fault => exact ⟨r, start, rfl⟩
    | ok r' =>
      have advances := advances_of_step hs
      refine ih (step r r' s hline start advances) ?_
      rw [advances.seen_eq, ← List.drop_drop, hrest]
      rfl

end Reader

end PointsTo.Jimple
