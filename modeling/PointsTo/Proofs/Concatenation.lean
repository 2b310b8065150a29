import PointsTo.Proofs.Origins
import PointsTo.Proofs.Passage

/-!
Texts that are read one after the other, and all at once. A text that is accepted leaves the reader
outside of all classes, where it began, so that what stands behind it is read as if it stood alone,
with later line numbers. What has been read before matters only for the places of classes in the
program, not for what is accepted.
-/
namespace PointsTo

namespace Jimple

open PointsTo.Text

/-! ### Lines of two texts -/

theorem extendFirst_append {c : Char} {lines : List (List Char)} (h : lines ≠ [])
    (more : List (List Char)) : extendFirst c (lines ++ more) = extendFirst c lines ++ more := by
  cases lines with
  | nil => exact absurd rfl h
  | cons line lines => rfl

theorem splitLines_ne_nil {s : List Char} (h : s ≠ []) : splitLines s ≠ [] := by
  induction s with
  | nil => exact absurd rfl h
  | cons c s ih =>
    by_cases hjoin : c = '\r' ∧ s.head? = some '\n'
    · obtain ⟨rfl, hhead⟩ := hjoin
      rw [splitLines_return hhead]
      apply ih
      rintro rfl
      cases hhead
    · rw [splitLines_cons hjoin]
      split
      · exact List.cons_ne_nil _ _
      · cases splitLines s <;> exact List.cons_ne_nil _ _

/-- Two texts with a line feed between them have the lines of the first, whose last line it ends,
and those of the second. -/
theorem splitLines_append_feed (s t : List Char) :
    splitLines (s ++ '\n' :: t) = splitLines (s ++ ['\n']) ++ splitLines t := by
  induction s with
  | nil => exact splitLines_feed t
  | cons c s ih =>
    have hhead : (s ++ '\n' :: t).head? = (s ++ ['\n']).head? := by cases s <;> rfl
    rw [List.cons_append, List.cons_append]
    by_cases hjoin : c = '\r' ∧ (s ++ '\n' :: t).head? = some '\n'
    · obtain ⟨rfl, hfeed⟩ := hjoin
      rw [splitLines_return hfeed, splitLines_return (hhead ▸ hfeed), ih]
    · have hne : splitLines (s ++ ['\n']) ≠ [] := splitLines_ne_nil (by simp)
      rw [splitLines_cons hjoin, splitLines_cons (hhead ▸ hjoin), ih]
      split
      · rfl
      · exact extendFirst_append hne _

/-- A line feed at the end of a text ends its last line, or makes a further one that is empty. -/
theorem splitLines_feed_end (s : List Char) :
    splitLines (s ++ ['\n']) = splitLines s ∨ splitLines (s ++ ['\n']) = splitLines s ++ [[]] := by
  induction s with
  | nil => exact .inr rfl
  | cons c s ih =>
    rw [List.cons_append]
    cases s with
    | nil =>
      by_cases hreturn : c = '\r'
      · rw [hreturn]
        exact .inl rfl
      · rw [splitLines_cons fun h => hreturn h.1, splitLines_cons fun h => hreturn h.1]
        split
        · exact .inr rfl
        · exact .inl rfl
    | cons d s =>
      by_cases hjoin : c = '\r' ∧ d = '\n'
      · obtain ⟨rfl, rfl⟩ := hjoin
        rw [splitLines_return rfl, splitLines_return rfl]
        exact ih
      · have hne : splitLines (d :: s) ≠ [] := splitLines_ne_nil (List.cons_ne_nil _ _)
        have hfirst : ∀ more, ¬(c = '\r' ∧ (d :: more).head? = some '\n') := fun _ h =>
          hjoin ⟨h.1, Option.some.inj h.2⟩
        rw [splitLines_cons (s := d :: s ++ ['\n']) (hfirst _), splitLines_cons (hfirst s)]
        rcases ih with ih | ih
        · rw [ih]
          exact .inl rfl
        · rw [ih]
          split
          · exact .inr rfl
          · exact .inr (extendFirst_append hne _)

theorem cut?_eq_none_of_not_infix {mark s : List Char} (h : ¬ mark <:+: s) :
    cut? mark s = none := by
  rw [Option.eq_none_iff_forall_ne_some]
  intro halves hcut
  exact h ⟨halves.1, halves.2, (eq_append_of_cut? hcut).symm⟩

/-- No comment begins at the line feed between two texts. -/
theorem cut?_append_feed {s t : List Char} (hs : cut? ['/', '*'] s = none)
    (ht : cut? ['/', '*'] t = none) : cut? ['/', '*'] (s ++ '\n' :: t) = none := by
  induction s with
  | nil =>
    rw [List.nil_append, cut?, ht]
    rfl
  | cons c s ih =>
    have hafter : after? ['/', '*'] (c :: (s ++ '\n' :: t)) = none := by
      rw [cut?] at hs
      cases s with
      | nil => by_cases hc : '/' = c <;> simp [after?, hc]
      | cons d s =>
        have hnone : after? ['/', '*'] (c :: d :: s) = none := by
          cases hfound : after? ['/', '*'] (c :: d :: s) with
          | none => rfl
          | some behind =>
            rw [hfound] at hs
            cases hs
        simp only [after?, List.cons_append] at hnone ⊢
        split
        · next hc =>
          rw [if_pos hc] at hnone
          split
          · next hd =>
            rw [if_pos hd] at hnone
            cases hnone
          · rfl
        · rfl
    rw [List.cons_append, cut?, hafter, ih (cut?_eq_none_of_cons hs)]
    rfl

theorem codeLines_append_feed {s t : List Char} (hs : cut? ['/', '*'] s = none)
    (ht : cut? ['/', '*'] t = none) :
    codeLines (s ++ '\n' :: t) = codeLines (s ++ ['\n']) ++ codeLines t := by
  have hs' : cut? ['/', '*'] (s ++ ['\n']) = none := cut?_append_feed hs rfl
  rw [codeLines, codeLines, codeLines, removeBlocks_of_uncommented (cut?_append_feed hs ht),
    removeBlocks_of_uncommented hs', removeBlocks_of_uncommented ht, splitLines_append_feed,
    List.map_append]

theorem codeLines_feed_end {s : List Char} (hs : cut? ['/', '*'] s = none) :
    codeLines (s ++ ['\n']) = codeLines s ∨ codeLines (s ++ ['\n']) = codeLines s ++ [[]] := by
  have hs' : cut? ['/', '*'] (s ++ ['\n']) = none := cut?_append_feed hs rfl
  rw [codeLines, codeLines, removeBlocks_of_uncommented hs, removeBlocks_of_uncommented hs']
  rcases splitLines_feed_end s with h | h
  · rw [h]
    exact .inl rfl
  · rw [h, List.map_append]
    exact .inr rfl

/-! ### Later lines -/

end Jimple

/-- The statement, some lines further down. -/
def Statement.later (k : Nat) (s : Statement) : Statement := { s with line := s.line + k }

/-- The program, up to the lines on which its statements stand. -/
def Program.unnumbered (p : Program) : Program := p.mapStatements fun s => { s with line := 0 }

namespace Jimple

open PointsTo.Text

def Fault.later (k : Nat) : Fault → Fault
  | atLine line fault => atLine (line + k) fault
  | unclosedHeader => unclosedHeader

def Phase.later (k : Nat) : Phase → Phase
  | outside => outside
  | beforeClass c => beforeClass (c.mapStatements (Statement.later k))
  | inClass c => inClass (c.mapStatements (Statement.later k))
  | beforeBody c d =>
    beforeBody (c.mapStatements (Statement.later k)) (d.mapStatements (Statement.later k))
  | inBody c d => inBody (c.mapStatements (Statement.later k)) (d.mapStatements (Statement.later k))
  | inSwitch c d opening =>
    inSwitch (c.mapStatements (Statement.later k)) (d.mapStatements (Statement.later k)) opening

namespace Draft

theorem keepsReturns_later (k : Nat) : KeepsReturns (Statement.later k) := fun _ _ => Iff.rfl

theorem readLine_later (d : Draft) (s : List Char) (line k : Nat) :
    (d.mapStatements (Statement.later k)).readLine s (line + k) =
      (d.readLine s line).map (mapStatements (Statement.later k)) := by
  have hmethod : (d.mapStatements (Statement.later k)).method = d.method := rfl
  rw [readLine, readLine, hmethod]
  split
  · rfl
  split
  · rfl
  dsimp only
  split
  · rfl
  cases localDeclaration? (trim s.dropLast) with
  | some declaration =>
    refine congrArg Except.ok ?_
    rw [mapStatements_declare]
  | none =>
    cases readStatement d.method.signature (trim s.dropLast) with
    | ok reading =>
      refine congrArg Except.ok ?_
      rw [mapStatements_record d rfl rfl rfl]
    | error fault => rfl

end Draft

namespace Reader

/-- A reader that has read some lines more than another, into a program that is related. Outside of
all classes the line at which a fault would be reported does not matter. -/
structure Trails (k : Nat) (R : Program → Program → Prop) (r r' : Reader) : Prop where
  program : R r.program r'.program
  phase : r'.phase = r.phase.later k
  seen : r'.seen = r.seen + k
  line : r.phase ≠ .outside → r'.line = r.line + k

/-- What comes of a line for a reader and for one that has read some lines more. -/
inductive OutcomeTrails (k : Nat) (R : Program → Program → Prop) :
    Except Fault Reader → Except Fault Reader → Prop
  | ok {q q' : Reader} (trails : Trails k R q q') : OutcomeTrails k R (.ok q) (.ok q')
  | error (fault : Fault) : OutcomeTrails k R (.error fault) (.error (fault.later k))

variable {k : Nat} {R : Program → Program → Prop} {r r' : Reader}

theorem OutcomeTrails.mapError {line : Nat} {x y : Except LineFault Reader}
    (h : (∃ q q', x = .ok q ∧ y = .ok q' ∧ Trails k R q q') ∨
      ∃ fault, x = .error fault ∧ y = .error fault) :
    OutcomeTrails k R (x.mapError (Fault.atLine line)) (y.mapError (Fault.atLine (line + k))) := by
  rcases h with ⟨q, q', rfl, rfl, trails⟩ | ⟨fault, rfl, rfl⟩
  · exact .ok trails
  · exact .error (.atLine line fault)

variable (declares : ∀ p p' c, R p p' →
  R (p.declare c) (p'.declare (c.mapStatements (Statement.later k))))

include declares

theorem Trails.keep (h : Trails k R r r') (hline : r'.line = r.line + k) {c c' : Class}
    {phase phase' : Class → Phase} (hc : c' = c.mapStatements (Statement.later k))
    (hphase : phase' (c.mapStatements (Statement.later k)) = (phase c).later k) :
    Trails k R (r.keep c phase) (r'.keep c' phase') := by
  subst hc
  exact ⟨declares _ _ c h.program, hphase, h.seen, fun _ => hline⟩

theorem Trails.methodHeader (h : Trails k R r r') (hline : r'.line = r.line + k) (c : Class)
    (s : List Char) :
    OutcomeTrails k R (r.methodHeader c s)
      (r'.methodHeader (c.mapStatements (Statement.later k)) s) := by
  have hname : (c.mapStatements (Statement.later k)).name = c.name := rfl
  rw [Reader.methodHeader, Reader.methodHeader, hname]
  cases hread : readMethodHeader c.name s with
  | none => exact .error .unclosedHeader
  | some header =>
    cases header with
    | error fault =>
      rw [hline]
      exact .error (.atLine r.line fault)
    | ok m =>
      have hm := Method.mapStatements_of_bodyless (Statement.later k)
        (bodyless_readMethodHeader hread)
      have hc := c.mapStatements_putMethod (Statement.later k) m
      rw [hm] at hc
      refine .ok (h.keep declares hline hc.symm ?_)
      split
      · rfl
      · split <;> rfl

theorem Trails.member (h : Trails k R r r') (hline : r'.line = r.line + k) (c : Class)
    (s : List Char) :
    OutcomeTrails k R (r.member c s) (r'.member (c.mapStatements (Statement.later k)) s) := by
  have hname : (c.mapStatements (Statement.later k)).name = c.name := rfl
  rw [Reader.member, Reader.member, hname]
  split
  · exact .ok ⟨h.program, rfl, h.seen, fun _ => hline⟩
  split
  · exact h.methodHeader declares hline c s
  · cases readField c.name s with
    | error fault =>
      rw [hline]
      exact .error (.atLine r.line fault)
    | ok f => exact .ok (h.keep declares hline rfl rfl)

theorem Trails.bodyLine (h : Trails k R r r') (hline : r'.line = r.line + k) (c : Class) (d : Draft)
    (s : List Char) :
    OutcomeTrails k R ((r.bodyLine c d s).mapError (Fault.atLine r.line))
      ((r'.bodyLine (c.mapStatements (Statement.later k)) (d.mapStatements (Statement.later k))
        s).mapError (Fault.atLine (r.line + k))) := by
  apply OutcomeTrails.mapError
  rw [Reader.bodyLine, Reader.bodyLine, hline, d.readLine_later]
  split
  · exact .inl ⟨_, _, rfl, rfl, h.program, rfl, h.seen, fun _ => rfl⟩
  split
  · have hbody : Method.mapStatements (Statement.later k) { d.method with body := some d.finish } =
        { (d.mapStatements (Statement.later k)).method with
          body := some (d.mapStatements (Statement.later k)).finish } := by
      rw [d.finish_mapStatements (Draft.keepsReturns_later k)]
      rfl
    have hc := c.mapStatements_putMethod (Statement.later k)
      { d.method with body := some d.finish }
    rw [hbody] at hc
    exact .inl ⟨_, _, rfl, rfl, h.keep declares hline hc.symm rfl⟩
  · cases d.readLine s r.line with
    | error fault => exact .inr ⟨fault, rfl, rfl⟩
    | ok d' => exact .inl ⟨_, _, rfl, rfl, h.program, rfl, h.seen, fun _ => rfl⟩

theorem Trails.line? (h : Trails k R r r') (hline : r'.line = r.line + k) (s : List Char) :
    OutcomeTrails k R (r.line? s) (r'.line? s) := by
  rw [Reader.line?, Reader.line?, h.phase, hline]
  have brace : ∀ (opening : String) (phase phase' : Phase), phase' = phase.later k →
      OutcomeTrails k R ((r.brace opening s phase).mapError (Fault.atLine r.line))
        ((r'.brace opening s phase').mapError (Fault.atLine (r.line + k))) := by
    intro opening phase phase' hphase
    apply OutcomeTrails.mapError
    rw [Reader.brace, Reader.brace]
    split
    · exact .inl ⟨_, _, rfl, rfl, h.program, hphase, h.seen, fun _ => hline⟩
    · exact .inr ⟨_, rfl, rfl⟩
  cases r.phase with
  | outside =>
    apply OutcomeTrails.mapError
    simp only [Reader.classHeader]
    cases hread : readClassHeader (if endsWith '\x7b' s then trim s.dropLast else s) with
    | error fault => exact .inr ⟨fault, rfl, rfl⟩
    | ok c =>
      have hc := c.mapStatements_of_memberless (Statement.later k)
        (members_of_readClassHeader hread).2
      refine .inl ⟨_, _, rfl, rfl, h.keep declares hline hc.symm ?_⟩
      split <;> rfl
  | beforeClass c => exact brace _ _ _ rfl
  | inClass c => exact h.member declares hline c s
  | beforeBody c d => exact brace _ _ _ rfl
  | inBody c d => exact h.bodyLine declares hline c d s
  | inSwitch c d opening => exact .ok h

/-- **A line does the same for a reader that has read some lines more.** -/
theorem Trails.step (h : Trails k R r r') (s : List Char) :
    OutcomeTrails k R (r.step s) (r'.step s) := by
  by_cases hswitch : ∃ c d opening, r.phase = .inSwitch c d opening
  · obtain ⟨c, d, opening, hphase⟩ := hswitch
    have hphase' := h.phase
    rw [hphase] at hphase'
    have hline : r'.line = r.line + k := h.line (by rw [hphase]; exact Phase.noConfusion)
    have hseen : r'.seen + 1 = r.seen + 1 + k := by
      rw [h.seen]
      omega
    simp only [Reader.step, hphase, hphase', Phase.later]
    split
    · refine .ok ⟨h.program, ?_, hseen, fun _ => hline⟩
      rw [Phase.later, Draft.mapStatements_add d rfl, hline]
    · exact .ok ⟨h.program, rfl, hseen, fun _ => hline⟩
  · have hnot : ∀ c d opening, r.phase ≠ .inSwitch c d opening := fun c d opening hphase =>
      hswitch ⟨c, d, opening, hphase⟩
    have hnot' : ∀ c d opening, r'.phase ≠ .inSwitch c d opening := by
      intro c d opening hphase
      rw [h.phase] at hphase
      cases hr : r.phase with
      | inSwitch c d opening => exact hnot c d opening hr
      | _ => rw [hr] at hphase; cases hphase
    have hseen : r'.seen + 1 = r.seen + 1 + k := by
      rw [h.seen]
      omega
    rw [step_of_not_inSwitch s hnot, step_of_not_inSwitch s hnot']
    have next : Trails k R { r with seen := r.seen + 1, line := r.seen + 1 }
        { r' with seen := r'.seen + 1, line := r'.seen + 1 } :=
      ⟨h.program, h.phase, hseen, fun _ => hseen⟩
    dsimp only
    split
    · exact .ok next
    · exact next.line? declares hseen s

omit declares in
theorem Trails.endFault? (h : Trails k R r r') :
    r'.endFault? = r.endFault?.map (Fault.later k) := by
  rw [Reader.endFault?, Reader.endFault?, h.phase]
  cases hphase : r.phase with
  | outside => rfl
  | beforeClass | inClass | beforeBody | inBody | inSwitch =>
    have hline : r'.line = r.line + k := h.line (by rw [hphase]; exact Phase.noConfusion)
    dsimp only [Phase.later]
    rw [hline]
    rfl

/-- **So do all lines to the end of a text**, and the fault is that of some lines further down. -/
theorem Trails.run (h : Trails k R r r') (lines : List (List Char)) :
    R (r.run lines).1 (r'.run lines).1 ∧
      (r'.run lines).2 = (r.run lines).2.map (Fault.later k) := by
  induction lines generalizing r r' with
  | nil => exact ⟨h.program, h.endFault?⟩
  | cons s rest ih =>
    have hstep := h.step declares s
    rw [Reader.run, Reader.run]
    generalize r.step s = x at hstep
    generalize r'.step s = x' at hstep
    cases hstep with
    | ok trails => exact ih trails
    | error fault => exact ⟨h.program, rfl⟩

omit declares in
/-- Behind lines that make a text, the reader is outside of all classes. -/
theorem run_append {lines : List (List Char)} (accepted : (r.run lines).2 = none)
    (more : List (List Char)) : ∃ q : Reader, q.program = (r.run lines).1 ∧ q.phase = .outside ∧
      q.seen = r.seen + lines.length ∧ r.run (lines ++ more) = q.run more := by
  induction lines generalizing r with
  | nil =>
    refine ⟨r, rfl, ?_, rfl, rfl⟩
    have hend : r.endFault? = none := accepted
    rw [Reader.endFault?] at hend
    cases hphase : r.phase with
    | outside => rfl
    | _ => rw [hphase] at hend; cases hend
  | cons s rest ih =>
    rw [Reader.run] at accepted
    cases hs : r.step s with
    | error fault =>
      rw [hs] at accepted
      cases accepted
    | ok q =>
      rw [hs] at accepted
      obtain ⟨q', hprogram, hphase, hseen, hrun⟩ := ih accepted
      have hrest : r.run (s :: rest) = q.run rest := by rw [Reader.run, hs]
      refine ⟨q', ?_, hphase, ?_, ?_⟩
      · rw [hrest]
        exact hprogram
      · have hcount : q.seen = r.seen + 1 := (advances_of_step hs).seen_eq
        rw [hseen, hcount, List.length_cons]
        omega
      · rw [List.cons_append, Reader.run, hs]
        exact hrun

end Reader

/-! ### Texts read in turn -/

/-- Whether a text is accepted does not depend on what was read before, nor does its fault. -/
theorem read_fault_eq (p q : Program) (text : String) : (read p text).2 = (read q text).2 := by
  have start : Reader.Trails 0 (fun _ _ => True) { program := p } { program := q } :=
    ⟨trivial, rfl, rfl, fun h => absurd rfl h⟩
  have hrun := (start.run (fun _ _ _ _ => trivial) (codeLines text.toList)).2
  have hlater : ∀ fault : Option Fault, fault.map (Fault.later 0) = fault := by
    intro fault
    cases fault with
    | none => rfl
    | some fault => cases fault <;> rfl
  rw [hlater] at hrun
  exact hrun.symm

/-- A line feed at the end of a text that is accepted makes no difference. -/
theorem run_feed_end {r : Reader} {s : List Char} (hs : cut? ['/', '*'] s = none)
    (accepted : (r.run (codeLines s)).2 = none) :
    r.run (codeLines (s ++ ['\n'])) = r.run (codeLines s) := by
  rcases codeLines_feed_end hs with h | h
  · rw [h]
  · obtain ⟨q, hprogram, hphase, -, hrun⟩ := Reader.run_append accepted [[]]
    have hstep : q.step [] = .ok q.next := by
      rw [Reader.step_of_not_inSwitch [] (by rw [hphase]; exact fun _ _ _ => Phase.noConfusion)]
      rfl
    have hend : q.next.endFault? = none := by
      rw [Reader.endFault?, Reader.next, hphase]
    rw [h, hrun, Reader.run, hstep]
    show (q.next.program, q.next.endFault?) = r.run (codeLines s)
    rw [hend, ← accepted]
    exact Prod.ext hprogram rfl

/-- **Texts are read in turn as they are read at once**: the same programs, up to the numbers of
lines, and the fault that is found, with the lines of the first text in front of it. -/
theorem read_append {first second : String} (plain : ¬ ['/', '*'] <:+: first.toList)
    (plain' : ¬ ['/', '*'] <:+: second.toList) (accepted : (read ∅ first).2 = none) (p : Program) :
    (read p first).2 = none ∧
      (read p (first ++ "\n" ++ second)).1.unnumbered =
        (read (read p first).1 second).1.unnumbered ∧
      (read p (first ++ "\n" ++ second)).2 = (read (read p first).1 second).2.map
        (Fault.later (splitLines (first ++ "\n").toList).length) := by
  have hs := cut?_eq_none_of_not_infix plain
  have ht := cut?_eq_none_of_not_infix plain'
  have haccepted : (read p first).2 = none := (read_fault_eq p ∅ first).trans accepted
  have hfirst := run_feed_end (r := { program := p }) hs haccepted
  have hlines : codeLines (first ++ "\n" ++ second).toList =
      codeLines (first.toList ++ ['\n']) ++ codeLines second.toList := by
    rw [← codeLines_append_feed hs ht, String.toList_append, String.toList_append,
      List.append_assoc]
    rfl
  have hopening :
      ((⟨p, .outside, 0, 0⟩ : Reader).run (codeLines (first.toList ++ ['\n']))).2 = none :=
    (congrArg Prod.snd hfirst).trans haccepted
  obtain ⟨q, hprogram, hphase, hseen, hrun⟩ := Reader.run_append hopening (codeLines second.toList)
  have hcount : q.seen = (splitLines (first ++ "\n").toList).length := by
    rw [hseen, String.toList_append, codeLines, List.length_map,
      removeBlocks_of_uncommented (cut?_append_feed hs rfl)]
    exact Nat.zero_add _
  have trails : Reader.Trails q.seen (fun a b => b.unnumbered = a.unnumbered)
      { program := (read p first).1 } q := by
    refine ⟨?_, hphase, (Nat.zero_add _).symm, fun h => absurd rfl h⟩
    rw [hprogram, hfirst]
    rfl
  have declares : ∀ (a b : Program) (c : Class), b.unnumbered = a.unnumbered →
      (b.declare (c.mapStatements (Statement.later q.seen))).unnumbered =
        (a.declare c).unnumbered := by
    intro a b c hab
    have hc : (c.mapStatements (Statement.later q.seen)).mapStatements
        (fun s => { s with line := 0 }) = c.mapStatements fun s => { s with line := 0 } :=
      c.mapStatements_comp fun s => rfl
    rw [Program.unnumbered, Program.unnumbered, Program.mapStatements_declare,
      Program.mapStatements_declare, hc]
    exact congrArg (Program.declare · _) hab
  obtain ⟨hsame, hfault⟩ := trails.run declares (codeLines second.toList)
  have hread : read p (first ++ "\n" ++ second) = q.run (codeLines second.toList) := by
    rw [read, hlines, hrun]
  rw [hread, ← hcount]
  exact ⟨haccepted, hsame, hfault⟩

/-- A class with a method. -/
def earlierText : String :=
  "class A\n\x7b\nvoid m()\n\x7b\nA a;\na = new A;\n\x7d\n\x7d"

/-- A class of the same name with another body of the method, and a member without its semicolon. -/
def redefiningText : String :=
  "class B\n\x7b\n\x7d\nclass A\n\x7b\nvoid m()\n\x7b\nreturn;\n\x7d\nA g\n\x7d\n"

theorem read_append_redefined :
    ¬ ['/', '*'] <:+: earlierText.toList ∧ ¬ ['/', '*'] <:+: redefiningText.toList ∧
      (read ∅ earlierText).2 = none ∧
      (read (read ∅ earlierText).1 redefiningText).2 = some (.atLine 10 (.badMember "A g")) ∧
      (read ∅ (earlierText ++ "\n" ++ redefiningText)).2 =
        some (.atLine 18 (.badMember "A g")) ∧
      (read ∅ (earlierText ++ "\n" ++ redefiningText)).1.unnumbered =
        (read (read ∅ earlierText).1 redefiningText).1.unnumbered := by
  have plain : ¬ ['/', '*'] <:+: earlierText.toList := by decide +kernel
  have plain' : ¬ ['/', '*'] <:+: redefiningText.toList := by decide +kernel
  have accepted : (read ∅ earlierText).2 = none := by decide +kernel
  have refused : (read (read ∅ earlierText).1 redefiningText).2 =
      some (.atLine 10 (.badMember "A g")) := by decide +kernel
  have hlines : (splitLines (earlierText ++ "\n").toList).length = 8 := by decide +kernel
  obtain ⟨-, hprogram, hfault⟩ := read_append plain plain' accepted ∅
  rw [refused, hlines] at hfault
  exact ⟨plain, plain', accepted, refused, hfault, hprogram⟩

end Jimple

end PointsTo
