import PointsTo.Proofs.Cutting
import PointsTo.Proofs.FaultLines
import PointsTo.Proofs.Rewriting

/-!
Programs without the texts of statements that move no pointer. Those texts are kept for reports
only: whatever a line does to what has been read, it does to the muted reader up to such texts. So
readers that agree up to them agree so after any further lines.
-/
namespace PointsTo

/-! ### Muted programs -/

/-- The instruction, without its text if it moves no pointer. -/
def Instruction.mute : Instruction → Instruction
  | other _ => other ""
  | i => i

def Statement.mute (s : Statement) : Statement := { s with instruction := s.instruction.mute }

def Body.mute (b : Body) : Body := { b with statements := b.statements.map Statement.mute }

def Method.mute (m : Method) : Method := { m with body := m.body.map Body.mute }

theorem Method.subsignature_mute (m : Method) : m.mute.subsignature = m.subsignature := rfl

def Class.mute (c : Class) : Class :=
  { c with methods := c.methods.mapItems Method.mute Method.subsignature_mute }

theorem Class.name_mute (c : Class) : c.mute.name = c.name := rfl

def Program.mute (p : Program) : Program := ⟨p.classes.mapItems Class.mute Class.name_mute⟩

theorem Instruction.mute_mute (i : Instruction) : i.mute.mute = i.mute := by
  cases i <;> rfl

theorem Statement.mute_mute (s : Statement) : s.mute.mute = s.mute := by
  rw [mute, mute]
  exact congrArg (Statement.mk · s.line) s.instruction.mute_mute

theorem Body.mute_mute (b : Body) : b.mute.mute = b.mute :=
  b.mapStatements_comp Statement.mute_mute

theorem Method.mute_mute (m : Method) : m.mute.mute = m.mute :=
  m.mapStatements_comp Statement.mute_mute

theorem Class.mute_mute (c : Class) : c.mute.mute = c.mute :=
  c.mapStatements_comp Statement.mute_mute

/-- Putting muted methods that agree into a muted class makes no difference. -/
theorem Class.mute_putMethod (c : Class) {m m' : Method} (h : m'.mute = m.mute) :
    ({ c.mute with methods := c.mute.methods.put m' } : Class).mute =
      ({ c with methods := c.methods.put m } : Class).mute := by
  have hput : ((c.methods.mapItems Method.mute Method.subsignature_mute).put m').mapItems
        Method.mute Method.subsignature_mute =
      (c.methods.put m).mapItems Method.mute Method.subsignature_mute := by
    rw [Roster.mapItems_put, Roster.mapItems_put, h, Roster.mapItems_mapItems _ Method.mute_mute]
  exact congrArg (fun methods => { c with methods }) hput

theorem Program.mute_mute (p : Program) : p.mute.mute = p.mute :=
  congrArg Program.mk (Roster.mapItems_mapItems _ Class.mute_mute _)

theorem Program.mute_declare (p : Program) (c : Class) :
    (p.declare c).mute = p.mute.declare c.mute :=
  p.mapStatements_declare Statement.mute c

namespace Jimple

open PointsTo.Text

/-! ### Muted drafts -/

/-- A reading, without the text of a statement that moves no pointer. -/
def Reading.mute (r : Reading) : Reading := { r with instruction := r.instruction.mute }

namespace Draft

def mute (d : Draft) : Draft := { d with statements := d.statements.map Statement.mute }

variable (d : Draft)

theorem mute_mute : d.mute.mute = d.mute := by
  rw [mute, mute]
  congr 1
  rw [List.map_map]
  exact List.map_congr_left fun s _ => s.mute_mute

theorem keepsReturns_mute : KeepsReturns Statement.mute := by
  intro s v
  rw [Statement.mute]
  cases s.instruction <;> simp [Instruction.mute]

theorem mute_declare (names : List String) (type : String) :
    (names.foldl (fun d name => d.declare type name) d).mute =
      names.foldl (fun d name => d.declare type name) d.mute :=
  d.mapStatements_declare Statement.mute names type

theorem mute_add (instruction : Instruction) (line : Nat) :
    (d.add instruction line).mute = d.mute.add instruction.mute line :=
  d.mapStatements_add rfl

theorem mute_record (r : Reading) (line : Nat) :
    (d.record r line).mute = d.mute.record r.mute line :=
  d.mapStatements_record rfl rfl rfl

theorem finish_mute : d.mute.finish = d.finish.mute :=
  d.finish_mapStatements keepsReturns_mute

end Draft

/-! ### Muted readers -/

/-- The line that a fault names. -/
def Fault.line? : Fault → Option Nat
  | atLine line _ => some line
  | unclosedHeader => none

def Phase.mute : Phase → Phase
  | outside => outside
  | beforeClass c => beforeClass c.mute
  | inClass c => inClass c.mute
  | beforeBody c d => beforeBody c.mute d.mute
  | inBody c d => inBody c.mute d.mute
  | inSwitch c d _ => inSwitch c.mute d.mute ""

namespace Reader

def mute (r : Reader) : Reader := { r with program := r.program.mute, phase := r.phase.mute }

theorem mute_mute (r : Reader) : r.mute.mute = r.mute := by
  have hphase : r.phase.mute.mute = r.phase.mute := by
    cases r.phase <;> simp only [Phase.mute, Class.mute_mute, Draft.mute_mute]
  rw [mute, mute]
  simp only [Program.mute_mute, hphase]

/-- What comes of a line, up to the texts of statements that move no pointer and the wording of
faults. -/
def outcome : Except Fault Reader → Except (Option Nat) Reader
  | .ok r => .ok r.mute
  | .error fault => .error fault.line?

variable (r : Reader) (s : List Char)

theorem keep_mute {c c' : Class} {phase phase' : Class → Phase} (hc : c'.mute = c.mute)
    (hphase : (phase' c').mute = (phase c).mute) :
    (r.mute.keep c' phase').mute = (r.keep c phase).mute := by
  have hprogram : (r.program.mute.declare c').mute = (r.program.declare c).mute := by
    rw [Program.mute_declare, Program.mute_declare, Program.mute_mute, hc]
  rw [mute, mute]
  simp only [keep, mute, hprogram, hphase]

theorem classHeader_mute :
    outcome ((r.mute.classHeader s).mapError (Fault.atLine r.line)) =
      outcome ((r.classHeader s).mapError (Fault.atLine r.line)) := by
  simp only [classHeader]
  cases readClassHeader (if endsWith '\x7b' s then trim s.dropLast else s) with
  | error fault => rfl
  | ok c => exact congrArg Except.ok (r.keep_mute rfl (by split <;> rfl))

theorem methodHeader_mute (c : Class) :
    outcome (r.mute.methodHeader c.mute s) = outcome (r.methodHeader c s) := by
  have hname : c.mute.name = c.name := rfl
  rw [methodHeader, methodHeader, hname]
  cases readMethodHeader c.name s with
  | none => rfl
  | some header =>
    cases header with
    | error fault => rfl
    | ok m =>
      have hc : ({ c.mute with methods := c.mute.methods.put m } : Class).mute =
          ({ c with methods := c.methods.put m } : Class).mute := c.mute_putMethod rfl
      refine congrArg Except.ok (r.keep_mute hc ?_)
      split
      · exact congrArg Phase.inClass hc
      · split
        · exact congrArg (Phase.inBody · _) hc
        · exact congrArg (Phase.beforeBody · _) hc

theorem member_mute (c : Class) : outcome (r.mute.member c.mute s) = outcome (r.member c s) := by
  have hname : c.mute.name = c.name := rfl
  rw [member, member, hname]
  split
  · rw [outcome, outcome, mute, mute, mute]
    exact congrArg (fun p => Except.ok (Reader.mk p _ _ _)) r.program.mute_mute
  split
  · exact r.methodHeader_mute s c
  · cases readField c.name s with
    | error fault => rfl
    | ok f =>
      have hc : ({ c.mute with fields := c.mute.fields.put f } : Class).mute =
          ({ c with fields := c.fields.put f } : Class).mute := by
        have h := congrArg (fun c : Class => { c with fields := c.fields.put f }) c.mute_mute
        exact h
      exact congrArg Except.ok (r.keep_mute hc (congrArg Phase.inClass hc))

theorem brace_mute (opening : String) {phase phase' : Phase} (h : phase'.mute = phase.mute) :
    outcome ((r.mute.brace opening s phase').mapError (Fault.atLine r.line)) =
      outcome ((r.brace opening s phase).mapError (Fault.atLine r.line)) := by
  rw [brace, brace]
  split
  · refine congrArg Except.ok ?_
    rw [mute, mute, mute]
    simp only [h, Program.mute_mute]
  · rfl

end Reader

theorem opensSwitch_append_cons {c : Char} (hc : c.isAlpha = false) (w rest : List Char) :
    opensSwitch (w ++ c :: rest) = opensSwitch w := by
  have hnot : ∀ mark : List Char, mark.all Char.isAlpha = true → c ∉ mark := by
    intro mark hmark hmem
    rw [List.all_eq_true.1 hmark c hmem] at hc
    cases hc
  rw [opensSwitch, opensSwitch, startsWith_append_cons (hnot _ (by decide)),
    startsWith_append_cons (hnot _ (by decide))]

theorem concat_ne_brace {c : Char} (hc : c ≠ '\x7d') (text : List Char) :
    text ++ [c] ≠ ['\x7d'] := by
  intro h
  have hlast : (text ++ [c]).getLast? = some c := List.getLast?_concat
  rw [h] at hlast
  exact hc (Option.some.inj hlast).symm

/-- A line with a semicolon is a declaration, a statement, or the range of a handler. -/
theorem Draft.readLine_semicolon (d : Draft) (text : List Char) (line : Nat) :
    d.readLine (text ++ [';']) line =
      if startsWith "catch ".toList (trim text) then .ok d
      else
        match localDeclaration? (trim text) with
        | some (type, names) => .ok (names.foldl (fun d name => d.declare type name) d)
        | none =>
          match readStatement d.method.signature (trim text) with
          | .ok reading => .ok (d.record reading line)
          | .error fault => .error (.badStatement fault) := by
  have hlabel : ¬isLabel (text ++ [';']) = true := by simp [isLabel, endsWith]
  have hends : ¬(!endsWith ';' (text ++ [';'])) = true := by simp [endsWith]
  rewrite [readLine, if_neg hlabel, if_neg hends, List.dropLast_concat]
  rfl

theorem Draft.readLine_mute (d : Draft) (s : List Char) (line : Nat) :
    (d.mute.readLine s line).map Draft.mute = (d.readLine s line).map Draft.mute := by
  have hmethod : d.mute.method = d.method := rfl
  rw [readLine, readLine, hmethod]
  split
  · exact congrArg Except.ok d.mute_mute
  split
  · rfl
  dsimp only
  split
  · exact congrArg Except.ok d.mute_mute
  cases localDeclaration? (trim s.dropLast) with
  | some declaration =>
    refine congrArg Except.ok ?_
    rw [mute_declare, mute_declare, mute_mute]
  | none =>
    cases readStatement d.method.signature (trim s.dropLast) with
    | ok reading =>
      refine congrArg Except.ok ?_
      rw [mute_record, mute_record, mute_mute]
    | error fault => rfl

namespace Reader

variable (r : Reader) (s : List Char)

theorem bodyLine_mute (c : Class) (d : Draft) :
    outcome ((r.mute.bodyLine c.mute d.mute s).mapError (Fault.atLine r.line)) =
      outcome ((r.bodyLine c d s).mapError (Fault.atLine r.line)) := by
  rw [bodyLine, bodyLine]
  split
  · refine congrArg Except.ok ?_
    rw [mute, mute, mute]
    simp only [Phase.mute, Program.mute_mute, Class.mute_mute, Draft.mute_mute]
  split
  · have hbody : Method.mute { d.mute.method with body := some d.mute.finish } =
        Method.mute { d.method with body := some d.finish } := by
      simp only [Method.mute, Option.map_some, d.finish_mute, Body.mute_mute]
      rfl
    have hc := c.mute_putMethod hbody
    exact congrArg Except.ok (r.keep_mute hc (congrArg Phase.inClass hc))
  · have hline : r.mute.line = r.line := rfl
    have hread := d.readLine_mute s r.line
    rw [hline]
    cases hd : d.readLine s r.line with
    | error fault =>
      cases hd' : d.mute.readLine s r.line with
      | error fault' => rfl
      | ok d' =>
        rw [hd, hd'] at hread
        cases hread
    | ok d' =>
      cases hd' : d.mute.readLine s r.line with
      | error fault =>
        rw [hd, hd'] at hread
        cases hread
      | ok d'' =>
        rw [hd, hd'] at hread
        have hdraft : d''.mute = d'.mute := Except.ok.inj hread
        refine congrArg Except.ok ?_
        simp only [mute, Phase.mute, Program.mute_mute, Class.mute_mute, hdraft]

theorem line?_mute : outcome (r.mute.line? s) = outcome (r.line? s) := by
  have hline : r.mute.line = r.line := rfl
  rw [line?, line?, hline]
  cases hphase : r.phase with
  | outside =>
    have hmute : r.mute.phase = .outside := by rw [mute, hphase]; rfl
    rw [hmute]
    exact r.classHeader_mute s
  | beforeClass c =>
    have hmute : r.mute.phase = .beforeClass c.mute := by rw [mute, hphase]; rfl
    rw [hmute]
    exact r.brace_mute s _ (congrArg Phase.inClass c.mute_mute)
  | inClass c =>
    have hmute : r.mute.phase = .inClass c.mute := by rw [mute, hphase]; rfl
    rw [hmute]
    exact r.member_mute s c
  | beforeBody c d =>
    have hmute : r.mute.phase = .beforeBody c.mute d.mute := by rw [mute, hphase]; rfl
    rw [hmute]
    refine r.brace_mute s _ ?_
    simp only [Phase.mute, Class.mute_mute, Draft.mute_mute]
  | inBody c d =>
    have hmute : r.mute.phase = .inBody c.mute d.mute := by rw [mute, hphase]; rfl
    rw [hmute]
    exact r.bodyLine_mute s c d
  | inSwitch c d opening =>
    have hmute : r.mute.phase = .inSwitch c.mute d.mute "" := by rw [mute, hphase]; rfl
    rw [hmute]
    refine congrArg Except.ok ?_
    simp only [mute, hphase, Phase.mute, Program.mute_mute, Class.mute_mute, Draft.mute_mute]

/-- Outside of switches a line is counted, and read unless it is empty. -/
theorem step_of_not_inSwitch {r : Reader} (h : ∀ c d opening, r.phase ≠ .inSwitch c d opening) :
    r.step s =
      let r := { r with seen := r.seen + 1, line := r.seen + 1 }
      if s.isEmpty then .ok r else r.line? s := by
  rw [step]
  dsimp only
  split
  · next c d opening hphase => exact absurd hphase (h c d opening)
  · rfl

/-- **A line does to the muted reader what it does to the reader.** -/
theorem step_mute : outcome (r.mute.step s) = outcome (r.step s) := by
  by_cases hswitch : ∃ c d opening, r.phase = .inSwitch c d opening
  · obtain ⟨c, d, opening, hphase⟩ := hswitch
    have hmute : r.mute.phase = .inSwitch c.mute d.mute "" := by rw [mute, hphase]; rfl
    simp only [step, hphase, hmute]
    split
    · have hdraft :
          (d.mute.add (.other "") r.line).mute = (d.add (.other opening) r.line).mute := by
        rw [Draft.mute_add, Draft.mute_add, Draft.mute_mute]
        rfl
      refine congrArg Except.ok ?_
      simp only [mute, Phase.mute, Program.mute_mute, Class.mute_mute, hdraft]
    · refine congrArg Except.ok ?_
      simp only [mute, hphase, Phase.mute, Program.mute_mute, Class.mute_mute, Draft.mute_mute]
  · have hphase : ∀ c d opening, r.phase ≠ .inSwitch c d opening := fun c d opening h =>
      hswitch ⟨c, d, opening, h⟩
    have hmute : ∀ c d opening, r.mute.phase ≠ .inSwitch c d opening := by
      intro c d opening h
      rw [mute] at h
      cases hr : r.phase with
      | inSwitch c d opening => exact hphase c d opening hr
      | _ => rw [hr] at h; cases h
    rw [step_of_not_inSwitch s hphase, step_of_not_inSwitch s hmute]
    dsimp only
    split
    · exact congrArg Except.ok (mute_mute { r with seen := r.seen + 1, line := r.seen + 1 })
    · exact line?_mute { r with seen := r.seen + 1, line := r.seen + 1 } s

theorem step_congr {r r' : Reader} (h : r'.mute = r.mute) (s : List Char) :
    outcome (r'.step s) = outcome (r.step s) := by
  rw [← step_mute r, ← step_mute r', h]

/-- What comes of a text, up to the texts of statements that move no pointer and the wording of
faults. -/
def ending (x : Program × Option Fault) : Program × Option (Option Nat) :=
  (x.1.mute, x.2.map Fault.line?)

theorem endFault?_mute : r.mute.endFault? = r.endFault? := by
  cases hphase : r.phase <;> simp only [endFault?, mute, hphase, Phase.mute]

theorem endFault?_congr {r r' : Reader} (h : r'.mute = r.mute) : r'.endFault? = r.endFault? := by
  rw [← endFault?_mute r, ← endFault?_mute r', h]

/-- **Readers that agree up to the texts of statements that move no pointer agree so to the
end.** -/
theorem run_congr {r r' : Reader} (h : r'.mute = r.mute) (lines : List (List Char)) :
    ending (r'.run lines) = ending (r.run lines) := by
  have hprogram : r'.program.mute = r.program.mute := congrArg program h
  induction lines generalizing r r' with
  | nil => exact Prod.ext hprogram (congrArg (Option.map Fault.line?) (endFault?_congr h))
  | cons s rest ih =>
    have hstep := step_congr h s
    rw [run, run]
    cases hs : r.step s with
    | ok q =>
      cases hs' : r'.step s with
      | ok q' =>
        rw [hs, hs'] at hstep
        have hq : q'.mute = q.mute := Except.ok.inj hstep
        exact ih hq (congrArg program hq)
      | error fault => rw [hs, hs'] at hstep; cases hstep
    | error fault =>
      cases hs' : r'.step s with
      | ok q' => rw [hs, hs'] at hstep; cases hstep
      | error fault' =>
        rw [hs, hs'] at hstep
        exact Prod.ext hprogram (congrArg some (Except.error.inj hstep))

end Reader

end Jimple

end PointsTo
