import PointsTo.Proofs.Advances
import PointsTo.Proofs.Origins

/-!
Which lines of a text the parts of its program were read from. The lines of a body follow each other
from the header of its method on, and each statement keeps the number of its line; a switch keeps that
of its first line, which is all that is read of it.
-/
namespace PointsTo.Jimple

open PointsTo.Text

variable {lines : List (List Char)}

/-- A body in the making, of a method of the class, behind the first `n` lines. -/
inductive DraftedFrom (lines : List (List Char)) (owner : String) : Nat → Draft → Prop
  | header {n line m} (here : lines[n]? = some line)
      (read : readMethodHeader owner line = some (.ok m)) :
      DraftedFrom lines owner (n + 1) { method := m }
  | pass {n d} (before : DraftedFrom lines owner n d) : DraftedFrom lines owner (n + 1) d
  | line {n d d' s} (before : DraftedFrom lines owner n d) (here : lines[n]? = some s)
      (read : d.readLine s (n + 1) = .ok d') : DraftedFrom lines owner (n + 1) d'
  | switch {n d s} (before : DraftedFrom lines owner n d) (here : lines[n]? = some s)
      (opens : opensSwitch s = true) :
      DraftedFrom lines owner (n + 1) (d.add (.other (String.ofList s)) (n + 1))

/-- A method of the class, read from its header or from the lines of its body. -/
inductive MethodFrom (lines : List (List Char)) (owner : String) : Method → Prop
  | header {line m} (here : line ∈ lines) (read : readMethodHeader owner line = some (.ok m)) :
      MethodFrom lines owner m
  | body {n d} (drafted : DraftedFrom lines owner n d) :
      MethodFrom lines owner { d.method with body := some d.finish }

/-- A class that was read from the lines. -/
structure ClassFrom (lines : List (List Char)) (c : Class) : Prop where
  header : ∃ line ∈ lines, ∃ h,
    readClassHeader (if endsWith '\x7b' line then trim line.dropLast else line) = .ok h ∧
      h.name = c.name
  fields : ∀ f ∈ c.fields.items, ∃ line ∈ lines, readField c.name line = .ok f
  methods : ∀ m ∈ c.methods.items, MethodFrom lines c.name m

theorem DraftedFrom.drafted {owner : String} {n : Nat} {d : Draft}
    (h : DraftedFrom lines owner n d) : Drafted owner d := by
  induction h with
  | header _ read => exact .header read
  | pass _ ih => exact ih
  | line _ _ read ih => exact ih.line read
  | switch _ _ _ ih => exact ih.switch _ _

theorem MethodFrom.methodRead {owner : String} {m : Method} (h : MethodFrom lines owner m) :
    MethodRead owner m := by
  cases h with
  | header _ read => exact .header read
  | body drafted => exact .body drafted.drafted

theorem ClassFrom.classRead {c : Class} (h : ClassFrom lines c) : ClassRead c := by
  obtain ⟨line, -, header, read, hname⟩ := h.header
  refine ⟨⟨_, header, read, hname⟩, fun f hf => ?_, fun m hm => (h.methods m hm).methodRead⟩
  obtain ⟨line, -, read⟩ := h.fields f hf
  exact ⟨line, read⟩

theorem classFrom_of_header {line : List Char} {c : Class} (here : line ∈ lines)
    (read : readClassHeader (if endsWith '\x7b' line then trim line.dropLast else line) = .ok c) :
    ClassFrom lines c := by
  obtain ⟨hfields, hmethods⟩ := members_of_readClassHeader read
  refine ⟨⟨line, here, c, read, rfl⟩, fun f hf => ?_, fun m hm => ?_⟩
  · rw [hfields] at hf
    cases hf
  · rw [hmethods] at hm
    cases hm

theorem ClassFrom.putMethod {c : Class} {m : Method} (h : ClassFrom lines c)
    (hm : MethodFrom lines c.name m) : ClassFrom lines { c with methods := c.methods.put m } := by
  refine ⟨h.header, h.fields, fun n hn => ?_⟩
  rcases Roster.mem_of_mem_put hn with hn | rfl
  · exact h.methods n hn
  · exact hm

theorem ClassFrom.putField {c : Class} {f : Field} {line : List Char} (h : ClassFrom lines c)
    (here : line ∈ lines) (read : readField c.name line = .ok f) :
    ClassFrom lines { c with fields := c.fields.put f } := by
  refine ⟨h.header, fun g hg => ?_, h.methods⟩
  rcases Roster.mem_of_mem_put hg with hg | rfl
  · exact h.fields g hg
  · exact ⟨line, here, read⟩

/-! ### The reader -/

/-- The class that is being read comes from the lines, and so does the body, behind the first `seen`
of them. In a switch that is the body with the statement that the switch will be. -/
def Phase.Sourced (lines : List (List Char)) (seen opened : Nat) : Phase → Prop
  | .outside => True
  | .beforeClass c | .inClass c => ClassFrom lines c
  | .beforeBody c d | .inBody c d => ClassFrom lines c ∧ DraftedFrom lines c.name seen d
  | .inSwitch c d opening =>
    ClassFrom lines c ∧ DraftedFrom lines c.name seen (d.add (.other opening) opened)

structure Reader.Sourced (p : Program) (lines : List (List Char)) (r : Reader) : Prop where
  program : ∀ c ∈ r.program.classes.items, c ∈ p.classes.items ∨ ClassFrom lines c
  phase : r.phase.Sourced lines r.seen r.line

namespace Reader.Sourced

variable {p : Program} {r r' : Reader} {c : Class} {s : List Char}

theorem keep {phase : Class → Phase} (h : r.Sourced p lines) (hc : ClassFrom lines c)
    (hphase : (phase c).Sourced lines (r.seen + 1) (r.seen + 1)) :
    (r.next.keep c phase).Sourced p lines := by
  refine ⟨fun d hd => ?_, hphase⟩
  rcases Roster.mem_of_mem_put hd with hd | rfl
  · exact h.program d hd
  · exact .inr hc

theorem advance (here : lines[r.seen]? = some s) (h : r.Sourced p lines) (hr : r.Advances s r') :
    r'.Sourced p lines := by
  have hmem : s ∈ lines := List.mem_of_getElem? here
  have hphase := h.phase
  cases hr with
  | inSwitch phase =>
    rw [phase] at hphase
    exact ⟨h.program, by rw [phase]; exact ⟨hphase.1, hphase.2.pass⟩⟩
  | closeSwitch phase =>
    rw [phase] at hphase
    exact ⟨h.program, hphase.1, hphase.2.pass⟩
  | blank unswitched =>
    refine ⟨h.program, ?_⟩
    change r.phase.Sourced lines (r.seen + 1) (r.seen + 1)
    cases phase : r.phase with
    | inSwitch c d opening => exact absurd phase (unswitched c d opening)
    | outside => trivial
    | beforeClass | inClass =>
      rw [phase] at hphase
      exact hphase
    | beforeBody | inBody =>
      rw [phase] at hphase
      exact ⟨hphase.1, hphase.2.pass⟩
  | header read =>
    have hc := classFrom_of_header hmem read
    refine h.keep hc ?_
    split <;> exact hc
  | openClass phase =>
    rw [phase] at hphase
    exact ⟨h.program, hphase⟩
  | closeClass => exact ⟨h.program, trivial⟩
  | method phase read =>
    rw [phase] at hphase
    have hput := ClassFrom.putMethod hphase (.header hmem read)
    refine h.keep hput ?_
    split
    · exact hput
    · split <;> exact ⟨hput, .header here read⟩
  | field phase read =>
    rw [phase] at hphase
    have hput := ClassFrom.putField hphase hmem read
    exact h.keep hput hput
  | openBody phase =>
    rw [phase] at hphase
    exact ⟨h.program, hphase.1, hphase.2.pass⟩
  | openSwitch phase opens =>
    rw [phase] at hphase
    exact ⟨h.program, hphase.1, hphase.2.switch here opens⟩
  | closeBody phase =>
    rw [phase] at hphase
    have hput := hphase.1.putMethod (.body hphase.2)
    exact h.keep hput hput
  | line phase read =>
    rw [phase] at hphase
    exact ⟨h.program, hphase.1, hphase.2.line here read⟩

end Reader.Sourced

/-- **Every class that a text adds to a program comes from its lines of code.** -/
theorem classFrom_of_read {p : Program} {text : String} {c : Class}
    (h : c ∈ (read p text).1.classes.items) :
    c ∈ p.classes.items ∨ ClassFrom (codeLines text.toList) c := by
  have start : ({ program := p } : Reader).Sourced p (codeLines text.toList) :=
    ⟨fun _ hc => .inl hc, trivial⟩
  obtain ⟨r, hr, heq⟩ := Reader.exists_of_run (fun _ _ _ => Reader.Sourced.advance) start
  refine hr.program c ?_
  rw [← heq]
  exact h

theorem classFrom_programOf {text : String} {c : Class} (h : c ∈ (programOf text).classes.items) :
    ClassFrom (codeLines text.toList) c :=
  (classFrom_of_read h).resolve_left List.not_mem_nil

/-- **Every class of a program that was read was read from lines**, those of one of its texts. -/
theorem Parsed.classRead {p : Program} (h : Parsed p) : ∀ c ∈ p.classes.items, ClassRead c := by
  induction h with
  | empty =>
    intro c hc
    cases hc
  | read _ text ih =>
    intro c hc
    rcases classFrom_of_read hc with hc | hc
    · exact ih c hc
    · exact hc.classRead

end PointsTo.Jimple
