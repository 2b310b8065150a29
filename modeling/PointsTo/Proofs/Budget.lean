import Mathlib.Algebra.GroupWithZero.Nat
import Mathlib.Algebra.Order.BigOperators.Group.List
import Mathlib.Algebra.Order.Group.Nat
import PointsTo.Proofs.Loops
import PointsTo.Proofs.Universe

/-!
What the methods that have not been processed can still cost. An instruction has a cost, one for an
allocation, say; the methods that are left have the sum of their costs. A step leaves no method that
was not left before, and a method that is taken from the pending ones is left no longer.
-/
namespace PointsTo

/-- The methods of a program under the names by which they are found. -/
def Program.named (p : Program) : List (MethodName × Method) :=
  p.classes.items.flatMap fun c => c.methods.items.map fun m => (⟨c.name, m.subsignature⟩, m)

theorem Program.map_snd_named (p : Program) : p.named.map Prod.snd = p.methods := by
  have hsame : ∀ c : Class,
      (c.methods.items.map fun m => ((⟨c.name, m.subsignature⟩ : MethodName), m)).map Prod.snd =
        c.methods.items := by
    intro c
    rw [List.map_map]
    exact List.map_id _
  unfold Program.named Program.methods
  rw [List.map_flatMap]
  exact List.flatMap_congr fun c _ => hsame c

theorem Program.mem_named {p : Program} {name : MethodName} {m : Method}
    (h : p.method? name = some m) : (name, m) ∈ p.named := by
  obtain ⟨c, hc, hm⟩ := Program.method?_eq_some.1 h
  refine List.mem_flatMap.2 ⟨c, Roster.mem_of_get? hc, ?_⟩
  refine List.mem_map.2 ⟨m, Roster.mem_of_get? hm, ?_⟩
  have hclass : c.name = name.declaringClass := Roster.key_of_get? hc
  have hsub : m.subsignature = name.subsignature := Roster.key_of_get? hm
  rw [hclass, hsub]

/-- What the statements of a method cost together. -/
def Method.total (cost : Instruction → Nat) (m : Method) : Nat :=
  (m.placed.map fun x => cost x.2).sum

def Program.total (cost : Instruction → Nat) (p : Program) : Nat :=
  (p.placed.map fun x => cost x.2).sum

theorem Program.total_eq (cost : Instruction → Nat) (p : Program) :
    p.total cost = (p.named.map fun x => x.2.total cost).sum := by
  have hnamed : (p.named.map fun x => x.2.total cost) = p.methods.map (Method.total cost) := by
    rw [← p.map_snd_named, List.map_map]
    rfl
  have hsum : ∀ methods : List Method,
      ((methods.flatMap Method.placed).map fun x => cost x.2).sum =
        (methods.map (Method.total cost)).sum := by
    intro methods
    induction methods with
    | nil => rfl
    | cons m methods ih =>
      rw [List.flatMap_cons, List.map_append, List.sum_append, ih, List.map_cons, List.sum_cons]
      rfl
  rw [hnamed]
  exact hsum p.methods

/-- What the statements of the methods of some names cost together. -/
def Program.costOf (p : Program) (cost : Instruction → Nat) (left : MethodName → Prop)
    [DecidablePred left] : Nat :=
  (p.named.map fun x => if left x.1 then x.2.total cost else 0).sum

section Cost

variable {p : Program} (cost : Instruction → Nat) {left left' : MethodName → Prop}
  [DecidablePred left] [DecidablePred left']

theorem Program.costOf_le_total (left : MethodName → Prop) [DecidablePred left] :
    p.costOf cost left ≤ p.total cost := by
  rw [p.total_eq]
  refine List.sum_le_sum fun x _ => ?_
  split
  · exact Nat.le_refl _
  · exact Nat.zero_le _

theorem Program.costOf_mono (h : ∀ name, left' name → left name) :
    p.costOf cost left' ≤ p.costOf cost left := by
  refine List.sum_le_sum fun x _ => ?_
  split
  · next hx =>
    rw [if_pos (h _ hx)]
  · exact Nat.zero_le _

/-- A name that is no longer among them saves the cost of its method. -/
theorem Program.costOf_drop (h : ∀ name, left' name → left name) {name : MethodName}
    (was : left name) (gone : ¬ left' name) {m : Method} (hm : p.method? name = some m) :
    p.costOf cost left' + m.total cost ≤ p.costOf cost left := by
  obtain ⟨before, after, hsplit⟩ := List.append_of_mem (Program.mem_named hm)
  have part : ∀ l : List (MethodName × Method),
      (l.map fun x => if left' x.1 then x.2.total cost else 0).sum ≤
        (l.map fun x => if left x.1 then x.2.total cost else 0).sum := by
    intro l
    refine List.sum_le_sum fun x _ => ?_
    split
    · next hx =>
      rw [if_pos (h _ hx)]
    · exact Nat.zero_le _
  have hbefore := part before
  have hafter := part after
  unfold Program.costOf
  rw [hsplit, List.map_append, List.map_append, List.map_cons, List.map_cons, List.sum_append,
    List.sum_append, List.sum_cons, List.sum_cons, if_neg gone, if_pos was]
  dsimp only
  omega

end Cost

/-- Costs of one for every item that is kept add up to how many are kept. -/
theorem sum_cost_eq {α β : Type} (keep : α → Option β) (cost : α → Nat)
    (h : ∀ a, cost a = if (keep a).isSome then 1 else 0) (items : List α) :
    (items.map cost).sum = (items.filterMap keep).length := by
  induction items with
  | nil => rfl
  | cons a rest ih =>
    rw [List.map_cons, List.sum_cons, ih, h a, List.filterMap_cons]
    cases keep a with
    | none => exact Nat.zero_add _
    | some b => exact Nat.add_comm 1 _

namespace Solver

/-- How many calls an instruction is. -/
def invokes : Instruction → Nat
  | .call _ => 1
  | _ => 0

end Solver

theorem Method.total_invokes (m : Method) : m.total Solver.invokes = m.callSites.length := by
  refine sum_cost_eq _ _ ?_ m.placed
  rintro ⟨place, i⟩
  cases i <;> rfl

namespace Solver

theorem total_sends (p : Program) : p.total sends = p.allocations.length := by
  refine sum_cost_eq _ _ ?_ p.placed
  rintro ⟨place, i⟩
  cases i <;> rfl

theorem total_invokes (p : Program) : p.total invokes = p.callSites.length := by
  have hcalls : (p.named.map fun x => x.2.total invokes) =
      (p.named.map Prod.snd).map fun m => m.callSites.length := by
    rw [List.map_map]
    exact List.map_congr_left fun x _ => x.2.total_invokes
  rw [p.total_eq, hcalls, p.map_snd_named]
  exact List.length_flatMap.symm

/-! ### Methods that are left -/

/-- The method of the name has not been processed. -/
def State.Left (s : State) (name : MethodName) : Prop :=
  name ∈ s.pending ∨ name ∉ s.calls.reachable.items

instance (s : State) (name : MethodName) : Decidable (s.Left name) :=
  inferInstanceAs (Decidable (_ ∨ _))

/-- What the statements of the methods that are left cost together. -/
def State.left (s : State) (p : Program) (cost : Instruction → Nat) : Nat := p.costOf cost s.Left

section Left

variable {p : Program} {c : Trigger} {s t : State} {n : Nat} (cost : Instruction → Nat)

theorem left_le_total (s : State) (p : Program) (cost : Instruction → Nat) :
    s.left p cost ≤ p.total cost := Program.costOf_le_total cost _

theorem left_mono (h : ∀ name, t.Left name → s.Left name) : t.left p cost ≤ s.left p cost :=
  Program.costOf_mono cost h

theorem Acted.left_le (h : Acted s t) : t.left p cost ≤ s.left p cost := by
  obtain ⟨new, hpending, hreachable, -, hnew⟩ := h.put_down
  refine left_mono cost fun name hname => ?_
  unfold State.Left at hname ⊢
  rw [hpending, hreachable] at hname
  rcases hname with hname | hname
  · rcases List.mem_append.1 hname with hname | hname
    · exact .inl hname
    · exact .inr (hnew name hname)
  · exact .inr fun hmem => hname (List.mem_append_left _ hmem)

/-- A method that is taken to be processed is not left any more. -/
theorem left_settle (ho : s.Orderly) {name : MethodName} {rest : List MethodName}
    (next : s.pending = name :: rest) {m : Method} (hm : p.method? name = some m) :
    State.left { s with pending := rest } p cost + m.total cost ≤ s.left p cost := by
  have hnodup := ho.nodup
  rw [next, List.nodup_cons] at hnodup
  have hreached : name ∈ s.calls.reachable.items := ho.reached name (by simp [next])
  have hless : ∀ n, State.Left { s with pending := rest } n → s.Left n := by
    rintro n (hn | hn)
    · exact .inl (next ▸ List.mem_cons_of_mem name hn)
    · exact .inr hn
  have hgone : ¬ State.Left { s with pending := rest } name := by
    rintro (hn | hn)
    · exact hnodup.1 hn
    · exact hn hreached
  have hleft : s.Left name := .inl (next ▸ List.mem_cons_self)
  exact Program.costOf_drop cost hless hleft hgone hm

theorem Move.left_le (move : Move p s t) : t.left p cost ≤ s.left p cost := by
  cases move with
  | act _ step => exact step.acted.left_le cost
  | @settle _ name rest next =>
    exact left_mono cost fun n hn => hn.imp_left fun hn => next ▸ List.mem_cons_of_mem name hn
  | @take _ d work next =>
    obtain ⟨-, hcalls, -, hpending, -⟩ := take_frame s d work
    refine left_mono cost fun name hname => ?_
    unfold State.Left at hname ⊢
    rwa [hcalls, hpending] at hname

end Left

end Solver

end PointsTo
