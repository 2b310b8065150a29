import Mathlib.Data.List.Perm.Subperm
import PointsTo.Proofs.Arrival

/-!
What an analysis of a program can ever meet. The statements of a program name finitely many
allocations, variables and fields, so that all objects and all pointers are known in advance. A
state that is confined to such a universe stays confined, whatever the analysis does.
-/
namespace PointsTo.Solver

open Relation (ReflTransGen)

/-- Allocations and pointers that suffice for the program. Objects count from zero, so there is
room for as many as there are allocations. -/
structure Universe (p : Program) where
  allocations : List Allocation
  pointers : List Pointer
  allocated : ∀ a ∈ p.allocations, a ∈ allocations
  vars : ∀ v ∈ p.vars, .var v ∈ pointers
  statics : ∀ f ∈ p.fieldRefs, .static (p.fieldOf f) ∈ pointers
  fields : ∀ o < allocations.length, ∀ f ∈ p.fieldRefs, .field o (p.fieldOf f) ∈ pointers
  elements : ∀ o < allocations.length, .element o ∈ pointers

/-- Everything in the state belongs to the universe. -/
structure Confined {p : Program} (U : Universe p) (s : State) : Prop where
  heap : ∀ a ∈ s.heap.items, a ∈ U.allocations
  edges : ∀ e ∈ s.graph.edges.items, e.1 ∈ U.pointers ∧ e.2 ∈ U.pointers
  arrives : ∀ q o, s.Arrives q o → q ∈ U.pointers ∧ o < s.heap.size

/-- The universe of an analysis that goes on from a state: what the state has, and what the
statements of the program name. -/
def Universe.from (p : Program) (s : State) : Universe p where
  allocations := s.heap.items ++ p.allocations
  pointers := s.graph.nodes.keys ++ p.vars.map .var ++
    p.fieldRefs.map (fun f => .static (p.fieldOf f)) ++
    (List.range (s.heap.items ++ p.allocations).length).flatMap fun o =>
      .element o :: p.fieldRefs.map fun f => .field o (p.fieldOf f)
  allocated := fun _ => List.mem_append_right _
  vars := fun v hv => by
    refine List.mem_append_left _ (List.mem_append_left _ (List.mem_append_right _ ?_))
    exact List.mem_map_of_mem hv
  statics := fun f hf => by
    refine List.mem_append_left _ (List.mem_append_right _ ?_)
    exact List.mem_map.2 ⟨f, hf, rfl⟩
  fields := fun o ho f hf => by
    refine List.mem_append_right _ (List.mem_flatMap.2 ⟨o, List.mem_range.2 ho, ?_⟩)
    exact List.mem_cons_of_mem _ (List.mem_map.2 ⟨f, hf, rfl⟩)
  elements := fun o ho => by
    refine List.mem_append_right _ (List.mem_flatMap.2 ⟨o, List.mem_range.2 ho, ?_⟩)
    exact List.mem_cons_self

theorem Universe.var_mem_from {p : Program} {s : State} {v : Variable} :
    .var v ∈ (Universe.from p s).pointers ↔ .var v ∈ s.graph.nodes.keys ∨ v ∈ p.vars := by
  simp [Universe.from]

theorem length_allocations_from (p : Program) (s : State) :
    (Universe.from p s).allocations.length = s.objectLimit p :=
  List.length_append

theorem length_pointers_from (p : Program) (s : State) :
    (Universe.from p s).pointers.length = s.pointerLimit p := by
  have hnodes : s.graph.nodes.keys.length = s.graph.nodes.size := List.length_map _
  have hobjects : (s.heap.items ++ p.allocations).length = s.objectLimit p := List.length_append
  simp only [Universe.from, State.pointerLimit, List.length_append, List.length_map,
    List.length_flatMap, List.length_cons, List.map_const', List.length_range,
    List.sum_replicate_nat, hnodes, ← hobjects]

/-- A state whose pointers have nodes belongs to the universe that it begins. -/
theorem Rooted.confined {p : Program} {s : State} (h : Rooted s) :
    Confined (Universe.from p s) s := by
  have node : ∀ {q}, q ∈ s.graph.nodes.keys → q ∈ (Universe.from p s).pointers := fun hq =>
    List.mem_append_left _ (List.mem_append_left _ (List.mem_append_left _ hq))
  exact ⟨fun a => List.mem_append_left _,
    fun e he => ⟨node (h.edges e he).1, node (h.edges e he).2⟩,
    fun q o ho => ⟨node (h.arrives q o ho).1, (h.arrives q o ho).2⟩⟩

section Names

variable {p : Program} {s t : State} {c : Trigger}

theorem Program.mem_placed {name : MethodName} {m : Method} {place : Place} {i : Instruction}
    (hm : p.method? name = some m) (h : (place, i) ∈ m.placed) : (place, i) ∈ p.placed :=
  List.mem_flatMap.2 ⟨m, Program.mem_methods_of_method? hm, h⟩

theorem Stated.placed {place : Place} {i : Instruction} (h : Stated p s place i) :
    (place, i) ∈ p.placed := by
  obtain ⟨name, -, m, hm, hmem⟩ := h
  exact Program.mem_placed hm hmem

theorem mem_vars_of_placed {place : Place} {i : Instruction} (h : (place, i) ∈ p.placed)
    {v : Variable} (hv : v ∈ i.vars) : v ∈ p.vars :=
  List.mem_append_left _ (List.mem_flatMap.2 ⟨(place, i), h, hv⟩)

theorem mem_vars_of_bound {m : Method} (hm : m ∈ p.methods) {b : Body} (hb : m.body = some b)
    {v : Variable} (hv : v ∈ b.bound) : v ∈ p.vars :=
  List.mem_append_right _ (List.mem_flatMap.2 ⟨b, List.mem_filterMap.2 ⟨m, hm, hb⟩, hv⟩)

theorem mem_fieldRefs_of_placed {place : Place} {i : Instruction} (h : (place, i) ∈ p.placed)
    {f : FieldRef} (hf : i.fieldRef? = some f) : f ∈ p.fieldRefs :=
  List.mem_filterMap.2 ⟨(place, i), h, hf⟩

theorem Trigger.Calls.mem_methods {site : CallSite} {callee : Method}
    (h : Trigger.Calls p c site callee) : callee ∈ p.methods := by
  cases h with
  | linked _ found => exact Program.mem_methods_of_found found
  | dispatched _ found => exact Program.mem_methods_of_found found

end Names

namespace Confined

variable {p : Program} {U : Universe p} {s t : State} {c : Trigger}

theorem size_le (h : Confined U s) : s.heap.size ≤ U.allocations.length := by
  have hnodup := s.heap.keys_nodup
  rw [OrderedSet.keys_eq_items] at hnodup
  exact (hnodup.subperm h.heap).length_le

theorem object_lt (h : Confined U s) {uses : Uses} {o : ObjectId} {type : String}
    (ha : Trigger.Allowed p s (.object uses o type)) : o < U.allocations.length :=
  Nat.lt_of_lt_of_le (h.arrives _ o (.inl ha.2.1)).2 h.size_le

/-- The edges that an allowed trigger asks for stay in the universe. -/
theorem demands (h : Confined U s) (huses : UsesStated p s) (ha : c.Allowed p s) {a b : Pointer}
    (hd : Demands p s c a b) : a ∈ U.pointers ∧ b ∈ U.pointers := by
  have statement : ∀ {m place i}, Trigger.Allowed p s (.statement m place i) →
      (place, i) ∈ p.placed ∧ m ∈ p.methods := by
    rintro m place i ⟨name, -, hm, hmem⟩
    exact ⟨Program.mem_placed hm hmem, Program.mem_methods_of_method? hm⟩
  have use : ∀ {uses : Uses} {o : ObjectId} {type : String} (i : Instruction),
      Trigger.Allowed p s (.object uses o type) → base? i = some uses.base →
      uses.Has (.detached 0) i → ∃ place, (place, i) ∈ p.placed := by
    rintro uses o type i ha hbase hhas
    obtain ⟨place, hst⟩ := huses.use ha _ hbase hhas
    exact ⟨place, hst.placed⟩
  have var : ∀ {place i v}, (place, i) ∈ p.placed → v ∈ i.vars → Pointer.var v ∈ U.pointers :=
    fun hi hv => U.vars _ (mem_vars_of_placed hi hv)
  cases hd with
  | copy =>
    have hi := (statement ha).1
    exact ⟨var hi (by simp [Instruction.vars]), var hi (by simp [Instruction.vars])⟩
  | loadStatic =>
    have hi := (statement ha).1
    exact ⟨U.statics _ (mem_fieldRefs_of_placed hi rfl), var hi (by simp [Instruction.vars])⟩
  | storeStatic =>
    have hi := (statement ha).1
    exact ⟨var hi (by simp [Instruction.vars]), U.statics _ (mem_fieldRefs_of_placed hi rfl)⟩
  | ret returned =>
    obtain ⟨hi, hm⟩ := statement ha
    obtain ⟨b, hb, hr⟩ := Option.bind_eq_some_iff.1 returned
    exact ⟨var hi (by simp [Instruction.vars]),
      U.vars _ (mem_vars_of_bound hm hb (Body.mem_bound_returned hr))⟩
  | @store uses o type f source mem =>
    obtain ⟨place, hi⟩ := use (.storeField uses.base f source) ha rfl mem
    exact ⟨var hi (by simp [Instruction.vars]),
      U.fields o (h.object_lt ha) f (mem_fieldRefs_of_placed hi rfl)⟩
  | @load uses o type target f mem =>
    obtain ⟨place, hi⟩ := use (.loadField target uses.base f) ha rfl mem
    exact ⟨U.fields o (h.object_lt ha) f (mem_fieldRefs_of_placed hi rfl),
      var hi (by simp [Instruction.vars])⟩
  | @elementStore uses o type source mem =>
    obtain ⟨place, hi⟩ := use (.storeElement uses.base source) ha rfl mem
    exact ⟨var hi (by simp [Instruction.vars]), U.elements o (h.object_lt ha)⟩
  | @elementLoad uses o type target mem =>
    obtain ⟨place, hi⟩ := use (.loadElement target uses.base) ha rfl mem
    exact ⟨U.elements o (h.object_lt ha), var hi (by simp [Instruction.vars])⟩
  | bind calls _ _ hasBody _ mem =>
    have hi := (calls.stated huses ha).placed
    have bound : ∀ {v}, v ∈ Body.bound _ → Pointer.var v ∈ U.pointers :=
      fun hv => U.vars _ (mem_vars_of_bound calls.mem_methods hasBody hv)
    rcases Call.mem_bindings mem with ⟨harg, hparam⟩ | ⟨hreturned, hres⟩
    · refine ⟨var hi ?_, bound hparam⟩
      exact List.mem_append_right _ (List.mem_filterMap.2 ⟨_, harg, rfl⟩)
    · exact ⟨bound hreturned, var hi (by simp [Instruction.vars, hres])⟩
  | self calls _ _ hasBody _ isReceiver isSelf =>
    have hi := (calls.stated huses ha).placed
    refine ⟨var hi ?_, U.vars _ (mem_vars_of_bound calls.mem_methods hasBody
      (Body.mem_bound_receiver isSelf))⟩
    simp [Instruction.vars, isReceiver]

/-- What an allowed trigger sends belongs to the universe, and so does the pointer it is sent
to. -/
theorem sends (h : Confined U s) (huses : UsesStated p s) (ha : c.Allowed p s)
    (hsize : s.heap.size ≤ t.heap.size) {q : Pointer} {o : ObjectId} (hs : Sends p s t c q o) :
    q ∈ U.pointers ∧ o < t.heap.size := by
  cases hs with
  | forward demand mem =>
    have hlt := (h.arrives _ o (.inl mem)).2
    exact ⟨(h.demands huses ha demand).2, Nat.lt_of_lt_of_le hlt hsize⟩
  | allocate object =>
    obtain ⟨name, -, hm, hmem⟩ := ha
    refine ⟨U.vars _ (mem_vars_of_placed (Program.mem_placed hm hmem) ?_), ?_⟩
    · simp [Instruction.vars]
    · exact (List.getElem?_eq_some_iff.1 object).1
  | greet calls edge isSelf =>
    obtain ⟨body, l, hbody, hself, rfl⟩ := exists_of_receiverOf isSelf
    have hlt := (h.arrives _ o (.inl ha.2.1)).2
    have hbound := Body.mem_bound_receiver hself
    exact ⟨U.vars _ (mem_vars_of_bound calls.mem_methods hbody hbound),
      Nat.lt_of_lt_of_le hlt hsize⟩

end Confined

/-- **The analysis never leaves the universe.** -/
theorem Move.confined {p : Program} {U : Universe p} {s t : State} (huses : UsesStated p s)
    (h : Confined U s) (move : Move p s t) : Confined U t := by
  cases move with
  | settle => exact ⟨h.heap, h.edges, h.arrives⟩
  | @take _ d work next =>
    obtain ⟨hheap, -, -, -, hedges⟩ := take_frame s d work
    refine ⟨?_, ?_, ?_⟩
    · rw [hheap]
      exact h.heap
    · rw [hedges]
      exact h.edges
    · rw [hheap]
      intro q o ho
      rcases (arrives_take next).1 ho with ho | ⟨hedge, ho⟩
      · exact h.arrives q o ho
      · have hsource : s.Arrives d.pointer o := by
          refine .inr ⟨d, ?_, rfl, (State.mem_fresh.1 ho).1⟩
          rw [Queue.toList_of_pop? next]
          exact List.mem_cons_self
        exact ⟨(h.edges _ hedge).2, (h.arrives _ o hsource).2⟩
  | @act c _ _ allowed step =>
    have adds := step.adds
    have hsize : s.heap.size ≤ t.heap.size := step.extends.heap.length_le
    refine ⟨fun a ha => ?_, fun e he => ?_, fun q o ho => ?_⟩
    · rcases adds.heap a ha with ha | ⟨m, target, rfl⟩
      · exact h.heap a ha
      · obtain ⟨name, -, hm, hmem⟩ := allowed
        exact U.allocated a (List.mem_filterMap.2 ⟨_, Program.mem_placed hm hmem, rfl⟩)
    · rcases adds.edges e he with he | hd
      · exact h.edges e he
      · exact h.demands huses allowed hd
    · rcases adds.arrives q o ho with ho | hs
      · obtain ⟨hq, hlt⟩ := h.arrives q o ho
        exact ⟨hq, Nat.lt_of_lt_of_le hlt hsize⟩
      · exact h.sends huses allowed hsize hs

end PointsTo.Solver
