import PointsTo.Proofs.Arrival
import PointsTo.Proofs.Loops
import PointsTo.Solver.Operation

/-!
What can be asked of an analysis without processing a statement or taking a delivery: nodes, objects
and edges, objects sent to a pointer, and methods put down. None of this changes a set of objects, a
use or a call edge.
-/
namespace PointsTo.Solver

/-! ### Before anything is asked for -/

/-- Nothing has been asked for yet. There may be objects and phantom fields, which other analyses
can share. -/
structure State.Fresh (s : State) : Prop where
  graph : s.graph = {}
  calls : s.calls = {}
  uses : s.uses = ∅
  pending : s.pending = []
  work : s.work = ∅
  iterations : s.iterations = 0
  sent : s.sent = #[]
  history : s.history = #[]
  services : s.services = #[]

theorem usesOf_of_unused {s : State} (h : s.uses = ∅) (v : Variable) :
    s.usesOf v = { base := v } := by
  unfold State.usesOf
  rw [h]
  rfl

theorem usesStated_of_unused {p : Program} {s : State} (h : s.uses = ∅) : UsesStated p s := by
  refine ⟨fun v place i _ hu => ?_, fun v site hs => ?_⟩
  · rw [usesOf_of_unused h] at hu
    cases i <;> cases hu
  · rw [usesOf_of_unused h] at hs
    cases hs

theorem State.fresh_initial (heap : Heap) (phantoms : PhantomFields) (log : Array Event) :
    State.Fresh { heap, phantoms, log } := by
  constructor <;> rfl

namespace State.Fresh

variable {p : Program} {s : State}

theorem not_arrives (h : s.Fresh) (q : Pointer) (o : ObjectId) : ¬ s.Arrives q o := by
  unfold State.Arrives State.pointsTo
  rw [h.graph, h.work]
  rintro (ho | ⟨d, hd, -⟩)
  · cases ho
  · cases hd

theorem no_edges (h : s.Fresh) {e : Pointer × Pointer} : e ∉ s.graph.edges.items := by
  rw [h.graph]
  exact List.not_mem_nil

theorem orderly (h : s.Fresh) : s.Orderly := by
  constructor
  · rw [h.pending]
    exact List.nodup_nil
  · rw [h.pending]
    exact fun m hm => by cases hm

theorem usesStated (h : s.Fresh) : UsesStated p s := usesStated_of_unused h.uses

theorem rooted (h : s.Fresh) : Rooted s :=
  ⟨fun _ he => absurd he h.no_edges, fun q o ho => absurd ho (h.not_arrives q o)⟩

theorem flowing (h : s.Fresh) : Flowing s := fun _ he => absurd he h.no_edges

theorem faithful (h : s.Fresh) : Faithful p s := by
  refine ⟨h.orderly, h.usesStated, h.rooted, h.flowing, ?_⟩
  rw [h.calls]
  exact fun k hk => by cases hk

theorem known (h : s.Fresh) (v : Variable) : Known p s v :=
  ⟨fun _ he => absurd he h.no_edges, fun o ho => absurd ho (h.not_arrives _ o)⟩

theorem opened_frame (h : s.Fresh) (m : MethodName) :
    (s.opened m).pending = [m] ∧ (s.opened m).calls.reachable.items = [m] ∧
      (s.opened m).calls.edges = ∅ ∧ (s.opened m).graph = {} ∧ (s.opened m).work = ∅ := by
  have hnew : m ∉ (s.calls.addEntry m).reachable.items := by
    rw [h.calls]
    exact List.not_mem_nil
  have hopened : s.opened m = _ := State.reach_of_not_mem
    (s := { s.record (.started m) with calls := s.calls.addEntry m }) hnew
  rw [hopened]
  refine ⟨?_, ?_, ?_, h.graph, h.work⟩
  · change s.pending ++ [m] = [m]
    rw [h.pending]
    rfl
  · change ((s.calls.addEntry m).reachable.add m).items = [m]
    rw [h.calls]
    rfl
  · change (s.calls.addEntry m).edges = ∅
    rw [h.calls]
    rfl

end State.Fresh

/-! ### What is asked for -/

/-- No set of objects, no use and no call edge changes, and nothing that an edge has to carry gets
lost. -/
structure Asked (s t : State) : Prop extends Acted s t where
  uses : t.uses = s.uses
  callEdges : t.calls.edges = s.calls.edges
  flowing : Flowing s → Flowing t

section Asked

variable {s t u : State}

theorem Asked.trans (h : Asked s t) (h' : Asked t u) : Asked s u where
  toActed := h.toActed.trans h'.toActed
  uses := h'.uses.trans h.uses
  callEdges := h'.callEdges.trans h.callEdges
  flowing := fun hs => h'.flowing (h.flowing hs)

/-- Without new edges. -/
theorem Asked.of_acted (acted : Acted s t) (uses : t.uses = s.uses)
    (callEdges : t.calls.edges = s.calls.edges) (edges : t.graph.edges = s.graph.edges) :
    Asked s t :=
  ⟨acted, uses, callEdges, fun hs => hs.keep acted edges⟩

theorem Asked.of_agrees (h : s.Agrees t) : Asked s t :=
  .of_acted ⟨h.extends, h.pointsTo, [], by simp [h.pending], by simp [h.reachable]⟩ h.uses
    h.callEdges h.edges

/-- What is asked for keeps the state faithful if objects are on the heap and pointers have
nodes. -/
theorem Faithful.asked {p : Program} (h : Faithful p s) (asked : Asked s t) (rooted : Rooted t) :
    Faithful p t := by
  refine ⟨asked.toActed.orderly h.orderly, h.uses.keep asked.ext asked.uses, rooted,
    asked.flowing h.flowing, fun k hk => ?_⟩
  rw [asked.callEdges] at hk
  exact asked.ext.reachable _ (h.callees k hk)

theorem Rooted.of_agrees (hs : Rooted s) (h : s.Agrees t) : Rooted t := by
  refine hs.keep ?_ (Nat.le_of_eq (congrArg Roster.size h.heap.symm)) h.edges
    fun q o ho => .inl (h.arrives.1 ho)
  rw [h.nodes]
  exact fun _ => id

section Nodes

variable {q : Pointer} {objects : ObjectSet}

theorem extends_touch (s : State) (q : Pointer) : s.Extends (s.touch q) := by
  refine ⟨List.prefix_rfl, fun r o ho => ?_, fun r o => State.arrives_touch.2, fun _ => id,
    fun _ => id, fun _ => id, fun _ => Uses.within_rfl _⟩
  rwa [State.pointsTo_touch]

theorem Asked.touch (s : State) (q : Pointer) : Asked s (s.touch q) :=
  .of_acted ⟨extends_touch s q, State.pointsTo_touch s q, [], by simp [State.touch],
    by simp [State.touch]⟩ rfl rfl rfl

theorem Rooted.touch (h : Rooted s) (q : Pointer) : Rooted (s.touch q) :=
  h.keep (fun _ hr => State.mem_nodes_touch.2 (.inl hr)) (Nat.le_refl _) rfl
    fun _ _ ho => .inl (State.arrives_touch.1 ho)

theorem Asked.send (s : State) (q : Pointer) (objects : ObjectSet) :
    Asked s (s.send q objects) := by
  have ext : s.Extends (s.send q objects) :=
    ⟨List.prefix_rfl, fun _ _ => id, fun r o ho => State.arrives_send.2 (.inl ho), fun _ => id,
      fun _ => id, fun _ => id, fun _ => Uses.within_rfl _⟩
  exact .of_acted ⟨ext, fun _ => rfl, [], by simp [State.send], by simp [State.send]⟩ rfl rfl rfl

theorem Rooted.send (h : Rooted s) (node : q ∈ s.graph.nodes.keys)
    (onHeap : ∀ o ∈ objects.items, o < s.heap.size) : Rooted (s.send q objects) := by
  refine h.keep (fun _ => id) (Nat.le_refl _) rfl fun r o ho => ?_
  rcases State.arrives_send.1 ho with hold | ⟨rfl, hmem⟩
  · exact .inl hold
  · exact .inr ⟨node, onHeap o hmem⟩

end Nodes

theorem Asked.flow (s : State) (a b : Pointer) : Asked s (s.flow a b) := by
  refine ⟨⟨s.extends_flow a b, fun q => State.pointsTo_flow, [], by simp, by simp⟩,
    State.uses_flow, by rw [State.calls_flow], fun hs => hs.flow a b⟩

theorem Asked.allocate (s : State) (a : Allocation) : Asked s (s.allocate a).2 := by
  have ext : s.Extends (s.allocate a).2 :=
    ⟨s.heap.prefix_objectOf a, fun _ _ => id, fun _ _ => id, fun _ => id, fun _ => id, fun _ => id,
      fun _ => Uses.within_rfl _⟩
  exact .of_acted ⟨ext, fun _ => rfl, [], by simp [State.allocate], by simp [State.allocate]⟩
    rfl rfl rfl

theorem Rooted.allocate (h : Rooted s) (a : Allocation) : Rooted (s.allocate a).2 :=
  h.keep (fun _ => id) (s.heap.prefix_objectOf a).length_le rfl fun _ _ => .inl

section Reach

variable {m : MethodName}

theorem arrives_reach {q : Pointer} {o : ObjectId} : (s.reach m).Arrives q o ↔ s.Arrives q o := by
  obtain ⟨-, hgraph, -, hwork, -⟩ := State.reach_frame s m
  unfold State.Arrives State.pointsTo
  rw [hgraph, hwork]

theorem Asked.reach (s : State) (m : MethodName) : Asked s (s.reach m) := by
  obtain ⟨hheap, hgraph, huses, hwork, hedges⟩ := State.reach_frame s m
  have hset : ∀ q, (s.reach m).pointsTo q = s.pointsTo q := fun q => by
    unfold State.pointsTo
    rw [hgraph]
  have ext : s.Extends (s.reach m) := by
    refine ⟨hheap ▸ List.prefix_rfl, fun q o ho => ?_, fun q o => arrives_reach.2, ?_,
      fun n hn => State.mem_reachable_reach.2 (.inl hn), ?_, fun v => ?_⟩
    · rwa [hset]
    · rw [hgraph]
      exact fun _ => id
    · rw [hedges]
      exact fun _ => id
    · rw [State.usesOf_congr huses]
      exact Uses.within_rfl _
  refine .of_acted ⟨ext, hset, ?_⟩ huses hedges (congrArg FlowGraph.edges hgraph)
  by_cases hm : m ∈ s.calls.reachable.items
  · rw [State.reach_of_mem hm]
    exact ⟨[], by simp, by simp⟩
  · have hadd := Roster.items_add s.calls.reachable m
    rw [OrderedSet.keys_eq_items, if_neg hm] at hadd
    rw [State.reach_of_not_mem hm]
    exact ⟨[m], rfl, hadd⟩

theorem Rooted.reach (h : Rooted s) (m : MethodName) : Rooted (s.reach m) := by
  obtain ⟨hheap, hgraph, -, -, -⟩ := State.reach_frame s m
  refine h.keep ?_ (Nat.le_of_eq (congrArg Roster.size hheap.symm))
    (congrArg FlowGraph.edges hgraph) fun _ _ ho => .inl (arrives_reach.1 ho)
  rw [hgraph]
  exact fun _ => id

theorem agrees_entered (s : State) (m : MethodName) :
    s.Agrees { s.record (.started m) with calls := s.calls.addEntry m } := by
  constructor <;> first | rfl | exact fun _ hn => OrderedSet.mem_add.2 (.inl hn)

/-- An entry method is recorded and put down. -/
theorem Asked.opened (s : State) (m : MethodName) : Asked s (s.opened m) :=
  (Asked.of_agrees (agrees_entered s m)).trans (.reach _ m)

theorem Rooted.opened (h : Rooted s) (m : MethodName) : Rooted (s.opened m) :=
  (h.of_agrees (agrees_entered s m)).reach m

theorem Known.opened {p : Program} {v : Variable} (h : Known p s v) (m : MethodName) :
    Known p (s.opened m) v := by
  have ext := (Asked.opened s m).ext
  have harrives : ∀ {q o}, (s.opened m).Arrives q o ↔ s.Arrives q o :=
    arrives_reach.trans (agrees_entered s m).arrives
  obtain ⟨-, hgraph, -, -, -⟩ :=
    State.reach_frame { s.record (.started m) with calls := s.calls.addEntry m } m
  refine ⟨fun q he => ?_, fun o ho => (h.arrives o (harrives.1 ho)).mono ext⟩
  unfold State.opened at he
  rw [hgraph] at he
  exact (h.edges q he).mono ext

end Reach

end Asked

/-! ### One request after the other -/

namespace Operation

/-- Objects that are sent are on the heap. -/
def OnHeap (s : State) : Operation → Prop
  | send _ objects | propagate _ objects => ∀ o ∈ objects.items, o < s.heap.size
  | _ => True

instance (s : State) : (op : Operation) → Decidable (op.OnHeap s)
  | send _ objects | propagate _ objects =>
    inferInstanceAs (Decidable (∀ o ∈ objects.items, o < s.heap.size))
  | node _ | static _ | object _ | start | reach _ | connect _ _ | processCalls _ _ | analyze
  | solve => .isTrue trivial

/-- Each request finds a state that is as it should be for it. -/
def Along (p : Program) (entry : Option Method) (ok : State → Operation → Prop) :
    List Operation → State → Prop
  | [], _ => True
  | op :: ops, s => ok s op ∧ Along p entry ok ops (op.perform p entry s).state

instance (p : Program) (entry : Option Method) (ok : State → Operation → Prop)
    [∀ s op, Decidable (ok s op)] :
    (ops : List Operation) → (s : State) → Decidable (Along p entry ok ops s)
  | [], _ => .isTrue trivial
  | op :: ops, s =>
    have := instDecidableAlong p entry ok ops (op.perform p entry s).state
    inferInstanceAs (Decidable (ok s op ∧ Along p entry ok ops (op.perform p entry s).state))

variable {p : Program} {entry : Option Method} {s t : State}

theorem along_append {ok : State → Operation → Prop} {op : Operation}
    {ops : List Operation} (h : Along p entry ok (ops ++ [op]) s)
    (goes : forEach (perform p entry) ops s = .going t) : Along p entry ok ops s ∧ ok t op := by
  induction ops generalizing s with
  | nil =>
    cases goes
    exact ⟨trivial, h.1⟩
  | cons first ops ih =>
    obtain ⟨u, hfirst, goes⟩ := forEach_cons_eq_going.1 goes
    obtain ⟨hok, hrest⟩ := h
    rw [hfirst] at hrest
    obtain ⟨halong, hlast⟩ := ih hrest goes
    refine ⟨⟨hok, ?_⟩, hlast⟩
    rwa [hfirst]

end Operation

end PointsTo.Solver
