import PointsTo.Proofs.Termination

/-!
Objects along edges alone. As long as no method is reached, an analysis only carries the objects
that it is given along the edges that it is asked for: when nothing is on its way any more, the set
of a pointer holds just the objects that were given to a pointer from which a path of edges leads to
it. In what order objects and edges came, and when deliveries were taken, does not matter.
-/
namespace PointsTo.Solver

open Relation (ReflTransGen)

namespace Operation

/-- No method is involved. -/
def isFlow : Operation → Bool
  | start | reach _ | processCalls .. | solve => false
  | _ => true

/-- The objects that a request brings, each with the pointer that it is for. -/
def given : Operation → List (Pointer × ObjectId)
  | send q objects | propagate q objects => objects.items.map fun o => (q, o)
  | _ => []

def edges : Operation → List (Pointer × Pointer)
  | connect source target => [(source, target)]
  | _ => []

end Operation

/-- A path of edges leads to the pointer from one that the object was given to. -/
def Carried (given : List (Pointer × ObjectId)) (edges : List (Pointer × Pointer)) (q : Pointer)
    (o : ObjectId) : Prop :=
  ∃ source, (source, o) ∈ given ∧ ReflTransGen (fun a b => (a, b) ∈ edges) source q

/-- What is there or on its way is what is carried, and no method has been reached. -/
structure Carrying (given : List (Pointer × ObjectId)) (edges : List (Pointer × Pointer))
    (s : State) : Prop where
  unused : s.uses = ∅
  settled : s.pending = []
  rooted : Rooted s
  flowing : Flowing s
  linked : ∀ e, e ∈ s.graph.edges.items ↔ e ∈ edges
  arrives : ∀ x ∈ given, s.Arrives x.1 x.2
  carried : ∀ q o, s.Arrives q o → Carried given edges q o

section Carried

variable {given given' : List (Pointer × ObjectId)} {edges edges' : List (Pointer × Pointer)}
  {q r : Pointer} {o : ObjectId}

theorem Carried.mono (h : Carried given edges q o) (hgiven : given ⊆ given')
    (hedges : edges ⊆ edges') : Carried given' edges' q o := by
  obtain ⟨source, hsource, path⟩ := h
  exact ⟨source, hgiven hsource, ReflTransGen.mono (fun _ _ he => hedges he) _ _ path⟩

theorem Carried.along (h : Carried given edges q o) (edge : (q, r) ∈ edges) :
    Carried given edges r o := by
  obtain ⟨source, hsource, path⟩ := h
  exact ⟨source, hsource, path.tail edge⟩

end Carried

section Carrying

variable {p : Program} {entry : Option Method} {given : List (Pointer × ObjectId)}
  {edges : List (Pointer × Pointer)} {s t : State}

theorem State.Fresh.carrying (h : s.Fresh) : Carrying [] [] s where
  unused := h.uses
  settled := h.pending
  rooted := h.rooted
  flowing := h.flowing
  linked := fun _ => iff_of_false h.no_edges List.not_mem_nil
  arrives := fun _ hx => absurd hx List.not_mem_nil
  carried := fun q o ho => absurd ho (h.not_arrives q o)

/-- Without new edges and new objects. -/
theorem Carrying.same (h : Carrying given edges s) (asked : Asked s t) (rooted : Rooted t)
    (settled : t.pending = s.pending) (hedges : t.graph.edges = s.graph.edges)
    (same : ∀ q o, t.Arrives q o → s.Arrives q o) : Carrying given edges t where
  unused := asked.uses.trans h.unused
  settled := settled.trans h.settled
  rooted := rooted
  flowing := asked.flowing h.flowing
  linked := fun e => by rw [hedges]; exact h.linked e
  arrives := fun x hx => asked.ext.arrives _ _ (h.arrives x hx)
  carried := fun q o ho => h.carried q o (same q o ho)

theorem Carrying.touch (h : Carrying given edges s) (q : Pointer) :
    Carrying given edges (s.touch q) :=
  h.same (.touch s q) (h.rooted.touch q) rfl rfl fun _ _ => State.arrives_touch.1

theorem Carrying.send (h : Carrying given edges s) {q : Pointer} {objects : ObjectSet}
    (node : q ∈ s.graph.nodes.keys) (onHeap : ∀ o ∈ objects.items, o < s.heap.size) :
    Carrying (given ++ objects.items.map fun o => (q, o)) edges (s.send q objects) where
  unused := h.unused
  settled := h.settled
  rooted := h.rooted.send node onHeap
  flowing := (Asked.send s q objects).flowing h.flowing
  linked := h.linked
  arrives := fun x hx => by
    rw [List.mem_append, List.mem_map] at hx
    rcases hx with hx | ⟨o, ho, rfl⟩
    · exact State.arrives_send.2 (.inl (h.arrives x hx))
    · exact State.arrives_send.2 (.inr ⟨rfl, ho⟩)
  carried := fun r o ho => by
    rcases State.arrives_send.1 ho with hold | ⟨rfl, hmem⟩
    · exact (h.carried r o hold).mono (List.subset_append_left _ _) (List.Subset.refl _)
    · exact ⟨r, List.mem_append_right _ (List.mem_map_of_mem hmem), .refl⟩

theorem Carrying.flow (h : Carrying given edges s) (a b : Pointer) :
    Carrying given (edges ++ [(a, b)]) (s.flow a b) where
  unused := State.uses_flow.trans h.unused
  settled := State.pending_flow.trans h.settled
  rooted := h.rooted.flow a b
  flowing := h.flowing.flow a b
  linked := fun e => by
    rw [State.mem_edges_flow, h.linked, List.mem_append, List.mem_singleton]
  arrives := fun x hx => (s.extends_flow a b).arrives _ _ (h.arrives x hx)
  carried := fun q o ho => by
    have old : ∀ {r}, s.Arrives r o → Carried given (edges ++ [(a, b)]) r o := fun hr =>
      (h.carried _ o hr).mono (List.Subset.refl _) (List.subset_append_left _ _)
    rcases State.arrives_flow.1 ho with hold | ⟨-, rfl, hmem⟩
    · exact old hold
    · exact (old (.inl hmem)).along (List.mem_append_right _ (List.mem_singleton.2 rfl))

/-- Objects that are propagated at once are carried on from their pointer. -/
theorem Carrying.propagate (h : Carrying given edges s) {q : Pointer} {objects : ObjectSet}
    (node : q ∈ s.graph.nodes.keys) (onHeap : ∀ o ∈ objects.items, o < s.heap.size) :
    Carrying (given ++ objects.items.map fun o => (q, o)) edges (s.propagate q objects).2 := by
  obtain ⟨-, -, huses, hpending, hedges⟩ := State.propagate_frame s q objects
  have brought : ∀ o ∈ objects.items,
      Carried (given ++ objects.items.map fun o => (q, o)) edges q o := fun o ho =>
    ⟨q, List.mem_append_right _ (List.mem_map_of_mem ho), .refl⟩
  refine ⟨huses.trans h.unused, hpending.trans h.settled, h.rooted.propagate fun o ho =>
    ⟨node, onHeap o ho⟩, flowing_propagate fun e he o ho => .inl (h.flowing e he o ho),
    fun e => ?_, fun x hx => ?_, fun r o ho => ?_⟩
  · rw [hedges]
    exact h.linked e
  · rw [List.mem_append, List.mem_map] at hx
    rcases hx with hx | ⟨o, ho, rfl⟩
    · exact State.arrives_propagate.2 (.inl (h.arrives x hx))
    · exact State.arrives_propagate.2 (.inr (.inl ⟨rfl, ho⟩))
  · rcases State.arrives_propagate.1 ho with hold | ⟨rfl, hmem⟩ | ⟨hedge, hfresh⟩
    · exact (h.carried r o hold).mono (List.subset_append_left _ _) (List.Subset.refl _)
    · exact brought o hmem
    · exact (brought o (State.mem_fresh.1 hfresh).1).along ((h.linked _).1 hedge)

/-! ### Deliveries -/

/-- A delivery for which there are no uses changes no more than its sets and the work list. -/
theorem deliver_of_unused {d : Delivery} {work : Queue Delivery} {r : Progress}
    (h : Carrying given edges s) (delivers : Delivers p { s with work } d r) :
    r = .going (s.take d work) := by
  have huses : (s.take d work).uses = ∅ := (take_frame s d work).2.2.1.trans h.unused
  have discovered : ∀ v o, (s.take d work).discover p v o = .going (s.take d work) := by
    intro v o
    unfold State.discover State.processCalls
    rw [usesOf_of_unused huses]
    change forEach _ ((s.take d work).usesOf v).calls (s.take d work) = _
    rw [usesOf_of_unused huses]
    rfl
  have accepted : State.accept { s with work } p d = .going (s.take d work) := by
    rw [accept_eq]
    split
    · next v hv =>
      generalize (s.fresh d.pointer d.objects).items = items
      induction items with
      | nil => rfl
      | cons o rest ih => rw [forEach, discovered, Progress.going_andThen, ih]
    · rfl
  cases delivers with
  | stop stops =>
    rw [accepted] at stops
    cases stops
  | settle goes settles =>
    rw [accepted] at goes
    cases goes
    exact settles.unique (.done ((take_frame s d work).2.2.2.1.trans h.settled))

theorem Carrying.take {d : Delivery} {work : Queue Delivery} (h : Carrying given edges s)
    (next : s.work.pop? = some (d, work)) : Carrying given edges (s.take d work) := by
  have move : Move ∅ s (s.take d work) := .take next
  obtain ⟨-, -, huses, hpending, hedges⟩ := take_frame s d work
  refine ⟨huses.trans h.unused, hpending.trans h.settled, move.rooted h.rooted,
    move.flowing h.flowing, fun e => ?_, fun x hx => move.extends.arrives _ _ (h.arrives x hx),
    fun q o ho => ?_⟩
  · rw [hedges]
    exact h.linked e
  · rcases (arrives_take next).1 ho with ho | ⟨hedge, ho⟩
    · exact h.carried q o ho
    · exact (h.carried _ o (arrives_of_fresh next ho)).along ((h.linked _).1 hedge)

theorem Carrying.analyzes {r : Progress} (h : Carrying given edges s) (analyzes : Analyzes p s r) :
    ∃ t, r = .going t ∧ Carrying given edges t ∧ t.work.pop? = none := by
  induction analyzes with
  | done idle => exact ⟨_, rfl, h, idle⟩
  | stop _ delivers => cases deliver_of_unused h delivers
  | again next delivers _ ih =>
    cases deliver_of_unused h delivers
    exact ih (h.take next)

/-- **The loop comes to an end at which nothing is on its way.** -/
theorem Carrying.analyze (h : Carrying given edges s) (p : Program) :
    ∃ t, s.analyze p = .going t ∧ Carrying given edges t ∧ t.work.pop? = none := by
  have orderly : s.Orderly := by
    constructor
    · rw [h.settled]
      exact List.nodup_nil
    · rw [h.settled]
      exact fun m hm => absurd hm List.not_mem_nil
  exact h.analyzes (ready_of_unused p orderly h.rooted h.unused).analyzes

/-- When nothing is on its way, what is carried to a pointer is there. -/
theorem Carrying.mem_pointsTo_iff (h : Carrying given edges s) (idle : s.work.pop? = none)
    (q : Pointer) (o : ObjectId) : o ∈ (s.pointsTo q).items ↔ Carried given edges q o := by
  refine ⟨fun ho => h.carried q o (.inl ho), ?_⟩
  rintro ⟨source, hsource, path⟩
  -- along the path, each edge has brought what its source has
  induction path with
  | refl => exact arrives_of_idle idle (h.arrives _ hsource)
  | tail _ edge ih => exact arrives_of_idle idle (h.flowing _ ((h.linked _).2 edge) o ih)

end Carrying

/-! ### Whole sessions -/

section Session

variable {given : List (Pointer × ObjectId)} {edges : List (Pointer × Pointer)} {s : State}

/-- **Each request goes on, and brings the objects and the edges that it is for and nothing
else.** -/
theorem Operation.carries (p : Program) (entry : Option Method) (op : Operation)
    (flow : op.isFlow) (onHeap : op.OnHeap s) (h : Carrying given edges s) :
    ∃ t, op.perform p entry s = .going t ∧
      Carrying (given ++ op.given) (edges ++ op.edges) t := by
  cases op with
  | node q => exact ⟨_, rfl, by simpa [Operation.given, Operation.edges] using h.touch q⟩
  | static f =>
    have agrees := State.agrees_touchStatic s f
    have hs := (h.touch _).same (.of_agrees agrees) ((h.rooted.touch _).of_agrees agrees)
      agrees.pending agrees.edges fun _ _ => agrees.arrives.1
    exact ⟨_, rfl, by simpa [Operation.given, Operation.edges] using hs⟩
  | object a =>
    have hs := h.same (.allocate s a) (h.rooted.allocate a) rfl rfl fun _ _ => id
    exact ⟨_, rfl, by simpa [Operation.given, Operation.edges] using hs⟩
  | connect source target =>
    exact ⟨_, rfl, by simpa [Operation.given, Operation.edges] using h.flow source target⟩
  | send q objects =>
    have hs := (h.touch q).send (State.mem_nodes_touch.2 (.inr rfl)) onHeap
    exact ⟨_, rfl, by simpa [Operation.given, Operation.edges] using hs⟩
  | propagate q objects =>
    have hs := (h.touch q).propagate (State.mem_nodes_touch.2 (.inr rfl)) onHeap
    exact ⟨_, rfl, by simpa [Operation.given, Operation.edges] using hs⟩
  | analyze =>
    obtain ⟨t, goes, ht, -⟩ := h.analyze p
    exact ⟨t, goes, by simpa [Operation.given, Operation.edges] using ht⟩
  | start | reach | processCalls | solve => cases flow

theorem Operation.forEach_carries (p : Program) (entry : Option Method) (ops : List Operation)
    (flow : ∀ op ∈ ops, op.isFlow) (onHeap : Along p entry OnHeap ops s)
    (h : Carrying given edges s) :
    ∃ t, forEach (perform p entry) ops s = .going t ∧
      Carrying (given ++ ops.flatMap Operation.given) (edges ++ ops.flatMap Operation.edges) t := by
  induction ops generalizing s given edges with
  | nil => exact ⟨s, rfl, by simpa using h⟩
  | cons op ops ih =>
    obtain ⟨hheap, hrest⟩ := onHeap
    obtain ⟨t, goes, ht⟩ := op.carries p entry (flow op (by simp)) hheap h
    rw [goes, Progress.state_going] at hrest
    obtain ⟨u, more, hu⟩ := ih (fun op hop => flow op (by simp [hop])) hrest ht
    refine ⟨u, ?_, ?_⟩
    · rw [forEach, goes, Progress.going_andThen, more]
    · rwa [List.flatMap_cons, List.flatMap_cons, ← List.append_assoc, ← List.append_assoc]

theorem Operation.session_carries (p : Program) (entry : Option Method) (h : s.Fresh)
    (ops : List Operation) (flow : ∀ op ∈ ops, op.isFlow)
    (onHeap : Along p entry OnHeap ops s) :
    ∃ t, forEach (perform p entry) (ops ++ [.analyze]) s = .going t ∧
      Carrying (ops.flatMap Operation.given) (ops.flatMap Operation.edges) t ∧
      t.work.pop? = none := by
  obtain ⟨t, goes, ht⟩ := forEach_carries p entry ops flow onHeap h.carrying
  obtain ⟨u, ends, hu, idle⟩ := ht.analyze p
  refine ⟨u, ?_, hu, idle⟩
  rw [forEach_append, goes, Progress.going_andThen, forEach, perform, ends]
  rfl

end Session

/-- **After nodes, objects and edges in any order, with deliveries taken at any moments and once
more at the end, a pointer has just the objects that were given to a pointer from which a path of
edges leads to it. So requests that give the same objects and ask for the same edges end with the
same sets.** -/
theorem session_closes_flow (p : Program) (entry : Option Method) (heap : Heap)
    (phantoms : PhantomFields) (log : Array Event) (ops : List Operation)
    (flow : ∀ op ∈ ops, op.isFlow)
    (onHeap : Operation.Along p entry Operation.OnHeap ops { heap, phantoms, log }) :
    ∃ t, forEach (Operation.perform p entry) (ops ++ [.analyze]) { heap, phantoms, log } =
        .going t ∧
      (∀ e, e ∈ t.graph.edges.items ↔ e ∈ ops.flatMap Operation.edges) ∧
      (∀ q o, o ∈ (t.pointsTo q).items ↔
        ∃ source, (source, o) ∈ ops.flatMap Operation.given ∧
          ReflTransGen (fun a b => (a, b) ∈ t.graph.edges.items) source q) ∧
      ∀ ops' : List Operation, (∀ op ∈ ops', op.isFlow) →
        Operation.Along p entry Operation.OnHeap ops' { heap, phantoms, log } →
        (∀ x, x ∈ ops'.flatMap Operation.given ↔ x ∈ ops.flatMap Operation.given) →
        (∀ e, e ∈ ops'.flatMap Operation.edges ↔ e ∈ ops.flatMap Operation.edges) →
        ∃ t', forEach (Operation.perform p entry) (ops' ++ [.analyze]) { heap, phantoms, log } =
            .going t' ∧
          ∀ q o, o ∈ (t'.pointsTo q).items ↔ o ∈ (t.pointsTo q).items := by
  have fresh := State.fresh_initial heap phantoms log
  obtain ⟨t, goes, ht, idle⟩ := Operation.session_carries p entry fresh ops flow onHeap
  refine ⟨t, goes, ht.linked, fun q o => ?_, fun ops' flow' onHeap' given edges => ?_⟩
  · rw [ht.mem_pointsTo_iff idle, Carried]
    simp only [ht.linked]
  · obtain ⟨t', goes', ht', idle'⟩ := Operation.session_carries p entry fresh ops' flow' onHeap'
    refine ⟨t', goes', fun q o => ?_⟩
    rw [ht.mem_pointsTo_iff idle, ht'.mem_pointsTo_iff idle', Carried, Carried]
    simp only [given, edges]

/-- A cycle that is closed, and left by another edge, after objects have been carried. -/
def tangled : List Operation :=
  [.object ⟨.detached 0, "A"⟩, .propagate (.element 0) (OrderedSet.ofList [0]),
    .connect (.element 0) (.element 1), .analyze, .connect (.element 1) (.element 0),
    .connect (.element 1) (.element 2), .object ⟨.detached 1, "B"⟩,
    .send (.element 1) (OrderedSet.ofList [1, 0])]

/-- The same objects and edges, one of the edges twice. -/
def untangled : List Operation :=
  [.object ⟨.detached 0, "A"⟩, .object ⟨.detached 1, "B"⟩, .connect (.element 1) (.element 2),
    .connect (.element 0) (.element 1), .connect (.element 1) (.element 0),
    .connect (.element 1) (.element 2),
    .send (.element 1) (OrderedSet.ofList [0, 1]), .send (.element 0) (OrderedSet.ofList [0])]

theorem untangled_same :
    (untangled.flatMap Operation.given).Perm (tangled.flatMap Operation.given) ∧
      untangled.flatMap Operation.edges ⊆ tangled.flatMap Operation.edges ∧
      tangled.flatMap Operation.edges ⊆ untangled.flatMap Operation.edges := by
  decide

theorem session_closes_flow_tangled :
    (∀ op ∈ tangled, op.isFlow) ∧
      Operation.Along ∅ none Operation.OnHeap tangled {} ∧
      ∃ t t', forEach (Operation.perform ∅ none) (tangled ++ [.analyze]) {} = .going t ∧
        (∀ e, e ∈ t.graph.edges.items ↔ e ∈ tangled.flatMap Operation.edges) ∧
        (∀ q o, o ∈ (t.pointsTo q).items ↔
          ∃ source, (source, o) ∈ tangled.flatMap Operation.given ∧
            ReflTransGen (fun a b => (a, b) ∈ t.graph.edges.items) source q) ∧
        forEach (Operation.perform ∅ none) (untangled ++ [.analyze]) {} = .going t' ∧
        ∀ q o, o ∈ (t'.pointsTo q).items ↔ o ∈ (t.pointsTo q).items := by
  have flow : ∀ op ∈ tangled, op.isFlow := by decide
  have onHeap : Operation.Along ∅ none Operation.OnHeap tangled {} := by decide
  have flow' : ∀ op ∈ untangled, op.isFlow := by decide
  have onHeap' : Operation.Along ∅ none Operation.OnHeap untangled {} := by decide
  obtain ⟨t, goes, edges, sets, same⟩ := session_closes_flow ∅ none ∅ ∅ #[] tangled flow onHeap
  obtain ⟨given, fewer, more⟩ := untangled_same
  obtain ⟨t', goes', sets'⟩ := same untangled flow' onHeap' (fun _ => given.mem_iff)
    fun _ => ⟨fun he => fewer he, fun he => more he⟩
  exact ⟨flow, onHeap, t, t', goes, edges, sets, goes', sets'⟩

end PointsTo.Solver
