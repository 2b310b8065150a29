import PointsTo.Analysis

/-!
What the actions of the analysis change. Every action is described by what it does to the parts of
the state that later actions read: the heap, the sets of objects, the edges of both graphs, the
reachable methods, the uses, the pending methods and the work list.
-/
namespace PointsTo.Solver.State

/-- The object has reached the pointer or is on its way there. -/
def Arrives (s : State) (q : Pointer) (o : ObjectId) : Prop :=
  o ∈ (s.pointsTo q).items ∨ ∃ d ∈ s.work.toList, d.pointer = q ∧ o ∈ d.objects.items

/-- The two states agree in everything that actions read, and have the same deliveries behind
them. There may be more entry methods. -/
structure Agrees (s t : State) : Prop where
  heap : t.heap = s.heap
  nodes : t.graph.nodes = s.graph.nodes
  edges : t.graph.edges = s.graph.edges
  entries : ∀ m ∈ s.calls.entries.items, m ∈ t.calls.entries.items
  reachable : t.calls.reachable = s.calls.reachable
  callEdges : t.calls.edges = s.calls.edges
  uses : t.uses = s.uses
  pending : t.pending = s.pending
  work : t.work = s.work
  iterations : t.iterations = s.iterations
  sent : t.sent = s.sent
  history : t.history = s.history

theorem Agrees.pointsTo {s t : State} (h : s.Agrees t) (q : Pointer) :
    t.pointsTo q = s.pointsTo q := by
  unfold State.pointsTo FlowGraph.pointsTo
  rw [h.nodes]

theorem Agrees.usesOf {s t : State} (h : s.Agrees t) (v : Variable) : t.usesOf v = s.usesOf v :=
  State.usesOf_congr h.uses v

theorem Agrees.arrives {s t : State} (h : s.Agrees t) {q : Pointer} {o : ObjectId} :
    t.Arrives q o ↔ s.Arrives q o := by
  unfold Arrives
  rw [h.pointsTo, h.work]

theorem Agrees.refl (s : State) : s.Agrees s := by
  constructor <;> first | rfl | exact fun _ => id

theorem agrees_record (s : State) (e : Event) : s.Agrees (s.record e) := by
  constructor <;> first | rfl | exact fun _ => id

theorem agrees_resolve (s : State) (p : Program) (ref : FieldRef) :
    s.Agrees (s.resolve p ref).2 := by
  constructor <;> first | rfl | exact fun _ => id

theorem agrees_serve (s : State) (v : Variable) (o : ObjectId) (use : Use) :
    s.Agrees (s.serve v o use) := by
  constructor <;> first | rfl | exact fun _ => id

/-! ### Nodes -/

@[simp] theorem pointsTo_touch (s : State) (p q : Pointer) :
    (s.touch p).pointsTo q = s.pointsTo q :=
  FlowGraph.pointsTo_touch s.graph p q

@[simp] theorem mem_nodes_touch {s : State} {p q : Pointer} :
    q ∈ (s.touch p).graph.nodes.keys ↔ q ∈ s.graph.nodes.keys ∨ q = p :=
  Roster.mem_keys_add

@[simp] theorem arrives_touch {s : State} {p q : Pointer} {o : ObjectId} :
    (s.touch p).Arrives q o ↔ s.Arrives q o := by
  unfold Arrives
  rw [pointsTo_touch]
  rfl

theorem agrees_touchStatic (s : State) (f : Field) :
    (s.touch (.static f.id)).Agrees (s.touchStatic f) := by
  constructor <;> first | rfl | exact fun _ => id

/-! ### Work -/

theorem arrives_send {s : State} {p q : Pointer} {objects : ObjectSet} {o : ObjectId} :
    (s.send p objects).Arrives q o ↔ s.Arrives q o ∨ (q = p ∧ o ∈ objects.items) := by
  have hwork : (s.send p objects).work.toList = s.work.toList ++ [⟨p, objects⟩] :=
    Queue.toList_push s.work ⟨p, objects⟩
  have hset : (s.send p objects).pointsTo q = s.pointsTo q := rfl
  unfold Arrives
  rw [hwork, hset]
  constructor
  · rintro (h | ⟨d, hd, rfl, ho⟩)
    · exact .inl (.inl h)
    · rcases List.mem_append.1 hd with hd | hd
      · exact .inl (.inr ⟨d, hd, rfl, ho⟩)
      · obtain rfl := List.mem_singleton.1 hd
        exact .inr ⟨rfl, ho⟩
  · rintro ((h | ⟨d, hd, rfl, ho⟩) | ⟨rfl, ho⟩)
    · exact .inl h
    · exact .inr ⟨d, List.mem_append_left _ hd, rfl, ho⟩
    · exact .inr ⟨⟨q, objects⟩, List.mem_append_right _ (List.mem_singleton.2 rfl), rfl, ho⟩

theorem size_work_send (s : State) (p : Pointer) (objects : ObjectSet) :
    (s.send p objects).work.size = s.work.size + 1 := by
  rw [← Queue.length_toList, ← Queue.length_toList]
  simp [send]

/-! ### Edges -/

/-- The state with one more edge, before anything is sent along it. -/
def withEdge (s : State) (a b : Pointer) : State :=
  { s with graph := { s.graph with edges := s.graph.edges.add (a, b) } }

theorem mem_edges_withEdge {s : State} {a b : Pointer} {e : Pointer × Pointer} :
    e ∈ (s.withEdge a b).graph.edges.items ↔ e ∈ s.graph.edges.items ∨ e = (a, b) :=
  OrderedSet.mem_add

theorem addFlow_of_mem {s : State} {a b : Pointer} (h : (a, b) ∈ s.graph.edges.items) :
    s.addFlow a b = s := by
  have hadd : s.graph.edges.add (a, b) = s.graph.edges :=
    Roster.add_of_mem (by rwa [OrderedSet.keys_eq_items])
  simp [addFlow, FlowGraph.tryAddEdge, Roster.tryAdd, Roster.contains, h, hadd]

theorem addFlow_of_not_mem {s : State} {a b : Pointer} (h : (a, b) ∉ s.graph.edges.items) :
    s.addFlow a b =
      if (s.pointsTo a).isEmpty then s.withEdge a b
      else (s.withEdge a b).send b (s.pointsTo a) := by
  have hunfold : s.addFlow a b =
      if !s.graph.edges.contains (a, b) && !(s.pointsTo a).isEmpty then
        (s.withEdge a b).send b (s.pointsTo a)
      else s.withEdge a b := rfl
  have hfree : s.graph.edges.contains (a, b) = false :=
    Roster.contains_eq_false.2 (by rw [OrderedSet.keys_eq_items]; exact h)
  rw [hunfold, hfree]
  cases (s.pointsTo a).isEmpty <;> rfl

section Flow

variable {s : State} {a b q : Pointer} {o : ObjectId}

/-- Nothing but the graph and the work list depends on an edge. -/
theorem flow_frame (s : State) (a b : Pointer) :
    (s.flow a b).heap = s.heap ∧ (s.flow a b).calls = s.calls ∧ (s.flow a b).uses = s.uses ∧
      (s.flow a b).pending = s.pending ∧
      (s.flow a b).graph.nodes = ((s.touch a).touch b).graph.nodes := by
  unfold flow
  by_cases h : (a, b) ∈ ((s.touch a).touch b).graph.edges.items
  · rw [addFlow_of_mem h]
    exact ⟨rfl, rfl, rfl, rfl, rfl⟩
  · rw [addFlow_of_not_mem h]
    split <;> exact ⟨rfl, rfl, rfl, rfl, rfl⟩

@[simp] theorem heap_flow : (s.flow a b).heap = s.heap := (flow_frame s a b).1

@[simp] theorem calls_flow : (s.flow a b).calls = s.calls := (flow_frame s a b).2.1

@[simp] theorem uses_flow : (s.flow a b).uses = s.uses := (flow_frame s a b).2.2.1

@[simp] theorem pending_flow : (s.flow a b).pending = s.pending := (flow_frame s a b).2.2.2.1

@[simp] theorem usesOf_flow (v : Variable) : (s.flow a b).usesOf v = s.usesOf v :=
  usesOf_congr uses_flow v

@[simp] theorem pointsTo_flow : (s.flow a b).pointsTo q = s.pointsTo q := by
  have h := (flow_frame s a b).2.2.2.2
  unfold State.pointsTo FlowGraph.pointsTo
  rw [h]
  exact (pointsTo_touch (s.touch a) b q).trans (pointsTo_touch s a q)

theorem mem_nodes_flow :
    q ∈ (s.flow a b).graph.nodes.keys ↔ q ∈ s.graph.nodes.keys ∨ q = a ∨ q = b := by
  rw [(flow_frame s a b).2.2.2.2, mem_nodes_touch, mem_nodes_touch, or_assoc]

theorem mem_edges_flow {e : Pointer × Pointer} :
    e ∈ (s.flow a b).graph.edges.items ↔ e ∈ s.graph.edges.items ∨ e = (a, b) := by
  unfold flow
  by_cases h : (a, b) ∈ ((s.touch a).touch b).graph.edges.items
  · rw [addFlow_of_mem h]
    constructor
    · exact .inl
    · rintro (he | rfl)
      · exact he
      · exact h
  · rw [addFlow_of_not_mem h]
    split <;> exact mem_edges_withEdge

/-- An edge brings on its way what its source points to, and only if it is new. -/
theorem arrives_flow :
    (s.flow a b).Arrives q o ↔
      s.Arrives q o ∨ ((a, b) ∉ s.graph.edges.items ∧ q = b ∧ o ∈ (s.pointsTo a).items) := by
  have hset : ∀ r, ((s.touch a).touch b).pointsTo r = s.pointsTo r := by simp
  have htouch : ∀ {r x}, ((s.touch a).touch b).Arrives r x ↔ s.Arrives r x := by
    intro r x
    unfold Arrives
    rw [hset]
    rfl
  have hedge : ∀ {r x}, (((s.touch a).touch b).withEdge a b).Arrives r x ↔ s.Arrives r x :=
    htouch
  unfold flow
  by_cases h : (a, b) ∈ ((s.touch a).touch b).graph.edges.items
  · rw [addFlow_of_mem h, htouch]
    constructor
    · exact .inl
    · rintro (ha | ⟨hn, -⟩)
      · exact ha
      · exact absurd h hn
  · rw [addFlow_of_not_mem h]
    split
    · next he =>
      rw [hset] at he
      have hnil : (s.pointsTo a).items = [] := List.isEmpty_iff.1 he
      rw [hedge, hnil]
      simp
    · rw [arrives_send, hedge, hset]
      exact or_congr_right ⟨fun hq => ⟨h, hq⟩, And.right⟩

theorem sent_flow (s : State) (a b : Pointer) :
    (s.flow a b).work.size + s.graph.edges.size ≤
      s.work.size + (s.flow a b).graph.edges.size := by
  unfold flow
  by_cases h : (a, b) ∈ ((s.touch a).touch b).graph.edges.items
  · rw [addFlow_of_mem h]
    exact Nat.le_refl _
  · rw [addFlow_of_not_mem h]
    have hsize : (((s.touch a).touch b).withEdge a b).graph.edges.size =
        s.graph.edges.size + 1 := by
      have h' := Roster.size_add s.graph.edges (a, b)
      rw [OrderedSet.keys_eq_items] at h'
      exact h'.trans (if_neg h)
    have hwork : (((s.touch a).touch b).withEdge a b).work = s.work := rfl
    split
    · rw [hsize, hwork]
      omega
    · have hsend := size_work_send (((s.touch a).touch b).withEdge a b) b
        (((s.touch a).touch b).pointsTo a)
      have hedges : ((((s.touch a).touch b).withEdge a b).send b
          (((s.touch a).touch b).pointsTo a)).graph.edges.size = s.graph.edges.size + 1 := hsize
      rw [hsend, hedges, hwork]
      omega

theorem calls_passReceiver (s : State) (call : Call) (callee : Method) :
    (s.passReceiver call callee).calls = s.calls := by
  unfold passReceiver
  split
  · exact calls_flow
  · rfl

end Flow

/-! ### Calls -/

section Reach

variable {s : State} {m n : MethodName}

theorem reach_of_mem (h : m ∈ s.calls.reachable.items) : s.reach m = s := by
  have hadd : s.calls.reachable.add m = s.calls.reachable :=
    Roster.add_of_mem (by rwa [OrderedSet.keys_eq_items])
  simp [reach, CallGraph.tryReach, Roster.tryAdd, Roster.contains, h, hadd]

theorem reach_of_not_mem (h : m ∉ s.calls.reachable.items) :
    s.reach m =
      { s with
        calls := { s.calls with reachable := s.calls.reachable.add m }
        pending := s.pending ++ [m]
        log := s.log.push (.reached m) } := by
  simp [reach, CallGraph.tryReach, Roster.tryAdd, Roster.contains, h, record]

/-- Nothing but the reachable and the pending methods depends on what is reached. -/
theorem reach_frame (s : State) (m : MethodName) :
    (s.reach m).heap = s.heap ∧ (s.reach m).graph = s.graph ∧ (s.reach m).uses = s.uses ∧
      (s.reach m).work = s.work ∧ (s.reach m).calls.edges = s.calls.edges := by
  by_cases h : m ∈ s.calls.reachable.items
  · rw [reach_of_mem h]
    exact ⟨rfl, rfl, rfl, rfl, rfl⟩
  · rw [reach_of_not_mem h]
    exact ⟨rfl, rfl, rfl, rfl, rfl⟩

theorem mem_reachable_reach :
    n ∈ (s.reach m).calls.reachable.items ↔ n ∈ s.calls.reachable.items ∨ n = m := by
  by_cases h : m ∈ s.calls.reachable.items
  · rw [reach_of_mem h]
    constructor
    · exact .inl
    · rintro (hn | rfl) <;> assumption
  · rw [reach_of_not_mem h]
    exact OrderedSet.mem_add

theorem pending_reach (s : State) (m : MethodName) :
    (s.reach m).pending = if m ∈ s.calls.reachable.items then s.pending else s.pending ++ [m] := by
  by_cases h : m ∈ s.calls.reachable.items
  · rw [reach_of_mem h, if_pos h]
  · rw [reach_of_not_mem h, if_neg h]

end Reach

/-- The state behind a call edge, before the call is bound: the edge is there, and if it is new its
callee is reachable. -/
def withCall (s : State) (site : CallSite) (callee : MethodName) : State :=
  let edge := CallEdge.ofCall site callee
  let (isNew, calls) := s.calls.tryAddEdge edge
  let s := { s with calls }
  if isNew then (s.record (.linked edge)).reach callee else s

section WithCall

variable {s : State} {site : CallSite} {callee : MethodName}

theorem withCall_of_mem (h : (site, callee) ∈ s.calls.edges.keys) : s.withCall site callee = s := by
  have hadd : s.calls.edges.add (.ofCall site callee) = s.calls.edges := Roster.add_of_mem h
  have hold : s.calls.edges.contains (CallEdge.ofCall site callee).ends = true :=
    Roster.contains_iff.2 h
  simp [withCall, CallGraph.tryAddEdge, Roster.tryAdd, hold, hadd]

/-- A new call edge with the event that records it. -/
def linked (s : State) (site : CallSite) (callee : MethodName) : State :=
  { s with
    calls := { s.calls with edges := s.calls.edges.add (.ofCall site callee) }
    log := s.log.push (.linked (.ofCall site callee)) }

theorem withCall_of_not_mem (h : (site, callee) ∉ s.calls.edges.keys) :
    s.withCall site callee = (s.linked site callee).reach callee := by
  have hnew : s.calls.edges.contains (CallEdge.ofCall site callee).ends = false :=
    Roster.contains_eq_false.2 h
  simp [withCall, CallGraph.tryAddEdge, Roster.tryAdd, hnew, linked, record]

theorem withCall_frame (s : State) (site : CallSite) (callee : MethodName) :
    (s.withCall site callee).heap = s.heap ∧ (s.withCall site callee).graph = s.graph ∧
      (s.withCall site callee).uses = s.uses ∧ (s.withCall site callee).work = s.work := by
  by_cases h : (site, callee) ∈ s.calls.edges.keys
  · rw [withCall_of_mem h]
    exact ⟨rfl, rfl, rfl, rfl⟩
  · rw [withCall_of_not_mem h]
    obtain ⟨hh, hg, hu, hw, -⟩ := reach_frame (s.linked site callee) callee
    exact ⟨hh, hg, hu, hw⟩

theorem mem_edges_withCall {k : CallSite × MethodName} :
    k ∈ (s.withCall site callee).calls.edges.keys ↔
      k ∈ s.calls.edges.keys ∨ k = (site, callee) := by
  by_cases h : (site, callee) ∈ s.calls.edges.keys
  · rw [withCall_of_mem h]
    constructor
    · exact .inl
    · rintro (hk | rfl) <;> assumption
  · rw [withCall_of_not_mem h, (reach_frame _ _).2.2.2.2]
    exact Roster.mem_keys_add

theorem mem_reachable_withCall {n : MethodName} :
    n ∈ (s.withCall site callee).calls.reachable.items ↔
      n ∈ s.calls.reachable.items ∨ ((site, callee) ∉ s.calls.edges.keys ∧ n = callee) := by
  by_cases h : (site, callee) ∈ s.calls.edges.keys
  · rw [withCall_of_mem h]
    constructor
    · exact .inl
    · rintro (hn | ⟨hnot, -⟩)
      · exact hn
      · exact absurd h hnot
  · rw [withCall_of_not_mem h, mem_reachable_reach]
    exact or_congr_right ⟨fun hn => ⟨h, hn⟩, And.right⟩

/-- A call edge puts down its callee exactly where it makes it reachable. -/
theorem pending_withCall (s : State) (site : CallSite) (callee : MethodName) :
    (s.withCall site callee).pending =
      if (site, callee) ∈ s.calls.edges.keys ∨ callee ∈ s.calls.reachable.items then s.pending
      else s.pending ++ [callee] := by
  by_cases h : (site, callee) ∈ s.calls.edges.keys
  · rw [withCall_of_mem h, if_pos (.inl h)]
  · have hpending : (s.linked site callee).pending = s.pending := rfl
    have hreachable : (s.linked site callee).calls.reachable = s.calls.reachable := rfl
    rw [withCall_of_not_mem h, pending_reach, hpending, hreachable]
    simp only [h, false_or]

/-- Connecting a call adds its edge and binds the call the first time. -/
theorem connect_eq (s : State) (site : CallSite) (callee : Method) (more : State → State) :
    s.connect site callee more =
      if (site, callee.id) ∈ s.calls.edges.keys then .going s
      else
        match callee.body with
        | none => .going (more (s.withCall site callee.id))
        | some body =>
          ((s.withCall site callee.id).bind site callee.id body).andThen
            fun t => .going (more t) := by
  by_cases h : (site, callee.id) ∈ s.calls.edges.keys
  · rw [if_pos h]
    have hadd : s.calls.edges.add (.ofCall site callee.id) = s.calls.edges :=
      Roster.add_of_mem h
    have hold : s.calls.edges.contains (CallEdge.ofCall site callee.id).ends = true :=
      Roster.contains_iff.2 h
    simp [connect, CallGraph.tryAddEdge, Roster.tryAdd, hold, hadd]
  · rw [if_neg h, withCall_of_not_mem h]
    have hnew : s.calls.edges.contains (CallEdge.ofCall site callee.id).ends = false :=
      Roster.contains_eq_false.2 h
    simp only [connect, CallGraph.tryAddEdge, Roster.tryAdd, hnew, Bool.not_false, Bool.not_true,
      Bool.false_eq_true, if_false]
    rfl

end WithCall

/-! ### Uses -/

theorem base_usesOf (s : State) (v : Variable) : (s.usesOf v).base = v := by
  unfold usesOf
  cases h : s.uses.get? v with
  | none => rfl
  | some u => exact Roster.key_of_get? h

theorem usesOf_addUse (s : State) (v w : Variable) (change : Uses → Uses) :
    (s.addUse v change).usesOf w =
      if v = w then { change (s.usesOf v) with base := v } else s.usesOf w := by
  unfold addUse usesOf
  rw [Roster.get?_put]
  split
  · next h => rw [← h]; rfl
  · rfl

/-! ### Deliveries -/

theorem foldl_send (objects : ObjectSet) (targets : List Pointer) (s : State) :
    ∃ work sent, targets.foldl (fun s q => s.send q objects) s = { s with work, sent } ∧
      work.toList = s.work.toList ++ (targets.map fun q => ⟨q, objects⟩) ∧
      sent.toList = s.sent.toList ++ targets.map fun q => ⟨q, objects⟩ := by
  induction targets generalizing s with
  | nil => exact ⟨s.work, s.sent, rfl, by simp, by simp⟩
  | cons q rest ih =>
    obtain ⟨work, sent, heq, hlist, hsent⟩ := ih (s.send q objects)
    refine ⟨work, sent, heq, ?_, ?_⟩
    · have hsend : (s.send q objects).work.toList = s.work.toList ++ [⟨q, objects⟩] :=
        Queue.toList_push s.work ⟨q, objects⟩
      rw [hlist, hsend]
      simp
    · have hsend : (s.send q objects).sent.toList = s.sent.toList ++ [⟨q, objects⟩] :=
        Array.toList_push
      rw [hsent, hsend]
      simp

section Propagate

variable {s : State} {p q : Pointer} {objects : ObjectSet} {o : ObjectId}

def fresh (s : State) (p : Pointer) (objects : ObjectSet) : ObjectSet :=
  objects.diff (s.pointsTo p)

/-- The state in which a delivery has been recorded. -/
def noted (s : State) (p : Pointer) (objects : ObjectSet) : State :=
  { s with history := s.history.push ⟨p, objects, s.fresh p objects⟩ }

/-- The state in which the new objects of a delivery have been added to its pointer. -/
def received (s : State) (p : Pointer) (objects : ObjectSet) : State :=
  { s.noted p objects with
    graph := s.graph.assign p ((s.pointsTo p).union (s.fresh p objects)) }

theorem propagate_eq (s : State) (p : Pointer) (objects : ObjectSet) :
    s.propagate p objects =
      (s.fresh p objects,
        if (s.fresh p objects).isEmpty then s.noted p objects
        else (s.graph.successors p).foldl (fun t q => t.send q (s.fresh p objects))
          (s.received p objects)) := by
  have hunfold : s.propagate p objects =
      if (s.fresh p objects).isEmpty then (s.fresh p objects, s.noted p objects)
      else (s.fresh p objects, (s.graph.successors p).foldl
        (fun t q => t.send q (s.fresh p objects)) (s.received p objects)) := rfl
  rw [hunfold]
  split <;> rfl

theorem mem_fresh : o ∈ (s.fresh p objects).items ↔ o ∈ objects.items ∧ o ∉ (s.pointsTo p).items :=
  OrderedSet.mem_diff

/-- Propagation changes nothing but the graph, the work list and the history. -/
theorem propagate_frame (s : State) (p : Pointer) (objects : ObjectSet) :
    (s.propagate p objects).2.heap = s.heap ∧ (s.propagate p objects).2.calls = s.calls ∧
      (s.propagate p objects).2.uses = s.uses ∧ (s.propagate p objects).2.pending = s.pending ∧
      (s.propagate p objects).2.graph.edges = s.graph.edges := by
  rw [propagate_eq]
  dsimp only
  split
  · exact ⟨rfl, rfl, rfl, rfl, rfl⟩
  · obtain ⟨work, sent, heq, -⟩ :=
      foldl_send (s.fresh p objects) (s.graph.successors p) (s.received p objects)
    rw [heq]
    exact ⟨rfl, rfl, rfl, rfl, rfl⟩

theorem mem_nodes_propagate (h : q ∈ s.graph.nodes.keys) :
    q ∈ (s.propagate p objects).2.graph.nodes.keys := by
  rw [propagate_eq]
  dsimp only
  split
  · exact h
  · obtain ⟨work, sent, heq, -⟩ :=
      foldl_send (s.fresh p objects) (s.graph.successors p) (s.received p objects)
    rw [heq]
    exact Roster.mem_keys_put.2 (.inl h)

/-- A delivery adds its objects to its pointer and to no other. -/
theorem mem_pointsTo_propagate :
    o ∈ ((s.propagate p objects).2.pointsTo q).items ↔
      o ∈ (s.pointsTo q).items ∨ (q = p ∧ o ∈ objects.items) := by
  have hunion : o ∈ ((s.received p objects).pointsTo q).items ↔
      o ∈ (s.pointsTo q).items ∨ (q = p ∧ o ∈ objects.items) := by
    have h := FlowGraph.pointsTo_assign s.graph p q ((s.pointsTo p).union (s.fresh p objects))
    change (s.received p objects).pointsTo q = _ at h
    rw [h]
    by_cases hq : p = q
    · subst hq
      rw [if_pos rfl, OrderedSet.mem_union, mem_fresh]
      by_cases ho : o ∈ (s.pointsTo p).items <;> simp [ho]
    · rw [if_neg hq]
      constructor
      · exact .inl
      · rintro (ho | ⟨rfl, -⟩)
        · exact ho
        · exact absurd rfl hq
  rw [propagate_eq]
  dsimp only
  split
  · next hempty =>
    have hnone : ∀ o, o ∉ (s.fresh p objects).items := by
      rw [List.isEmpty_iff.1 hempty]
      simp
    constructor
    · exact .inl
    · rintro (ho | ⟨rfl, ho⟩)
      · exact ho
      · exact Classical.byContradiction fun hn => hnone o (mem_fresh.2 ⟨ho, hn⟩)
  · obtain ⟨work, sent, heq, -⟩ :=
      foldl_send (s.fresh p objects) (s.graph.successors p) (s.received p objects)
    rw [heq]
    exact hunion

/-- After a delivery its objects are with the pointer, and the new ones are on their way to every
successor. -/
theorem arrives_propagate :
    (s.propagate p objects).2.Arrives q o ↔
      s.Arrives q o ∨ (q = p ∧ o ∈ objects.items) ∨
        ((p, q) ∈ s.graph.edges.items ∧ o ∈ (s.fresh p objects).items) := by
  have hwork : (∃ d ∈ (s.propagate p objects).2.work.toList, d.pointer = q ∧ o ∈ d.objects.items) ↔
      (∃ d ∈ s.work.toList, d.pointer = q ∧ o ∈ d.objects.items) ∨
        ((p, q) ∈ s.graph.edges.items ∧ o ∈ (s.fresh p objects).items) := by
    rw [propagate_eq]
    dsimp only
    split
    · next hempty =>
      have hnone : o ∉ (s.fresh p objects).items := by
        rw [List.isEmpty_iff.1 hempty]
        simp
      simp [hnone, noted]
    · obtain ⟨work, sent, heq, hlist, -⟩ :=
        foldl_send (s.fresh p objects) (s.graph.successors p) (s.received p objects)
      rw [heq, hlist]
      constructor
      · rintro ⟨d, hd, rfl, ho⟩
        rcases List.mem_append.1 hd with hd | hd
        · exact .inl ⟨d, hd, rfl, ho⟩
        · obtain ⟨r, hr, rfl⟩ := List.mem_map.1 hd
          exact .inr ⟨FlowGraph.mem_successors.1 hr, ho⟩
      · rintro (⟨d, hd, rfl, ho⟩ | ⟨he, ho⟩)
        · exact ⟨d, List.mem_append_left _ hd, rfl, ho⟩
        · exact ⟨⟨q, s.fresh p objects⟩, List.mem_append_right _
            (List.mem_map_of_mem (FlowGraph.mem_successors.2 he)), rfl, ho⟩
  unfold Arrives
  rw [hwork, mem_pointsTo_propagate]
  exact or_or_or_comm

theorem size_work_propagate (s : State) (p : Pointer) (objects : ObjectSet) :
    (s.propagate p objects).2.work.size =
      s.work.size + if (s.fresh p objects).isEmpty then 0 else (s.graph.successors p).length := by
  rw [propagate_eq]
  dsimp only
  split
  · rfl
  · obtain ⟨work, sent, heq, hlist, -⟩ :=
      foldl_send (s.fresh p objects) (s.graph.successors p) (s.received p objects)
    have hlength := congrArg List.length hlist
    rw [List.length_append, List.length_map, Queue.length_toList, Queue.length_toList] at hlength
    rw [heq]
    exact hlength

end Propagate

end PointsTo.Solver.State
