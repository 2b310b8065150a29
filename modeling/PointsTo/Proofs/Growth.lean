import PointsTo.Proofs.Steps

/-!
The state only grows: objects keep their numbers, sets of objects, edges, reachable methods, call
edges and uses stay once they are there, and an object on its way to a pointer does not get lost.
A run of the analysis is a sequence of moves, each of which is a step of an allowed trigger, the
choice of a pending method, or a delivery.
-/
namespace PointsTo.Solver

/-- The uses have a use that the instruction makes. The place counts for a call only. -/
def Uses.Has (u : Uses) (place : Place) : Instruction → Prop
  | .storeField _ f source => (f, source) ∈ u.stores
  | .loadField target _ f => (target, f) ∈ u.loads
  | .storeElement _ source => source ∈ u.elementStores
  | .loadElement target _ => target ∈ u.elementLoads
  | .call call => ⟨place, call⟩ ∈ u.calls
  | _ => False

/-- Whatever is done through a variable by the first uses is done by the second. -/
def Uses.Within (u w : Uses) : Prop := ∀ place i, u.Has place i → w.Has place i

theorem Uses.within_rfl (u : Uses) : u.Within u := fun _ _ => id

theorem Uses.Within.trans {u v w : Uses} (h : u.Within v) (h' : v.Within w) : u.Within w :=
  fun place i hi => h' place i (h place i hi)

theorem Uses.has_register_of_has {u : Uses} {base : Variable} {place place' : Place}
    {i j : Instruction} (h : u.Has place' j) :
    ({ u.register place i with base } : Uses).Has place' j := by
  cases j <;> cases i <;> first | exact h | exact List.mem_append_left _ h

/-- A statement that acts through a variable registers itself and nothing else. -/
theorem Uses.has_register {u : Uses} {v : Variable} {place place' : Place} {i j : Instruction}
    (hi : base? i = some v) (hj : base? j = some v)
    (h : ({ u.register place i with base := v } : Uses).Has place' j) :
    u.Has place' j ∨ ((∀ call, i = .call call → place' = place) ∧ j = i) := by
  cases i <;> simp only [base?, reduceCtorEq] at hi <;> cases j <;>
    simp only [base?, reduceCtorEq] at hj <;>
    simp_all [Uses.register, Uses.Has]

namespace State

/-- Everything that the first state has found is in the second. -/
structure Extends (s t : State) : Prop where
  heap : s.heap.items <+: t.heap.items
  objects : ∀ q, ∀ o ∈ (s.pointsTo q).items, o ∈ (t.pointsTo q).items
  arrives : ∀ q o, s.Arrives q o → t.Arrives q o
  edges : ∀ e ∈ s.graph.edges.items, e ∈ t.graph.edges.items
  reachable : ∀ m ∈ s.calls.reachable.items, m ∈ t.calls.reachable.items
  callEdges : ∀ k ∈ s.calls.edges.keys, k ∈ t.calls.edges.keys
  uses : ∀ v, (s.usesOf v).Within (t.usesOf v)

theorem Extends.refl (s : State) : s.Extends s :=
  ⟨List.prefix_rfl, fun _ _ => id, fun _ _ => id, fun _ => id, fun _ => id, fun _ => id,
    fun v => (s.usesOf v).within_rfl⟩

theorem Extends.trans {s t u : State} (h : s.Extends t) (h' : t.Extends u) : s.Extends u :=
  ⟨h.heap.trans h'.heap, fun q o ho => h'.objects q o (h.objects q o ho),
    fun q o ho => h'.arrives q o (h.arrives q o ho), fun e he => h'.edges e (h.edges e he),
    fun m hm => h'.reachable m (h.reachable m hm), fun k hk => h'.callEdges k (h.callEdges k hk),
    fun v => (h.uses v).trans (h'.uses v)⟩

theorem Extends.allocation? {s t : State} (h : s.Extends t) {o : ObjectId} {a : Allocation}
    (ha : s.heap.allocation? o = some a) : t.heap.allocation? o = some a := by
  obtain ⟨more, hmore⟩ := h.heap
  unfold Heap.allocation? at ha ⊢
  rw [← hmore]
  exact List.getElem?_append_left (List.getElem?_eq_some_iff.1 ha).1 ▸ ha

theorem Extends.locate? {s t : State} (h : s.Extends t) {q : Pointer} {l : Location}
    (hl : s.heap.locate? q = some l) : t.heap.locate? q = some l := by
  cases q with
  | var | static => exact hl
  | field base f =>
    obtain ⟨a, ha, rfl⟩ := Option.map_eq_some_iff.1 hl
    exact Heap.locate?_field f (h.allocation? ha)
  | element array =>
    obtain ⟨a, ha, rfl⟩ := Option.map_eq_some_iff.1 hl
    exact Heap.locate?_element (h.allocation? ha)

theorem Agrees.extends {s t : State} (h : s.Agrees t) : s.Extends t := by
  refine ⟨h.heap ▸ List.prefix_rfl, ?_, fun q o => h.arrives.2, ?_, ?_, ?_, ?_⟩
  · intro q o ho
    rwa [h.pointsTo]
  · rw [h.edges]; exact fun _ => id
  · rw [h.reachable]; exact fun _ => id
  · rw [h.callEdges]; exact fun _ => id
  · intro v
    rw [h.usesOf]
    exact Uses.within_rfl _

theorem extends_flow (s : State) (a b : Pointer) : s.Extends (s.flow a b) := by
  refine ⟨heap_flow ▸ List.prefix_rfl, ?_, fun q o ho => arrives_flow.2 (.inl ho),
    fun e he => mem_edges_flow.2 (.inl he), ?_, ?_, ?_⟩
  · intro q o ho
    rwa [pointsTo_flow]
  · rw [calls_flow]; exact fun _ => id
  · rw [calls_flow]; exact fun _ => id
  · intro v
    rw [usesOf_flow]
    exact Uses.within_rfl _

theorem extends_withCall (s : State) (site : CallSite) (callee : MethodName) :
    s.Extends (s.withCall site callee) := by
  obtain ⟨hheap, hgraph, huses, hwork⟩ := withCall_frame s site callee
  have hset : ∀ q, (s.withCall site callee).pointsTo q = s.pointsTo q := by
    intro q
    unfold State.pointsTo
    rw [hgraph]
  refine ⟨hheap ▸ List.prefix_rfl, ?_, ?_, ?_, fun m hm => mem_reachable_withCall.2 (.inl hm),
    fun k hk => mem_edges_withCall.2 (.inl hk), ?_⟩
  · intro q o ho
    rwa [hset]
  · intro q o ho
    unfold Arrives at ho ⊢
    rwa [hset, hwork]
  · rw [hgraph]; exact fun _ => id
  · intro v
    rw [usesOf_congr huses]
    exact Uses.within_rfl _

theorem greet_frame (s : State) (callee : Method) (c : Trigger) :
    (s.greet callee c).heap = s.heap ∧ (s.greet callee c).calls = s.calls ∧
      (s.greet callee c).uses = s.uses ∧ (s.greet callee c).pending = s.pending ∧
      (s.greet callee c).graph.edges = s.graph.edges ∧
      ∀ q, (s.greet callee c).pointsTo q = s.pointsTo q := by
  cases c with
  | statement => exact ⟨rfl, rfl, rfl, rfl, rfl, fun _ => rfl⟩
  | object uses o type =>
    unfold greet
    cases receiverOf callee with
    | none => exact ⟨rfl, rfl, rfl, rfl, rfl, fun _ => rfl⟩
    | some self => exact ⟨rfl, rfl, rfl, rfl, rfl, pointsTo_touch s (.var self)⟩

theorem arrives_greet {s : State} {callee : Method} {c : Trigger} {q : Pointer} {o : ObjectId} :
    (s.greet callee c).Arrives q o ↔
      s.Arrives q o ∨ ∃ uses type self, c = .object uses o type ∧
        receiverOf callee = some self ∧ q = .var self := by
  cases c with
  | statement => simp [greet]
  | object uses o' type =>
    unfold greet
    cases hself : receiverOf callee with
    | none => simp
    | some self =>
      rw [arrives_send, arrives_touch, OrderedSet.mem_ofList, List.mem_singleton]
      refine or_congr_right ⟨?_, ?_⟩
      · rintro ⟨rfl, rfl⟩
        exact ⟨uses, type, self, rfl, rfl, rfl⟩
      · rintro ⟨uses', type', self', hc, hs, rfl⟩
        cases hc
        cases hs
        exact ⟨rfl, rfl⟩

theorem mem_nodes_greet {s : State} {callee : Method} {c : Trigger} {q : Pointer} :
    q ∈ (s.greet callee c).graph.nodes.keys ↔
      q ∈ s.graph.nodes.keys ∨ ∃ uses o type self, c = .object uses o type ∧
        receiverOf callee = some self ∧ q = .var self := by
  cases c with
  | statement => simp [greet]
  | object uses o type =>
    unfold greet
    cases hself : receiverOf callee with
    | none => simp
    | some self =>
      refine mem_nodes_touch.trans (or_congr_right ⟨?_, ?_⟩)
      · rintro rfl
        exact ⟨uses, o, type, self, rfl, rfl, rfl⟩
      · rintro ⟨uses', o', type', self', -, hs, rfl⟩
        rw [Option.some.inj hs]

theorem extends_greet (s : State) (callee : Method) (c : Trigger) :
    s.Extends (s.greet callee c) := by
  obtain ⟨hheap, hcalls, huses, -, hedges, hset⟩ := s.greet_frame callee c
  refine ⟨hheap ▸ List.prefix_rfl, ?_, fun q o ho => arrives_greet.2 (.inl ho), ?_, ?_, ?_, ?_⟩
  · intro q o ho
    rwa [hset]
  · rw [hedges]; exact fun _ => id
  · rw [hcalls]; exact fun _ => id
  · rw [hcalls]; exact fun _ => id
  · intro v
    rw [usesOf_congr huses]
    exact Uses.within_rfl _

theorem called_frame (s : State) (c : Trigger) (site : CallSite) (callee : Method) :
    ((s.greet callee c).withCall site callee.id).heap = s.heap ∧
      ((s.greet callee c).withCall site callee.id).uses = s.uses ∧
      ((s.greet callee c).withCall site callee.id).graph.edges = s.graph.edges ∧
      (∀ q, ((s.greet callee c).withCall site callee.id).pointsTo q = s.pointsTo q) ∧
      (∀ {k}, k ∈ ((s.greet callee c).withCall site callee.id).calls.edges.keys ↔
        k ∈ s.calls.edges.keys ∨ k = (site, callee.id)) ∧
      (∀ {m}, m ∈ ((s.greet callee c).withCall site callee.id).calls.reachable.items ↔
        m ∈ s.calls.reachable.items ∨ ((site, callee.id) ∉ s.calls.edges.keys ∧ m = callee.id)) ∧
      ∀ {q o}, ((s.greet callee c).withCall site callee.id).Arrives q o ↔
        s.Arrives q o ∨ ∃ uses type self, c = .object uses o type ∧
          receiverOf callee = some self ∧ q = .var self := by
  obtain ⟨hheap, hcalls, huses, -, hedges, hset⟩ := s.greet_frame callee c
  obtain ⟨wheap, wgraph, wuses, wwork⟩ := withCall_frame (s.greet callee c) site callee.id
  have hpoints : ∀ q, ((s.greet callee c).withCall site callee.id).pointsTo q =
      (s.greet callee c).pointsTo q := by
    intro q
    unfold State.pointsTo
    rw [wgraph]
  refine ⟨wheap.trans hheap, wuses.trans huses, by rw [wgraph, hedges],
    fun q => (hpoints q).trans (hset q), ?_, ?_, ?_⟩
  · intro k
    rw [mem_edges_withCall, hcalls]
  · intro m
    rw [mem_reachable_withCall, hcalls]
  · intro q o
    rw [← arrives_greet]
    unfold Arrives
    rw [hpoints, wwork]

end State

/-- A step only adds to the state. -/
theorem Step.extends {p : Program} {c : Trigger} {s t : State} (h : Step p c s t) :
    s.Extends t := by
  cases h with
  | quiet agrees => exact agrees.extends
  | @touch _ _ a b q demand isEnd =>
    refine ⟨List.prefix_rfl, ?_, ?_, fun _ => id, fun _ => id, fun _ => id,
      fun v => Uses.within_rfl _⟩
    · intro r o ho
      rwa [State.pointsTo_touch]
    · exact fun r o => State.arrives_touch.2
  | flow demand => exact s.extends_flow _ _
  | @allocate m place target type =>
    refine ⟨s.heap.prefix_objectOf ⟨place, type⟩, ?_, ?_, fun _ => id, fun _ => id, fun _ => id,
      fun v => Uses.within_rfl _⟩
    · intro q o ho
      change o ∈ (((s.allocate ⟨place, type⟩).2.touch (.var target)).pointsTo q).items
      rw [State.pointsTo_touch]
      exact ho
    · exact fun q o ho => State.arrives_send.2 (.inl (State.arrives_touch.2 ho))
  | @use m place i =>
    refine ⟨List.prefix_rfl, fun _ _ => id, fun _ _ => id, fun _ => id, fun _ => id, fun _ => id,
      ?_⟩
    intro v
    rw [State.usesOf_addUse]
    split
    · next hv =>
      subst hv
      exact fun _ _ => Uses.has_register_of_has
    · exact Uses.within_rfl _
  | @call _ _ site callee calls =>
    exact (s.extends_greet callee c).trans (State.extends_withCall _ site callee.id)

/-! ### What a step can add -/

/-- Why a step sends an object to a pointer: along a new edge, at its allocation, or because it is
the object for which a call is dispatched. -/
inductive Sends (p : Program) (s t : State) : Trigger → Pointer → ObjectId → Prop
  | forward {c a b o} (demand : Demands p s c a b) (mem : o ∈ (s.pointsTo a).items) :
      Sends p s t c b o
  | allocate {m place target type o} (object : t.heap.allocation? o = some ⟨place, type⟩) :
      Sends p s t (.statement m place (.allocate target type)) (.var target) o
  | greet {uses o type site callee self}
      (calls : Trigger.Calls p (.object uses o type) site callee)
      (edge : (site, callee.id) ∈ t.calls.edges.keys)
      (isSelf : State.receiverOf callee = some self) :
      Sends p s t (.object uses o type) (.var self) o

/-- What a step puts down is what it reaches for the first time, by a call of its trigger. -/
def Reaches (p : Program) (c : Trigger) (s t : State) : Prop :=
  ∃ new, t.pending = s.pending ++ new ∧
    t.calls.reachable.items = s.calls.reachable.items ++ new ∧
    ∀ m ∈ new, m ∉ s.calls.reachable.items ∧
      ∃ site callee, Trigger.Calls p c site callee ∧ m = callee.id ∧
        (site, m) ∈ t.calls.edges.keys

/-- Everything that is new after a step, and why. -/
structure Adds (p : Program) (c : Trigger) (s t : State) : Prop where
  heap : ∀ a ∈ t.heap.items, a ∈ s.heap.items ∨
    ∃ m target, c = .statement m a.place (.allocate target a.type)
  objects : ∀ q, t.pointsTo q = s.pointsTo q
  arrives : ∀ q o, t.Arrives q o → s.Arrives q o ∨ Sends p s t c q o
  edges : ∀ e ∈ t.graph.edges.items, e ∈ s.graph.edges.items ∨ Demands p s c e.1 e.2
  callEdges : ∀ k ∈ t.calls.edges.keys, k ∈ s.calls.edges.keys ∨
    ∃ callee, Trigger.Calls p c k.1 callee ∧ k.2 = callee.id
  reached : Reaches p c s t
  uses : ∀ v, t.usesOf v = s.usesOf v ∨ ∃ m place i, c = .statement m place i ∧
    base? i = some v ∧ t.usesOf v = { (s.usesOf v).register place i with base := v }

section Adds

variable {p : Program} {c : Trigger} {s t : State}

theorem not_reached (hp : t.pending = s.pending) (hr : t.calls.reachable = s.calls.reachable) :
    Reaches p c s t :=
  ⟨[], by simp [hp], by simp [hr], by simp⟩

/-- A call edge makes its callee reachable and puts it down, or neither. -/
theorem reached_withCall {site : CallSite} {callee : Method}
    (calls : Trigger.Calls p c site callee) : Reaches p c s (s.withCall site callee.id) := by
  by_cases hold : (site, callee.id) ∈ s.calls.edges.keys
  · rw [State.withCall_of_mem hold]
    exact not_reached rfl rfl
  · have hedge : (site, callee.id) ∈ (s.withCall site callee.id).calls.edges.keys :=
      State.mem_edges_withCall.2 (.inr rfl)
    by_cases hr : callee.id ∈ s.calls.reachable.items
    · refine not_reached ?_ ?_
      · rw [State.pending_withCall, if_pos (.inr hr)]
      · have hr' : callee.id ∈ (s.linked site callee.id).calls.reachable.items := hr
        rw [State.withCall_of_not_mem hold, State.reach_of_mem hr']
        rfl
    · refine ⟨[callee.id], ?_, ?_, ?_⟩
      · rw [State.pending_withCall, if_neg (not_or.2 ⟨hold, hr⟩)]
      · have hr' : callee.id ∉ (s.linked site callee.id).calls.reachable.items := hr
        rw [State.withCall_of_not_mem hold, State.reach_of_not_mem hr']
        have hadd := Roster.items_add s.calls.reachable callee.id
        rw [OrderedSet.keys_eq_items, if_neg hr] at hadd
        exact hadd
      · rintro m hm
        obtain rfl := List.mem_singleton.1 hm
        exact ⟨hr, site, callee, calls, rfl, hedge⟩

theorem adds_of_agrees (h : s.Agrees t) : Adds p c s t := by
  refine ⟨?_, h.pointsTo, fun q o ho => .inl (h.arrives.1 ho), ?_, ?_,
    not_reached h.pending h.reachable, fun v => .inl (h.usesOf v)⟩
  · rw [h.heap]; exact fun _ => .inl
  · rw [h.edges]; exact fun _ => .inl
  · rw [h.callEdges]; exact fun _ => .inl

theorem adds_touch (q : Pointer) : Adds p c s (s.touch q) :=
  ⟨fun _ => .inl, State.pointsTo_touch s q, fun _ _ ho => .inl (State.arrives_touch.1 ho),
    fun _ => .inl, fun _ => .inl, not_reached rfl rfl, fun _ => .inl rfl⟩

theorem adds_flow {a b : Pointer} (demand : Demands p s c a b) : Adds p c s (s.flow a b) := by
  refine ⟨by rw [State.heap_flow]; exact fun _ => .inl, fun q => State.pointsTo_flow, ?_, ?_,
    by rw [State.calls_flow]; exact fun _ => .inl,
    not_reached State.pending_flow (by rw [State.calls_flow]),
    fun v => .inl (State.usesOf_flow v)⟩
  · intro q o ho
    rcases State.arrives_flow.1 ho with hold | ⟨-, rfl, hmem⟩
    · exact .inl hold
    · exact .inr (.forward demand hmem)
  · intro e he
    rcases State.mem_edges_flow.1 he with he | rfl
    · exact .inl he
    · exact .inr demand

theorem adds_allocate {m : Method} {place : Place} {target : Variable} {type : String} :
    Adds p (.statement m place (.allocate target type)) s
      (((s.allocate ⟨place, type⟩).2.touch (.var target)).send (.var target)
        (OrderedSet.ofList [(s.allocate ⟨place, type⟩).1])) := by
  have hobject := s.heap.allocation?_objectOf ⟨place, type⟩
  refine ⟨?_, fun q => State.pointsTo_touch _ _ q, ?_, fun _ => .inl, fun _ => .inl,
    not_reached rfl rfl, fun _ => .inl rfl⟩
  · intro a ha
    rcases Heap.mem_objectOf.1 ha with ha | rfl
    · exact .inl ha
    · exact .inr ⟨m, target, rfl⟩
  · intro q o ho
    rcases State.arrives_send.1 ho with hold | ⟨rfl, hmem⟩
    · exact .inl (State.arrives_touch.1 hold)
    · rw [OrderedSet.mem_ofList, List.mem_singleton] at hmem
      subst hmem
      exact .inr (.allocate hobject)

theorem adds_call {site : CallSite} {callee : Method} (calls : Trigger.Calls p c site callee) :
    Adds p c s ((s.greet callee c).withCall site callee.id) := by
  obtain ⟨hheap, huses, hedges, hset, hcall, hreach, hgreet⟩ := s.called_frame c site callee
  have sends : ∀ {uses o type self}, c = .object uses o type →
      State.receiverOf callee = some self →
      Sends p s ((s.greet callee c).withCall site callee.id) c (.var self) o := by
    rintro uses o type self rfl hself
    exact .greet calls (hcall.2 (.inr rfl)) hself
  refine ⟨by rw [hheap]; exact fun _ => .inl, hset, ?_, by rw [hedges]; exact fun _ => .inl, ?_,
    ?_, ?_⟩
  · intro q o ho
    rcases hgreet.1 ho with ho | ⟨uses, type, self, hc, hself, rfl⟩
    · exact .inl ho
    · exact .inr (sends hc hself)
  · intro k hk
    rcases hcall.1 hk with hk | rfl
    · exact .inl hk
    · exact .inr ⟨callee, calls, rfl⟩
  · obtain ⟨new, hp, hr, hnew⟩ := reached_withCall (s := s.greet callee c) calls
    obtain ⟨-, gcalls, -, gpending, -, -⟩ := s.greet_frame callee c
    rw [gcalls] at hr hnew
    rw [gpending] at hp
    exact ⟨new, hp, hr, hnew⟩
  · exact fun v => .inl (State.usesOf_congr huses v)

/-- **A step adds nothing that its trigger does not ask for.** -/
theorem Step.adds (h : Step p c s t) : Adds p c s t := by
  cases h with
  | quiet agrees => exact adds_of_agrees agrees
  | touch => exact adds_touch _
  | flow demand => exact adds_flow demand
  | allocate => exact adds_allocate
  | @use m place i base _ isBase =>
    refine ⟨fun _ => .inl, fun _ => rfl, fun _ _ => .inl, fun _ => .inl, fun _ => .inl,
      not_reached rfl rfl, ?_⟩
    intro v
    rw [State.usesOf_addUse]
    split
    · next hv =>
      subst hv
      exact .inr ⟨m, place, i, rfl, isBase, rfl⟩
    · exact .inl rfl
  | call calls => exact adds_call calls

end Adds

/-! ### What stays as it is -/

/-- Sets of objects stay as they are, and methods that are reached are put down. -/
structure Acted (s t : State) : Prop where
  ext : s.Extends t
  objects : ∀ q, t.pointsTo q = s.pointsTo q
  reached : ∃ new, t.pending = s.pending ++ new ∧
    t.calls.reachable.items = s.calls.reachable.items ++ new

section Acted

variable {p : Program} {c : Trigger} {s t u : State} {n : Nat}

theorem Acted.refl (s : State) : Acted s s := ⟨.refl s, fun _ => rfl, [], by simp, by simp⟩

theorem Acted.trans (h : Acted s t) (h' : Acted t u) : Acted s u := by
  obtain ⟨new, hp, hr⟩ := h.reached
  obtain ⟨new', hp', hr'⟩ := h'.reached
  exact ⟨h.ext.trans h'.ext, fun q => (h'.objects q).trans (h.objects q), new ++ new',
    by rw [hp', hp, List.append_assoc], by rw [hr', hr, List.append_assoc]⟩

theorem Step.acted (h : Step p c s t) : Acted s t := by
  obtain ⟨new, hp, hr, -⟩ := h.adds.reached
  exact ⟨h.extends, h.adds.objects, new, hp, hr⟩

theorem Acts.acted (h : Acts p c n s t) : Acted s t := by
  obtain ⟨steps, -⟩ := h
  induction steps with
  | refl => exact .refl s
  | tail _ step ih => exact ih.trans step.acted

/-- What is put down is reached for the first time. -/
theorem Acted.put_down (h : Acted s t) : ∃ new, t.pending = s.pending ++ new ∧
    t.calls.reachable.items = s.calls.reachable.items ++ new ∧ new.Nodup ∧
    ∀ m ∈ new, m ∉ s.calls.reachable.items := by
  obtain ⟨new, hp, hr⟩ := h.reached
  have hkeys : (s.calls.reachable.items ++ new).Nodup := by
    have h' := t.calls.reachable.keys_nodup
    rwa [OrderedSet.keys_eq_items, hr] at h'
  obtain ⟨-, hnew, hdisjoint⟩ := List.nodup_append.1 hkeys
  exact ⟨new, hp, hr, hnew, fun m hm hold => hdisjoint m hold m hm rfl⟩

/-- A method that is not pending afterwards and was not pending before was reached before. -/
theorem Acted.reached_before (h : Acted s t) {name : MethodName}
    (hr : name ∈ t.calls.reachable.items) (hp : name ∉ t.pending) :
    name ∈ s.calls.reachable.items ∧ name ∉ s.pending := by
  obtain ⟨new, hpending, hreachable⟩ := h.reached
  rw [hpending, List.mem_append, not_or] at hp
  rw [hreachable, List.mem_append] at hr
  exact ⟨hr.resolve_right hp.2, hp.1⟩

end Acted

/-! ### Registered uses -/

section Registered

variable {p : Program} {m : Method} {place : Place} {i : Instruction} {v : Variable}

/-- A statement that acts through a variable is registered with it, and that is all. -/
theorem process_eq_addUse (s : State) (h : base? i = some v) :
    s.process p m place i = .going (s.addUse v fun u => u.register place i) := by
  cases i with
  | call call =>
    obtain ⟨kind, hr⟩ := base?_call.1 h
    simp only [State.process, if_neg kind, hr]
    rfl
  | loadField | storeField | loadElement | storeElement =>
    obtain rfl := Option.some.inj h
    rfl
  | _ => cases h

theorem eq_addUse_of_process {s t : State} (h : base? i = some v)
    (goes : s.process p m place i = .going t) : t = s.addUse v fun u => u.register place i := by
  rw [process_eq_addUse s h] at goes
  exact (Progress.going.inj goes).symm

/-- Any other statement registers nothing. -/
theorem Acts.usesOf_eq {n : Nat} {s t : State} (h : Acts p (.statement m place i) n s t)
    (hbase : base? i = none) (w : Variable) : t.usesOf w = s.usesOf w := by
  obtain ⟨steps, -⟩ := h
  induction steps with
  | refl => rfl
  | tail _ step ih =>
    rcases step.adds.uses w with hsame | ⟨m', place', j, hc, hj, -⟩
    · exact hsame.trans ih
    · cases hc
      rw [hbase] at hj
      cases hj

end Registered

end PointsTo.Solver
