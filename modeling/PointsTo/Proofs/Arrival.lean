import PointsTo.Proofs.Leastness

/-!
Where objects are. They are on the heap, and the pointers that they can reach have nodes. Along
every edge the objects of its source have reached its target or are on their way there. A variable
that an object can reach belongs to no method that has not been reached, and as long as its method
is pending the variable is empty: the uses of a variable are registered before any object can
reach it.
-/
namespace PointsTo.Solver

/-- What the source of an edge has, its target has or is about to get. -/
def Flowing (s : State) : Prop :=
  ∀ e ∈ s.graph.edges.items, ∀ o ∈ (s.pointsTo e.1).items, s.Arrives e.2 o

/-- The ends of edges have nodes, and so has what an object can reach; the object is on the
heap. -/
structure Rooted (s : State) : Prop where
  edges : ∀ e ∈ s.graph.edges.items, e.1 ∈ s.graph.nodes.keys ∧ e.2 ∈ s.graph.nodes.keys
  arrives : ∀ q o, s.Arrives q o → q ∈ s.graph.nodes.keys ∧ o < s.heap.size

/-- If the variable belongs to a method of the program, the method has been reached. -/
def Home (p : Program) (s : State) (v : Variable) : Prop :=
  ∀ m ∈ p.methods, v.method = m.signature → m.id ∈ s.calls.reachable.items

/-- The method of a variable that an object can reach has been reached. -/
structure Known (p : Program) (s : State) (v : Variable) : Prop where
  edges : ∀ q, (q, .var v) ∈ s.graph.edges.items → Home p s v
  arrives : ∀ o, s.Arrives (.var v) o → Home p s v

/-- A variable that has an object belongs to a method that has been reached. -/
def Resident (p : Program) (s : State) (v : Variable) : Prop :=
  ∀ o ∈ (s.pointsTo (.var v)).items, Home p s v

/-- The variable of a pending method is empty. -/
def Dry (p : Program) (s : State) (v : Variable) : Prop :=
  ∀ name ∈ s.pending, ∀ m, p.method? name = some m → v.method = m.signature →
    (s.pointsTo (.var v)).items = []

/-- What holds of a state whatever has been asked for. -/
structure Faithful (p : Program) (s : State) : Prop where
  orderly : s.Orderly
  uses : UsesStated p s
  rooted : Rooted s
  flowing : Flowing s
  callees : ∀ k ∈ s.calls.edges.keys, k.2 ∈ s.calls.reachable.items

section Rooted

variable {p : Program} {c : Trigger} {s t : State}

theorem Step.nodes (step : Step p c s t) {q : Pointer} (hq : q ∈ s.graph.nodes.keys) :
    q ∈ t.graph.nodes.keys := by
  cases step with
  | quiet agrees => rwa [agrees.nodes]
  | touch => exact State.mem_nodes_touch.2 (.inl hq)
  | flow => exact State.mem_nodes_flow.2 (.inl hq)
  | allocate => exact State.mem_nodes_touch.2 (.inl hq)
  | use => exact hq
  | @call _ _ site callee calls =>
    rw [(State.withCall_frame _ _ _).2.1]
    exact State.mem_nodes_greet.2 (.inl hq)

/-- Without new edges, every object that is sent has to be on the heap and its pointer to have a
node. -/
theorem Rooted.keep (h : Rooted s) (nodes : ∀ q ∈ s.graph.nodes.keys, q ∈ t.graph.nodes.keys)
    (heap : s.heap.size ≤ t.heap.size) (edges : t.graph.edges = s.graph.edges)
    (arrives : ∀ q o, t.Arrives q o →
      s.Arrives q o ∨ (q ∈ t.graph.nodes.keys ∧ o < t.heap.size)) : Rooted t := by
  refine ⟨fun e he => ?_, fun q o ho => ?_⟩
  · rw [edges] at he
    exact ⟨nodes _ (h.edges e he).1, nodes _ (h.edges e he).2⟩
  · rcases arrives q o ho with ho | ho
    · exact ⟨nodes _ (h.arrives q o ho).1, (h.arrives q o ho).2.trans_le heap⟩
    · exact ho

theorem Rooted.flow (h : Rooted s) (a b : Pointer) : Rooted (s.flow a b) := by
  have nodes : ∀ {q}, q ∈ s.graph.nodes.keys → q ∈ (s.flow a b).graph.nodes.keys :=
    fun hq => State.mem_nodes_flow.2 (.inl hq)
  have target : b ∈ (s.flow a b).graph.nodes.keys := State.mem_nodes_flow.2 (.inr (.inr rfl))
  refine ⟨fun e he => ?_, fun q o ho => ?_⟩
  · rcases State.mem_edges_flow.1 he with he | rfl
    · exact ⟨nodes (h.edges e he).1, nodes (h.edges e he).2⟩
    · exact ⟨State.mem_nodes_flow.2 (.inr (.inl rfl)), target⟩
  · rw [State.heap_flow]
    rcases State.arrives_flow.1 ho with hold | ⟨-, rfl, hmem⟩
    · exact ⟨nodes (h.arrives q o hold).1, (h.arrives q o hold).2⟩
    · exact ⟨target, (h.arrives a o (.inl hmem)).2⟩

/-- A step leaves nothing without a node, provided that the object of its trigger is on the
heap. -/
theorem Step.rooted (h : Rooted s)
    (object : ∀ uses o type, c = .object uses o type → o < s.heap.size) (step : Step p c s t) :
    Rooted t := by
  have nodes : ∀ q ∈ s.graph.nodes.keys, q ∈ t.graph.nodes.keys := fun _ => step.nodes
  have hsize : s.heap.size ≤ t.heap.size := step.extends.heap.length_le
  cases step with
  | quiet agrees =>
    exact h.keep nodes hsize agrees.edges fun q o ho => .inl (agrees.arrives.1 ho)
  | touch => exact h.keep nodes hsize rfl fun q o ho => .inl (State.arrives_touch.1 ho)
  | use => exact h.keep nodes hsize rfl fun q o => .inl
  | @flow _ _ a b => exact h.flow a b
  | @allocate m place target type =>
    refine h.keep nodes hsize rfl fun q o ho => ?_
    rcases State.arrives_send.1 ho with hold | ⟨rfl, hmem⟩
    · exact .inl (State.arrives_touch.1 hold)
    · rw [OrderedSet.mem_ofList, List.mem_singleton] at hmem
      subst hmem
      have hobject := s.heap.allocation?_objectOf ⟨place, type⟩
      exact .inr ⟨State.mem_nodes_touch.2 (.inr rfl), (List.getElem?_eq_some_iff.1 hobject).1⟩
  | @call _ _ site callee calls =>
    obtain ⟨-, -, hedges, -, -, -, hgreet⟩ := s.called_frame c site callee
    refine h.keep nodes hsize hedges fun q o ho => ?_
    rcases hgreet.1 ho with ho | ⟨uses, type, self, hc, hself, rfl⟩
    · exact .inl ho
    · refine .inr ⟨?_, (object uses o type hc).trans_le hsize⟩
      rw [(State.withCall_frame _ _ _).2.1]
      exact State.mem_nodes_greet.2 (.inr ⟨uses, o, type, self, hc, hself, rfl⟩)

/-- A delivery sends its objects where edges lead. -/
theorem Rooted.propagate (h : Rooted s) {q : Pointer} {objects : ObjectSet}
    (given : ∀ o ∈ objects.items, q ∈ s.graph.nodes.keys ∧ o < s.heap.size) :
    Rooted (s.propagate q objects).2 := by
  obtain ⟨hheap, -, -, -, hedges⟩ := State.propagate_frame s q objects
  have nodes : ∀ r ∈ s.graph.nodes.keys, r ∈ (s.propagate q objects).2.graph.nodes.keys :=
    fun _ => State.mem_nodes_propagate
  refine h.keep nodes (Nat.le_of_eq (congrArg Roster.size hheap.symm)) hedges fun r o ho => ?_
  rw [hheap]
  rcases State.arrives_propagate.1 ho with hold | ⟨rfl, hmem⟩ | ⟨hedge, hfresh⟩
  · exact .inl hold
  · exact .inr ⟨nodes _ (given o hmem).1, (given o hmem).2⟩
  · exact .inr ⟨nodes _ (h.edges _ hedge).2, (given o (State.mem_fresh.1 hfresh).1).2⟩

/-- **Every pointer that an object can reach has a node.** -/
theorem Move.rooted (h : Rooted s) (move : Move p s t) : Rooted t := by
  cases move with
  | settle => exact ⟨h.edges, h.arrives⟩
  | @act c _ _ allowed step =>
    refine step.rooted h fun uses o type hc => ?_
    subst hc
    exact (h.arrives _ o (.inl allowed.2.1)).2
  | @take _ d work next =>
    have popped : Rooted (s.popped work) :=
      ⟨h.edges, fun q o ho => h.arrives q o ((arrives_popped next).1 (.inl ho))⟩
    exact popped.propagate fun o ho => h.arrives _ o (arrives_of_next next rfl ho)

end Rooted

section Flowing

variable {p : Program} {c : Trigger} {s t : State}

/-- Without new edges, nothing gets lost as long as the sets stay as they are. -/
theorem Flowing.keep (h : Flowing s) (acted : Acted s t)
    (edges : t.graph.edges = s.graph.edges) : Flowing t := by
  intro e he o ho
  rw [edges] at he
  rw [acted.objects] at ho
  exact acted.ext.arrives _ _ (h e he o ho)

/-- A new edge brings on its way what its source has. -/
theorem Flowing.flow (h : Flowing s) (a b : Pointer) : Flowing (s.flow a b) := by
  intro e he o ho
  rw [State.pointsTo_flow] at ho
  by_cases hold : e ∈ s.graph.edges.items
  · exact (s.extends_flow a b).arrives _ _ (h e hold o ho)
  · obtain rfl : e = (a, b) := (State.mem_edges_flow.1 he).resolve_left hold
    exact State.arrives_flow.2 (.inr ⟨hold, rfl, ho⟩)

theorem Step.flowing (h : Flowing s) (step : Step p c s t) : Flowing t := by
  have acted := step.acted
  cases step with
  | quiet agrees => exact h.keep acted agrees.edges
  | touch => exact h.keep acted rfl
  | allocate => exact h.keep acted rfl
  | use => exact h.keep acted rfl
  | call => exact h.keep acted (s.called_frame _ _ _).2.2.1
  | @flow _ _ a b demand => exact h.flow a b

/-- Nothing gets lost by a delivery of objects that were on their way. -/
theorem flowing_propagate {q : Pointer} {objects : ObjectSet}
    (h : ∀ e ∈ s.graph.edges.items, ∀ o ∈ (s.pointsTo e.1).items,
      s.Arrives e.2 o ∨ (e.2 = q ∧ o ∈ objects.items)) : Flowing (s.propagate q objects).2 := by
  intro e he o ho
  rw [(State.propagate_frame s q objects).2.2.2.2] at he
  refine State.arrives_propagate.2 ?_
  by_cases hold : o ∈ (s.pointsTo e.1).items
  · exact (h e he o hold).imp_right .inl
  · obtain ⟨hsource, hgiven⟩ := (State.mem_pointsTo_propagate.1 ho).resolve_left hold
    exact .inr (.inr ⟨hsource ▸ he, State.mem_fresh.2 ⟨hgiven, hsource ▸ hold⟩⟩)

/-- **Nothing that an edge has to carry gets lost.** -/
theorem Move.flowing (h : Flowing s) (move : Move p s t) : Flowing t := by
  cases move with
  | act _ step => exact step.flowing h
  | settle => exact h
  | @take _ d work next =>
    exact flowing_propagate (s := s.popped work) fun e he o ho =>
      (arrives_popped next).2 (h e he o ho)

end Flowing

section Faithful

variable {p : Program} {c : Trigger} {s t : State}

theorem Step.callees (h : ∀ k ∈ s.calls.edges.keys, k.2 ∈ s.calls.reachable.items)
    (step : Step p c s t) : ∀ k ∈ t.calls.edges.keys, k.2 ∈ t.calls.reachable.items := by
  intro k hk
  cases step with
  | quiet agrees =>
    rw [agrees.callEdges] at hk
    rw [agrees.reachable]
    exact h k hk
  | flow =>
    rw [State.calls_flow] at hk ⊢
    exact h k hk
  | touch | allocate | use => exact h k hk
  | @call _ _ site callee calls =>
    obtain ⟨-, -, -, -, hcall, hreach, -⟩ := s.called_frame c site callee
    rcases hcall.1 hk with hold | rfl
    · exact hreach.2 (.inl (h k hold))
    · by_cases hold : (site, callee.id) ∈ s.calls.edges.keys
      · exact hreach.2 (.inl (h _ hold))
      · exact hreach.2 (.inr ⟨hold, rfl⟩)

theorem Move.faithful (h : Faithful p s) (move : Move p s t) : Faithful p t := by
  refine ⟨move.orderly h.orderly, move.usesStated h.uses, move.rooted h.rooted,
    move.flowing h.flowing, ?_⟩
  cases move with
  | act _ step => exact step.callees h.callees
  | settle => exact h.callees
  | @take _ d work next =>
    rw [(take_frame s d work).2.1]
    exact h.callees

/-- **What holds whatever has been asked for, every run keeps.** -/
theorem moves_faithful (run : Relation.ReflTransGen (Move p) s t) (h : Faithful p s) :
    Faithful p t :=
  moves_keep (fun _ _ hs move => move.faithful hs) run h

end Faithful

theorem base?_mem_vars {i : Instruction} {v : Variable} (h : base? i = some v) : v ∈ i.vars := by
  cases i with
  | call call => simp [Instruction.vars, (base?_call.1 h).2]
  | loadField | storeField | loadElement | storeElement =>
    obtain rfl := Option.some.inj h
    simp [Instruction.vars]
  | _ => cases h

section Known

variable {p : Program} {c : Trigger} {s t : State}

theorem Home.mono {v : Variable} (h : Home p s v) (hle : s.Extends t) : Home p t v :=
  fun m hm hv => hle.reachable _ (h m hm hv)

/-- A variable of a method that has been reached is that of no other. -/
theorem home_of_method (hp : p.Proper) {m : Method} (hm : p.method? m.id = some m)
    (hreach : m.id ∈ s.calls.reachable.items) {v : Variable} (hv : v.method = m.signature) :
    Home p s v := by
  intro m' hm' hv'
  have hsame : m = m' := hp.eq_of_signature (Program.mem_methods_of_method? hm) hm'
    (hv.symm.trans hv')
  exact hsame ▸ hreach

theorem home_of_stated (hp : p.Proper) {place : Place} {i : Instruction}
    (h : Stated p s place i) {v : Variable} (hv : v ∈ i.vars) : Home p s v := by
  obtain ⟨name, hname, m, hm, hmem⟩ := h
  have hid : m.id = name := hp.id_of_method? hm
  exact home_of_method hp (hid ▸ hm) (hid ▸ hname) (hp.owned_of_placed hm hmem hv)

theorem home_of_bound (hp : p.Proper) {m : Method} (hm : p.method? m.id = some m)
    (hreach : m.id ∈ s.calls.reachable.items) {b : Body} (hb : m.body = some b) {v : Variable}
    (hv : v ∈ b.bound) : Home p s v :=
  home_of_method hp hm hreach
    ((hp.owned (Program.mem_methods_of_method? hm)).bound b hb v hv)

/-- An edge that an allowed trigger asks for leads to a variable of a method that has been
reached. -/
theorem Demands.home (hp : p.Proper) (huses : UsesStated p s) (ha : c.Allowed p s)
    {a b : Pointer} {v : Variable} (hd : Demands p s c a b) (hb : b = .var v) : Home p s v := by
  cases hd with
  | copy =>
    cases hb
    exact home_of_stated hp ha.stated (by simp [Instruction.vars])
  | loadStatic =>
    cases hb
    exact home_of_stated hp ha.stated (by simp [Instruction.vars])
  | storeStatic => cases hb
  | ret returned =>
    cases hb
    obtain ⟨name, hname, hm, -⟩ := ha
    have hid := hp.id_of_method? hm
    obtain ⟨body, hbody, hr⟩ := Option.bind_eq_some_iff.1 returned
    exact home_of_bound hp (hid ▸ hm) (hid ▸ hname) hbody (Body.mem_bound_returned hr)
  | store => cases hb
  | @load uses o type _ f mem =>
    cases hb
    obtain ⟨place, hst⟩ := huses.use ha (.detached 0) (i := .loadField v uses.base f) rfl mem
    exact home_of_stated hp hst (by simp [Instruction.vars])
  | elementStore => cases hb
  | @elementLoad uses o type _ mem =>
    cases hb
    obtain ⟨place, hst⟩ := huses.use ha (.detached 0) (i := .loadElement v uses.base) rfl mem
    exact home_of_stated hp hst (by simp [Instruction.vars])
  | bind calls _ reachable hasBody _ mem =>
    cases hb
    rcases Call.mem_bindings mem with ⟨-, hparam⟩ | ⟨-, hres⟩
    · exact home_of_bound hp (calls.declared hp) reachable hasBody hparam
    · exact home_of_stated hp (calls.stated huses ha) (by simp [Instruction.vars, hres])
  | self calls _ reachable hasBody _ _ isSelf =>
    cases hb
    exact home_of_bound hp (calls.declared hp) reachable hasBody (Body.mem_bound_receiver isSelf)

/-- What an allowed trigger sends to a variable, it sends to one of a method that has been
reached. -/
theorem Sends.home (hp : p.Proper) (huses : UsesStated p s) (ha : c.Allowed p s)
    (hle : s.Extends t) (callees : ∀ k ∈ t.calls.edges.keys, k.2 ∈ t.calls.reachable.items)
    {q : Pointer} {o : ObjectId} {v : Variable} (h : Sends p s t c q o) (hq : q = .var v) :
    Home p t v := by
  cases h with
  | forward demand => exact (demand.home hp huses ha hq).mono hle
  | allocate =>
    cases hq
    exact (home_of_stated hp ha.stated (by simp [Instruction.vars])).mono hle
  | greet calls edge isSelf =>
    cases hq
    obtain ⟨body, l, hbody, hself, rfl⟩ := exists_of_receiverOf isSelf
    exact home_of_bound hp (calls.declared hp) (callees _ edge) hbody
      (Body.mem_bound_receiver hself)

theorem Move.known (hp : p.Proper) (hs : Faithful p s) {v : Variable} (h : Known p s v)
    (move : Move p s t) : Known p t v := by
  have hle := move.extends
  have callees := (move.faithful hs).callees
  cases move with
  | settle => exact ⟨h.edges, h.arrives⟩
  | @take _ d work next =>
    refine ⟨fun q he => ?_, fun o ho => ?_⟩
    · rw [(take_frame s d work).2.2.2.2] at he
      exact (h.edges q he).mono hle
    · rcases (arrives_take next).1 ho with ho | ⟨hedge, -⟩
      · exact (h.arrives o ho).mono hle
      · exact (h.edges _ hedge).mono hle
  | act allowed step =>
    refine ⟨fun q he => ?_, fun o ho => ?_⟩
    · rcases step.adds.edges _ he with he | hd
      · exact (h.edges q he).mono hle
      · exact (hd.home hp hs.uses allowed rfl).mono hle
    · rcases step.adds.arrives _ o ho with ho | hs'
      · exact (h.arrives o ho).mono hle
      · exact hs'.home hp hs.uses allowed hle callees rfl

theorem moves_known (hp : p.Proper) (run : Relation.ReflTransGen (Move p) s t)
    (hs : Faithful p s) {v : Variable} (h : Known p s v) : Known p t v := by
  have keep : ∀ u w, Faithful p u ∧ Known p u v → Move p u w → Faithful p w ∧ Known p w v :=
    fun u w hu move => ⟨move.faithful hu.1, move.known hp hu.1 hu.2⟩
  exact (moves_keep keep run ⟨hs, h⟩).2

theorem Resident.keep {v : Variable} (h : Resident p s v) (acted : Acted s t) :
    Resident p t v := by
  intro o ho
  rw [acted.objects] at ho
  exact (h o ho).mono acted.ext

/-- What is put down for the first time is a method whose variables are empty. -/
theorem Dry.keep (hp : p.Proper) {v : Variable} (hr : Resident p s v) (h : Dry p s v)
    (acted : Acted s t) : Dry p t v := by
  obtain ⟨new, hpending, -, -, hnew⟩ := acted.put_down
  intro name hname m hm hv
  rw [acted.objects]
  rw [hpending] at hname
  rcases List.mem_append.1 hname with hname | hname
  · exact h name hname m hm hv
  · rw [List.eq_nil_iff_forall_not_mem]
    intro o ho
    -- an object there would mean that the method of the variable had been reached before
    have hreach := hr o ho m (Program.mem_methods_of_method? hm) hv
    rw [hp.id_of_method? hm] at hreach
    exact hnew name hname hreach

end Known

end PointsTo.Solver
