import PointsTo.Proofs.Solution

/-!
Asking again for what is there. At the end of an analysis the nodes, objects and edges that a
request asks for are in place, a method that is reached stays so, and what a request puts on its way
is at its pointer already: it is delivered once more, nothing of it is new, and nothing follows from
it. So a session of such requests goes on to its end and leaves nothing behind but its records.
-/
namespace PointsTo.Solver

open Relation (ReflTransGen)

/-! ### Actions that find everything in place -/

namespace State

variable {s : State} {a b q : Pointer} {objects : ObjectSet}

theorem touch_of_mem (h : q ∈ s.graph.nodes.keys) : s.touch q = s := by
  have hadd : s.graph.nodes.add ⟨q, ∅⟩ = s.graph.nodes := Roster.add_of_mem h
  unfold touch FlowGraph.touch
  rw [hadd]

theorem touchStatic_of_mem {f : Field} (hnode : .static f.id ∈ s.graph.nodes.keys)
    (hdeclared : f.id ∈ s.graph.statics.keys) : s.touchStatic f = s := by
  have hnodes : s.graph.nodes.add ⟨.static f.id, ∅⟩ = s.graph.nodes := Roster.add_of_mem hnode
  have hstatics : s.graph.statics.add f = s.graph.statics := Roster.add_of_mem hdeclared
  unfold touchStatic FlowGraph.touchStatic FlowGraph.touch
  rw [hnodes, hstatics]

theorem flow_of_mem (rooted : Rooted s) (h : (a, b) ∈ s.graph.edges.items) : s.flow a b = s := by
  obtain ⟨ha, hb⟩ := rooted.edges _ h
  unfold flow
  rw [touch_of_mem ha, touch_of_mem hb, addFlow_of_mem h]

theorem allocate_of_mem {x : Allocation} (h : x ∈ s.heap.items) : (s.allocate x).2 = s := by
  rcases s.heap.objectOf_cases x with ⟨o, ho, -⟩ | ⟨hnot, -⟩
  · unfold allocate
    rw [ho]
  · exact absurd h hnot

/-- What is there already is recorded as delivered, and goes nowhere. -/
theorem propagate_of_subset (h : ∀ o ∈ objects.items, o ∈ (s.pointsTo q).items) :
    s.propagate q objects = (s.fresh q objects, s.noted q objects) ∧
      (s.fresh q objects).items = [] := by
  have hnone : (s.fresh q objects).items = [] := by
    rw [List.eq_nil_iff_forall_not_mem]
    intro o ho
    obtain ⟨hgiven, hnot⟩ := mem_fresh.1 ho
    exact hnot (h o hgiven)
  have hempty : (s.fresh q objects).isEmpty = true := List.isEmpty_iff.2 hnone
  refine ⟨?_, hnone⟩
  rw [propagate_eq, if_pos hempty]

theorem settle_of_settled {p : Program} (h : s.pending = []) : s.settle p = .going s := by
  unfold settle
  cases s.settleLimit p with
  | zero => rfl
  | succ limit => rw [settleWithin, h]

end State

/-! ### Entry methods -/

theorem State.entries_reach (s : State) (m : MethodName) :
    (s.reach m).calls.entries = s.calls.entries := by
  by_cases hm : m ∈ s.calls.reachable.items
  · rw [reach_of_mem hm]
  · rw [reach_of_not_mem hm]

section Entries

variable {p : Program} {s t : State} {n : MethodName}

theorem Step.entries {c : Trigger} (step : Step p c s t) (h : n ∈ s.calls.entries.items) :
    n ∈ t.calls.entries.items := by
  cases step with
  | quiet agrees => exact agrees.entries n h
  | touch | allocate | use => exact h
  | flow =>
    rw [State.calls_flow]
    exact h
  | @call _ _ site callee calls =>
    have greet : (s.greet callee c).calls = s.calls := (s.greet_frame callee c).2.1
    by_cases hedge : (site, callee.id) ∈ (s.greet callee c).calls.edges.keys
    · rw [State.withCall_of_mem hedge, greet]
      exact h
    · rw [State.withCall_of_not_mem hedge, State.entries_reach]
      change n ∈ (s.greet callee c).calls.entries.items
      rw [greet]
      exact h

/-- An entry method stays one. -/
theorem Move.entries (move : Move p s t) (h : n ∈ s.calls.entries.items) :
    n ∈ t.calls.entries.items := by
  cases move with
  | act _ step => exact step.entries h
  | settle => exact h
  | take =>
    rw [(take_frame _ _ _).2.1]
    exact h

theorem mem_entries_opened (s : State) (m : MethodName) :
    m ∈ (s.opened m).calls.entries.items := by
  unfold State.opened
  rw [State.entries_reach]
  exact OrderedSet.mem_add.2 (.inr rfl)

end Entries

/-! ### Requests for what is there -/

/-- The request asks for what is there: nodes, objects and edges that exist, methods that are
reached, and objects at pointers that have them. -/
def Operation.Resubmits (s : State) : Operation → Prop
  | node q => q ∈ s.graph.nodes.keys
  | static f => .static f.id ∈ s.graph.nodes.keys ∧ f.id ∈ s.graph.statics.keys
  | object a => a ∈ s.heap.items
  | reach m => m ∈ s.calls.reachable.items
  | connect source target => (source, target) ∈ s.graph.edges.items
  | send q objects | propagate q objects =>
    q ∈ s.graph.nodes.keys ∧ ∀ o ∈ objects.items, o ∈ (s.pointsTo q).items
  | processCalls v o => o ∈ (s.pointsTo (.var v)).items
  | start | analyze | solve => True

/-- The end of both loops from an entry method. -/
structure Ended (p : Program) (entry : MethodName) (s : State) : Prop where
  steady : Steady p Set.univ s
  idle : s.work.pop? = none
  reached : entry ∈ s.calls.reachable.items
  entered : entry ∈ s.calls.entries.items

/-- The second state has all that the first has and no more, and on its way is only what is at its
pointer already. -/
structure Idling (s t : State) : Prop where
  heap : t.heap = s.heap
  graph : t.graph = s.graph
  calls : t.calls = s.calls
  phantoms : t.phantoms = s.phantoms
  uses : t.uses = s.uses
  pending : t.pending = s.pending
  redundant : ∀ d ∈ t.work.toList, ∀ o ∈ d.objects.items, o ∈ (s.pointsTo d.pointer).items
  iterations : s.iterations ≤ t.iterations

section Idling

variable {p : Program} {entry : MethodName} {s t : State}

theorem ended_explore (hp : p.Proper) {heap : Heap} {phantoms : PhantomFields} {log : Array Event}
    (goes : State.explore { heap, phantoms, log } p entry = .going s) : Ended p entry s := by
  have fresh := State.fresh_initial heap phantoms log
  obtain ⟨steady, idle⟩ := steady_explore hp goes
  have run := moves_explore p (fresh.ready_opened p entry).orderly
  rw [goes] at run
  refine ⟨steady, idle, (moves_extend run).reachable entry ?_, ?_⟩
  · rw [(fresh.opened_frame entry).2.1]
    exact List.mem_singleton.2 rfl
  · exact moves_keep (fun _ _ h move => move.entries h) run (mem_entries_opened _ entry)

namespace Idling

theorem refl (idle : s.work.pop? = none) : Idling s s := by
  refine ⟨rfl, rfl, rfl, rfl, rfl, rfl, fun d hd => ?_, Nat.le_refl _⟩
  rw [Queue.pop?_eq_none_iff.1 idle] at hd
  cases hd

theorem pointsTo (h : Idling s t) (q : Pointer) : t.pointsTo q = s.pointsTo q := by
  unfold State.pointsTo
  rw [h.graph]

theorem rooted (hs : Ended p entry s) (h : Idling s t) : Rooted t := by
  refine ⟨fun e he => ?_, fun q o ho => ?_⟩
  · rw [h.graph] at he ⊢
    exact hs.steady.coherent.faithful.rooted.edges e he
  · have hmem : o ∈ (s.pointsTo q).items := by
      rcases ho with ho | ⟨d, hd, rfl, ho⟩
      · rwa [h.pointsTo] at ho
      · exact h.redundant d hd o ho
    rw [h.graph, h.heap]
    exact hs.steady.coherent.faithful.rooted.arrives q o (.inl hmem)

theorem settled (hs : Ended p entry s) (h : Idling s t) : t.pending = [] :=
  h.pending.trans hs.steady.settled

theorem record (h : Idling s t) (e : Event) : Idling s (t.record e) :=
  ⟨h.heap, h.graph, h.calls, h.phantoms, h.uses, h.pending, h.redundant, h.iterations⟩

theorem serve (h : Idling s t) (v : Variable) (o : ObjectId) (use : Use) :
    Idling s (t.serve v o use) :=
  ⟨h.heap, h.graph, h.calls, h.phantoms, h.uses, h.pending, h.redundant, h.iterations⟩

theorem send (h : Idling s t) {q : Pointer} {objects : ObjectSet}
    (known : ∀ o ∈ objects.items, o ∈ (s.pointsTo q).items) : Idling s (t.send q objects) := by
  refine ⟨h.heap, h.graph, h.calls, h.phantoms, h.uses, h.pending, fun d hd => ?_, h.iterations⟩
  have hwork : (t.send q objects).work.toList = t.work.toList ++ [⟨q, objects⟩] :=
    Queue.toList_push t.work ⟨q, objects⟩
  rw [hwork] at hd
  rcases List.mem_append.1 hd with hd | hd
  · exact h.redundant d hd
  · obtain rfl := List.mem_singleton.1 hd
    exact known

theorem noted (h : Idling s t) (q : Pointer) (objects : ObjectSet) : Idling s (t.noted q objects) :=
  ⟨h.heap, h.graph, h.calls, h.phantoms, h.uses, h.pending, h.redundant, h.iterations⟩

/-! ### Deliveries -/

/-- A delivery that brings nothing new ends with itself. -/
theorem deliver (hs : Ended p entry s) (h : Idling s t) {d : Delivery} {work : Queue Delivery}
    (next : t.work.pop? = some (d, work)) :
    ∃ u, ({ t with work } : State).deliver p d = .going u ∧ Idling s u ∧ u.work = work := by
  have hlist := Queue.toList_of_pop? next
  have known : ∀ o ∈ d.objects.items, o ∈ ((t.popped work).pointsTo d.pointer).items := by
    intro o ho
    rw [show (t.popped work).pointsTo d.pointer = s.pointsTo d.pointer from h.pointsTo _]
    exact h.redundant d (hlist ▸ List.mem_cons_self) o ho
  have popped : Idling s (t.popped work) := by
    refine ⟨h.heap, h.graph, h.calls, h.phantoms, h.uses, h.pending, fun e he => ?_,
      Nat.le_succ_of_le h.iterations⟩
    exact h.redundant e (hlist ▸ List.mem_cons_of_mem _ he)
  obtain ⟨hpropagate, hnone⟩ := State.propagate_of_subset known
  have htake : t.take d work = (t.popped work).noted d.pointer d.objects :=
    congrArg Prod.snd hpropagate
  have hfresh : (t.fresh d.pointer d.objects).items = [] := hnone
  have accepted : ({ t with work } : State).accept p d =
      .going ((t.popped work).noted d.pointer d.objects) := by
    rw [accept_eq, hfresh, htake]
    split <;> rfl
  refine ⟨(t.popped work).noted d.pointer d.objects, ?_, popped.noted _ _, rfl⟩
  unfold State.deliver
  rw [accepted, Progress.going_andThen]
  exact State.settle_of_settled ((popped.noted _ _).settled hs)

/-- The loop takes what is on its way and ends. -/
theorem analyzeWithin (hs : Ended p entry s) {limit : Nat} (h : Idling s t)
    (hle : t.work.size ≤ limit) :
    ∃ u, State.analyzeWithin p limit t = .going u ∧ Idling s u ∧ u.work.pop? = none := by
  induction limit generalizing t with
  | zero =>
    refine ⟨t, rfl, h, Queue.pop?_eq_none_iff.2 (List.length_eq_zero_iff.1 ?_)⟩
    rw [Queue.length_toList]
    exact Nat.le_zero.1 hle
  | succ limit ih =>
    cases next : t.work.pop? with
    | none =>
      refine ⟨t, ?_, h, next⟩
      rw [State.analyzeWithin, next]
    | some taken =>
      obtain ⟨d, work⟩ := taken
      obtain ⟨u, hu, hidling, hwork⟩ := h.deliver hs next
      have hsize : t.work.size = work.size + 1 := by
        rw [← Queue.length_toList, ← Queue.length_toList, Queue.toList_of_pop? next]
        rfl
      obtain ⟨w, hw, hend⟩ := ih hidling (by rw [hwork]; omega)
      refine ⟨w, ?_, hend⟩
      rw [State.analyzeWithin, next]
      dsimp only
      rw [hu]
      exact hw

theorem analyze (hs : Ended p entry s) (h : Idling s t) :
    ∃ u, t.analyze p = .going u ∧ Idling s u ∧ u.work.pop? = none := by
  refine h.analyzeWithin hs ?_
  unfold State.analyzeLimit
  dsimp only
  omega

/-! ### Calls -/

/-- A call that is served once more finds its edge in place and its object at the receiver of the
callee. -/
theorem dispatch (hs : Ended p entry s) (h : Idling s t) {v : Variable} {o : ObjectId}
    (ho : o ∈ (s.pointsTo (.var v)).items) {site : CallSite} (hsite : site ∈ (s.usesOf v).calls) :
    ∃ u, (t.serve v o (.call site)).dispatchCall p o site = .going u ∧ Idling s u := by
  have served := h.serve v o (.call site)
  have dispatched := ((hs.steady.attended v trivial).served o ho).calls site hsite
  unfold State.dispatchCall
  rw [served.heap]
  split
  · next callee found =>
    obtain ⟨bound, arrives⟩ := dispatched.bound callee found
    have edge : ∀ u : State, Idling s u →
        ∃ w, u.connect site callee id = .going w ∧ Idling s w := by
      intro u hu
      refine ⟨u, ?_, hu⟩
      rw [State.connect_eq, hu.calls, if_pos bound.edge]
    cases hself : State.receiverOf callee with
    | none => exact edge _ served
    | some self =>
      have hmem := arrives_of_idle hs.idle (arrives self hself)
      have hnode := (hs.steady.coherent.faithful.rooted.arrives _ o (.inl hmem)).1
      dsimp only
      rw [State.touch_of_mem (by rw [served.graph]; exact hnode)]
      refine edge _ (served.send fun x hx => ?_)
      obtain rfl := List.mem_singleton.1 (OrderedSet.mem_ofList.1 hx)
      exact hmem
  · exact ⟨_, rfl, served⟩
  · exact ⟨_, rfl, served.record _⟩
  · next dead => exact absurd dead (dispatched.alive _ _)

theorem processCalls (hs : Ended p entry s) (h : Idling s t) {v : Variable} {o : ObjectId}
    (ho : o ∈ (s.pointsTo (.var v)).items) :
    ∃ u, t.processCalls p v o = .going u ∧ Idling s u := by
  unfold State.processCalls
  rw [State.usesOf_congr h.uses]
  exact forEach_goes (Idling s) (fun site hsite u hu => hu.dispatch hs ho hsite) h

/-! ### Runs -/

theorem opened (hs : Ended p entry s) (h : Idling s t) : Idling s (t.opened entry) := by
  have hadd : t.calls.addEntry entry = t.calls := by
    have hmem : entry ∈ t.calls.entries.keys := by
      rw [OrderedSet.keys_eq_items, h.calls]
      exact hs.entered
    unfold CallGraph.addEntry
    rw [Roster.add_of_mem hmem]
  unfold State.opened
  rw [hadd, State.reach_of_mem (by
    change entry ∈ t.calls.reachable.items
    rw [h.calls]
    exact hs.reached)]
  exact h.record (.started entry)

theorem explore (hs : Ended p entry s) (h : Idling s t) :
    ∃ u, t.explore p entry = .going u ∧ Idling s u := by
  have opened := h.opened hs
  unfold State.explore
  rw [State.settle_of_settled (opened.settled hs), Progress.going_andThen]
  obtain ⟨u, hu, hidling, -⟩ := opened.analyze hs
  exact ⟨u, hu, hidling⟩

end Idling

/-- **Each request for what is there goes on, and leaves no more than is delivered in vain.** -/
theorem Operation.Resubmits.idles {m : Method} (hasBody : m.body.isSome) (hs : Ended p m.id s)
    {op : Operation} (known : op.Resubmits s) (h : Idling s t) :
    ∃ u, op.perform p (some m) t = .going u ∧ Idling s u := by
  cases op with
  | node q =>
    refine ⟨t, congrArg Progress.going (State.touch_of_mem ?_), h⟩
    rw [h.graph]
    exact known
  | static f =>
    refine ⟨t, congrArg Progress.going (State.touchStatic_of_mem ?_ ?_), h⟩
    · rw [h.graph]
      exact known.1
    · rw [h.graph]
      exact known.2
  | object a =>
    refine ⟨t, congrArg Progress.going (State.allocate_of_mem ?_), h⟩
    rw [h.heap]
    exact known
  | reach n =>
    refine ⟨t, congrArg Progress.going (State.reach_of_mem ?_), h⟩
    rw [h.calls]
    exact known
  | connect source target =>
    refine ⟨t, congrArg Progress.going (State.flow_of_mem (h.rooted hs) ?_), h⟩
    rw [h.graph]
    exact known
  | send q objects =>
    have hnode : q ∈ t.graph.nodes.keys := by
      rw [h.graph]
      exact known.1
    refine ⟨_, rfl, ?_⟩
    rw [State.touch_of_mem hnode]
    exact h.send known.2
  | propagate q objects =>
    have hnode : q ∈ t.graph.nodes.keys := by
      rw [h.graph]
      exact known.1
    have hknown : ∀ o ∈ objects.items, o ∈ (t.pointsTo q).items := by
      rw [h.pointsTo]
      exact known.2
    refine ⟨_, rfl, ?_⟩
    rw [State.touch_of_mem hnode, (State.propagate_of_subset hknown).1]
    exact h.noted q objects
  | processCalls v o => exact h.processCalls hs known
  | start =>
    refine ⟨t.opened m.id, ?_, h.opened hs⟩
    exact (start_eq_settle hasBody).trans
      (State.settle_of_settled ((h.opened hs).settled hs))
  | analyze =>
    obtain ⟨u, hu, hidling, -⟩ := h.analyze hs
    exact ⟨u, hu, hidling⟩
  | solve =>
    obtain ⟨u, hu, hidling⟩ := h.explore hs
    refine ⟨_, ?_, hidling.record (.finished u.summary)⟩
    exact (solve_eq_explore hasBody).trans (by rw [hu, Progress.going_andThen])

/-- When nothing is on its way any more, only the records tell the states apart. -/
theorem Idling.eq (hs : Ended p entry s) (h : Idling s t) (idle : t.work.pop? = none) :
    t = { s with
      iterations := t.iterations, sent := t.sent, history := t.history, services := t.services
      log := t.log } := by
  have empty : ∀ w : Queue Delivery, w.pop? = none → w = ∅ := by
    rintro ⟨front, back⟩ hw
    obtain ⟨rfl, hback⟩ := List.append_eq_nil_iff.1 (Queue.pop?_eq_none_iff.1 hw)
    obtain rfl := List.reverse_eq_nil_iff.1 hback
    rfl
  have hwork : t.work = s.work := (empty _ idle).trans (empty _ hs.idle).symm
  obtain ⟨hheap, hgraph, hcalls, hphantoms, huses, hpending, -, -⟩ := h
  cases t
  cases s
  simp only [State.mk.injEq, and_true]
  exact ⟨hheap, hgraph, hcalls, hphantoms, huses, hpending, hwork⟩

end Idling

/-! ### After an analysis -/

/-- **Asking again changes nothing.** After an analysis that has found its end, any requests for
what is there and a last delivery of what they put on its way go on without a fault, and the state
is the one before them but for its records: the count of the deliveries, which only grows, and what
was noted of them. -/
theorem resubmission_changes_nothing {p : Program} (h : Jimple.Parsed p) (heap : Heap)
    (phantoms : PhantomFields) (log : Array Event) {entry : Option Method} {s : State}
    (goes : State.solve { heap, phantoms, log } p entry = .going s) {ops : List Operation}
    (known : ∀ op ∈ ops, op.Resubmits s) :
    ∃ t, forEach (Operation.perform p entry) (ops ++ [.analyze]) s = .going t ∧
      t = { s with
        iterations := t.iterations, sent := t.sent, history := t.history, services := t.services
        log := t.log } ∧
      s.iterations ≤ t.iterations := by
  cases entry with
  | none => cases goes
  | some m =>
    by_cases hasBody : m.body.isSome
    · rw [solve_eq_explore hasBody] at goes
      obtain ⟨u, hu, goes⟩ := Progress.andThen_eq_going.1 goes
      obtain rfl := Progress.going.inj goes
      have ended := ended_explore h.proper hu
      have start := (Idling.refl ended.idle).record (.finished u.summary)
      -- the end of the analysis is only recorded, so that what is known is known before it
      have known : ∀ op ∈ ops, op.Resubmits u := by
        intro op hop
        have hknown := known op hop
        cases op with
        | _ => exact hknown
      obtain ⟨v, hv, hidling⟩ := forEach_goes (Idling u)
        (fun op hop t ht => Operation.Resubmits.idles hasBody ended (known op hop) ht) start
      obtain ⟨t, ht, hend, idle⟩ := hidling.analyze ended
      have hsame := hend.eq ended idle
      refine ⟨t, ?_, hsame, hend.iterations⟩
      rw [forEach_append, hv, Progress.going_andThen]
      exact forEach_cons_eq_going.2 ⟨t, ht, rfl⟩
    · unfold State.solve at goes
      rw [start_of_bodyless hasBody] at goes
      cases goes

/-- All that a state has, asked for again. -/
def Operation.repeats (s : State) : List Operation :=
  [.start, .solve] ++ s.calls.reachable.items.map .reach ++ s.heap.items.map .object ++
    s.graph.edges.items.map (fun e => .connect e.1 e.2) ++
    s.graph.nodes.items.flatMap fun n =>
      [.node n.pointer, .send n.pointer n.objects, .propagate n.pointer n.objects] ++
        match n.pointer with
        | .var v => n.objects.items.map (.processCalls v)
        | _ => []

theorem Operation.resubmits_of_mem_repeats {s : State} {op : Operation} (h : op ∈ repeats s) :
    op.Resubmits s := by
  have objects : ∀ n ∈ s.graph.nodes.items, s.pointsTo n.pointer = n.objects := by
    intro n hn
    unfold State.pointsTo FlowGraph.pointsTo
    rw [Roster.get?_key hn]
    rfl
  simp only [repeats, List.mem_append, List.mem_cons, List.mem_map, List.mem_flatMap,
    List.not_mem_nil, or_false] at h
  rcases h with ((((rfl | rfl) | ⟨m, hm, rfl⟩) | ⟨a, ha, rfl⟩) | ⟨e, he, rfl⟩) | ⟨n, hn, hop⟩
  · trivial
  · trivial
  · exact hm
  · exact ha
  · exact he
  · have hnode : n.pointer ∈ s.graph.nodes.keys := List.mem_map_of_mem hn
    rcases hop with (rfl | rfl | rfl) | hop
    · exact hnode
    · exact ⟨hnode, fun o ho => by rwa [objects n hn]⟩
    · exact ⟨hnode, fun o ho => by rwa [objects n hn]⟩
    · split at hop
      · next v hv =>
        obtain ⟨o, ho, rfl⟩ := List.mem_map.1 hop
        rw [← objects n hn, hv] at ho
        exact ho
      · cases hop

theorem resubmission_changes_nothing_knot :
    ∃ m s t, Jimple.knot.main? = some m ∧
      State.solve { log := #[.asked Jimple.knot.classes.size m.id] } Jimple.knot (some m) =
        .going s ∧
      (∀ op ∈ Operation.repeats s, op.Resubmits s) ∧
      forEach (Operation.perform Jimple.knot (some m)) (Operation.repeats s ++ [.analyze]) s =
        .going t ∧
      t = { s with
        iterations := t.iterations, sent := t.sent, history := t.history, services := t.services
        log := t.log } ∧
      s.iterations ≤ t.iterations := by
  obtain ⟨m, hm, hfault⟩ := (Option.any_eq_true _ _).1 Jimple.knot_runs.1
  have goes := Progress.eq_going hfault
  have known : ∀ op ∈ Operation.repeats (analyzeFrom Jimple.knot m).state,
      op.Resubmits (analyzeFrom Jimple.knot m).state :=
    fun _ => Operation.resubmits_of_mem_repeats
  obtain ⟨t, ht, hsame, hle⟩ := resubmission_changes_nothing Jimple.parsed_knot ∅ ∅ _ goes known
  exact ⟨m, _, t, hm, goes, known, ht, hsame, hle⟩

end PointsTo.Solver
