import PointsTo.Proofs.Requests

/-!
The record of a run. Whatever was put on the work list has been taken from it or waits there, in the
order in which it was put, and the new objects of the deliveries to a pointer, one delivery after
the other, are its set. A fault that ends the run does not change that.
-/
namespace PointsTo.Solver

open Relation (ReflTransGen)

namespace State

/-- The deliveries that were taken from the work list. -/
def taken (s : State) : List Delivery := s.history.toList.map fun x => ⟨x.pointer, x.given⟩

/-- The new objects of each delivery to a pointer, in the order of the deliveries. -/
def news (s : State) (q : Pointer) : List (List ObjectId) :=
  (s.history.toList.filter fun x => x.pointer = q).map fun x => x.fresh.items

end State

/-! ### What actions add to the record -/

/-- Deliveries are put on the work list, and nothing else is recorded. -/
structure Posts (s t : State) : Prop where
  posted : ∃ ds, t.work.toList = s.work.toList ++ ds ∧ t.sent.toList = s.sent.toList ++ ds
  iterations : t.iterations = s.iterations
  history : t.history = s.history
  services : t.services = s.services

section Posts

variable {p : Program} {s t u : State}

theorem Posts.of_same (work : t.work = s.work) (sent : t.sent = s.sent)
    (iterations : t.iterations = s.iterations) (history : t.history = s.history)
    (services : t.services = s.services) : Posts s t :=
  ⟨⟨[], by simp [work], by simp [sent]⟩, iterations, history, services⟩

theorem Posts.refl (s : State) : Posts s s := .of_same rfl rfl rfl rfl rfl

theorem Posts.trans (h : Posts s t) (h' : Posts t u) : Posts s u := by
  obtain ⟨ds, hwork, hsent⟩ := h.posted
  obtain ⟨ds', hwork', hsent'⟩ := h'.posted
  exact ⟨⟨ds ++ ds', by rw [hwork', hwork, List.append_assoc],
    by rw [hsent', hsent, List.append_assoc]⟩, h'.iterations.trans h.iterations,
    h'.history.trans h.history, h'.services.trans h.services⟩

theorem Posts.foldl {α : Type} {f : State → α → State} {items : List α}
    (step : ∀ a s, Posts s (f s a)) (s : State) : Posts s (items.foldl f s) := by
  induction items generalizing s with
  | nil => exact .refl s
  | cons a rest ih => exact (step a s).trans (ih (f s a))

theorem posts_send (s : State) (q : Pointer) (objects : ObjectSet) :
    Posts s (s.send q objects) :=
  ⟨⟨[⟨q, objects⟩], Queue.toList_push _ _, Array.toList_push⟩, rfl, rfl, rfl⟩

theorem posts_flow (s : State) (a b : Pointer) : Posts s (s.flow a b) := by
  have touched : Posts s ((s.touch a).touch b) := .of_same rfl rfl rfl rfl rfl
  refine touched.trans ?_
  unfold State.flow
  by_cases h : (a, b) ∈ ((s.touch a).touch b).graph.edges.items
  · rw [State.addFlow_of_mem h]
    exact .refl _
  · have edge : Posts ((s.touch a).touch b) (((s.touch a).touch b).withEdge a b) :=
      .of_same rfl rfl rfl rfl rfl
    rw [State.addFlow_of_not_mem h]
    split
    · exact edge
    · exact edge.trans (posts_send _ _ _)

theorem posts_reach (s : State) (m : MethodName) : Posts s (s.reach m) := by
  by_cases h : m ∈ s.calls.reachable.items
  · rw [State.reach_of_mem h]
    exact .refl s
  · rw [State.reach_of_not_mem h]
    exact .of_same rfl rfl rfl rfl rfl

theorem posts_opened (s : State) (m : MethodName) : Posts s (s.opened m) := by
  have entered : Posts s { s.record (.started m) with calls := s.calls.addEntry m } :=
    .of_same rfl rfl rfl rfl rfl
  exact entered.trans (posts_reach _ m)

theorem posts_withCall (s : State) (site : CallSite) (callee : MethodName) :
    Posts s (s.withCall site callee) := by
  by_cases h : (site, callee) ∈ s.calls.edges.keys
  · rw [State.withCall_of_mem h]
    exact .refl s
  · rw [State.withCall_of_not_mem h]
    have linked : Posts s (s.linked site callee) := .of_same rfl rfl rfl rfl rfl
    exact linked.trans (posts_reach _ callee)

theorem posts_greet (s : State) (callee : Method) (c : Trigger) : Posts s (s.greet callee c) := by
  cases c with
  | statement => exact .refl s
  | object uses o type =>
    unfold State.greet
    cases State.receiverOf callee with
    | none => exact .refl s
    | some self =>
      have touched : Posts s (s.touch (.var self)) := .of_same rfl rfl rfl rfl rfl
      exact touched.trans (posts_send _ _ _)

theorem posts_record (s : State) (e : Event) : Posts s (s.record e) := .of_same rfl rfl rfl rfl rfl

theorem posts_resolve (s : State) (p : Program) (ref : FieldRef) : Posts s (s.resolve p ref).2 :=
  .of_same rfl rfl rfl rfl rfl

theorem posts_access (s : State) (p : Program) (o : ObjectId) (a : Access) :
    Posts s (s.access p o a) := by
  cases a with
  | store field source => exact (posts_resolve s p field).trans (posts_flow _ _ _)
  | load target field => exact (posts_resolve s p field).trans (posts_flow _ _ _)
  | storeElement source => exact posts_flow _ _ _
  | loadElement target => exact posts_flow _ _ _

theorem Posts.andThen {r : Progress} {next : State → Progress} (h : Posts s r.state)
    (step : ∀ t, Posts t (next t).state) : Posts s (r.andThen next).state :=
  andThen_keeps (Posts s) h fun t ht => ht.trans (step t)

theorem posts_bind (s : State) (site : CallSite) (callee : MethodName) (body : Body) :
    Posts s (s.bind site callee body).state := by
  rw [bind_eq]
  split
  · exact Posts.foldl (fun e t => posts_flow t _ _) s
  · exact .refl s

theorem posts_connect (s : State) (site : CallSite) (callee : Method) {more : State → State}
    (hmore : ∀ t, Posts t (more t)) : Posts s (s.connect site callee more).state := by
  have first := posts_withCall s site callee.id
  rw [State.connect_eq]
  split
  · exact .refl s
  · split
    · exact first.trans (hmore _)
    · exact first.trans ((posts_bind _ _ _ _).andThen hmore)

theorem posts_linkCall (s : State) (p : Program) (site : CallSite) :
    Posts s (s.linkCall p site).state := by
  unfold State.linkCall
  split
  · refine posts_connect s site _ fun t => ?_
    unfold State.passReceiver
    split
    · exact posts_flow _ _ _
    · exact .refl t
  · exact posts_record s _

theorem posts_dispatchCall (s : State) (p : Program) (o : ObjectId) (site : CallSite) :
    Posts s (s.dispatchCall p o site).state := by
  unfold State.dispatchCall
  split
  · next callee _ =>
    -- nothing but the object of a trigger matters to its greeting
    have greeted := posts_greet s callee (.object { base := default } o "")
    exact greeted.trans (posts_connect _ site callee fun t => .refl t)
  · exact .refl s
  · exact posts_record s _
  · exact .refl s

theorem posts_process (s : State) (p : Program) (m : Method) (place : Place) (i : Instruction) :
    Posts s (s.process p m place i).state := by
  cases i with
  | allocate target type =>
    have touched : Posts s ((s.allocate ⟨place, type⟩).2.touch (.var target)) :=
      .of_same rfl rfl rfl rfl rfl
    exact touched.trans (posts_send _ _ _)
  | copy target source => exact posts_flow _ _ _
  | loadStatic target f =>
    have touched : Posts s ((s.resolve p f).2.touchStatic (s.resolve p f).1) :=
      .of_same rfl rfl rfl rfl rfl
    exact touched.trans (posts_flow _ _ _)
  | storeStatic f source =>
    have touched : Posts s
        (((s.resolve p f).2.touch (.var source)).touchStatic (s.resolve p f).1) :=
      .of_same rfl rfl rfl rfl rfl
    exact touched.trans (posts_flow _ _ _)
  | loadField | storeField | loadElement | storeElement => exact .of_same rfl rfl rfl rfl rfl
  | call call =>
    simp only [State.process]
    split
    · exact posts_linkCall s p _
    · split
      · exact .of_same rfl rfl rfl rfl rfl
      · exact posts_record s _
  | ret value =>
    simp only [State.process]
    split
    · split
      · exact .refl s
      · exact posts_flow _ _ _
    · exact .refl s
  | other text => exact .refl s

end Posts

/-! ### The ledger -/

/-- The record of the deliveries accounts for the work list and for every set of objects. -/
structure Ledger (s : State) : Prop where
  sent : s.sent.toList = s.taken ++ s.work.toList
  iterations : s.iterations = s.history.size
  news : ∀ q, (s.news q).flatten = (s.pointsTo q).items

section Ledger

variable {p : Program} {entry : Option Method} {s t : State}

/-- Whatever only posts deliveries keeps the accounts. -/
theorem Ledger.keep (h : Ledger s) (posted : ∃ ds, t.work.toList = s.work.toList ++ ds ∧
      t.sent.toList = s.sent.toList ++ ds)
    (iterations : t.iterations = s.iterations) (history : t.history = s.history)
    (objects : ∀ q, t.pointsTo q = s.pointsTo q) : Ledger t := by
  obtain ⟨ds, hwork, hsent⟩ := posted
  refine ⟨?_, ?_, fun q => ?_⟩
  · unfold State.taken
    rw [hsent, hwork, h.sent, history, List.append_assoc]
    rfl
  · rw [iterations, history]
    exact h.iterations
  · unfold State.news
    rw [history, objects]
    exact h.news q

theorem Ledger.posts (h : Ledger s) (posts : Posts s t)
    (objects : ∀ q, t.pointsTo q = s.pointsTo q) : Ledger t :=
  h.keep posts.posted posts.iterations posts.history objects

theorem Step.ledger {c : Trigger} (h : Ledger s) (step : Step p c s t) : Ledger t := by
  have objects := step.adds.objects
  cases step with
  | quiet agrees =>
    exact h.keep ⟨[], by simp [agrees.work], by simp [agrees.sent]⟩ agrees.iterations
      agrees.history objects
  | touch => exact h.posts (.of_same rfl rfl rfl rfl rfl) objects
  | flow => exact h.posts (posts_flow _ _ _) objects
  | @allocate m place target type =>
    have touched : Posts s ((s.allocate ⟨place, type⟩).2.touch (.var target)) :=
      .of_same rfl rfl rfl rfl rfl
    exact h.posts (touched.trans (posts_send _ _ _)) objects
  | use => exact h.posts (.of_same rfl rfl rfl rfl rfl) objects
  | call => exact h.posts ((posts_greet _ _ _).trans (posts_withCall _ _ _)) objects

/-- A delivery is recorded, and its new objects are put on the work list for every successor. -/
theorem propagate_record (s : State) (q : Pointer) (objects : ObjectSet) :
    (∃ ds, (s.propagate q objects).2.work.toList = s.work.toList ++ ds ∧
      (s.propagate q objects).2.sent.toList = s.sent.toList ++ ds) ∧
    (s.propagate q objects).2.iterations = s.iterations ∧
    (s.propagate q objects).2.history = s.history.push ⟨q, objects, s.fresh q objects⟩ ∧
    (s.propagate q objects).2.services = s.services := by
  rw [State.propagate_eq]
  dsimp only
  split
  · exact ⟨⟨[], (List.append_nil _).symm, (List.append_nil _).symm⟩, rfl, rfl, rfl⟩
  · obtain ⟨work, sent, heq, hwork, hsent⟩ :=
      State.foldl_send (s.fresh q objects) (s.graph.successors q) (s.received q objects)
    rw [heq]
    exact ⟨⟨_, hwork, hsent⟩, rfl, rfl, rfl⟩

/-- The new objects of a delivery come behind those that its pointer has. -/
theorem items_pointsTo_propagate (s : State) (q r : Pointer) (objects : ObjectSet) :
    ((s.propagate q objects).2.pointsTo r).items =
      if q = r then (s.pointsTo r).items ++ (s.fresh q objects).items
      else (s.pointsTo r).items := by
  rw [State.propagate_eq]
  dsimp only
  split
  · next hempty =>
    have hnil : (s.fresh q objects).items = [] := List.isEmpty_iff.1 hempty
    rw [hnil, List.append_nil, ite_self]
    rfl
  · obtain ⟨work, sent, heq, -⟩ :=
      State.foldl_send (s.fresh q objects) (s.graph.successors q) (s.received q objects)
    have hassign : (s.received q objects).pointsTo r = _ :=
      FlowGraph.pointsTo_assign s.graph q r ((s.pointsTo q).union (s.fresh q objects))
    rw [heq]
    change ((s.received q objects).pointsTo r).items = _
    rw [hassign]
    split
    · next hq =>
      subst hq
      exact OrderedSet.items_union_diff _ _
    · rfl

theorem taken_of_push {x : Propagation} (h : t.history = s.history.push x) :
    t.taken = s.taken ++ [⟨x.pointer, x.given⟩] := by
  unfold State.taken
  rw [h, Array.toList_push, List.map_append]
  rfl

theorem news_of_push {x : Propagation} (h : t.history = s.history.push x) (q : Pointer) :
    (t.news q).flatten = (s.news q).flatten ++ if x.pointer = q then x.fresh.items else [] := by
  unfold State.news
  rw [h, Array.toList_push, List.filter_append, List.map_append, List.flatten_append]
  by_cases hq : x.pointer = q
  · simp [hq]
  · simp [hq]

theorem take_record (s : State) (d : Delivery) (work : Queue Delivery) :
    (∃ ds, (s.take d work).work.toList = work.toList ++ ds ∧
      (s.take d work).sent.toList = s.sent.toList ++ ds) ∧
    (s.take d work).iterations = s.iterations + 1 ∧
    (s.take d work).history =
      s.history.push ⟨d.pointer, d.objects, s.fresh d.pointer d.objects⟩ ∧
    (s.take d work).services = s.services :=
  propagate_record (s.popped work) d.pointer d.objects

theorem Ledger.take {d : Delivery} {work : Queue Delivery} (h : Ledger s)
    (next : s.work.pop? = some (d, work)) : Ledger (s.take d work) := by
  obtain ⟨⟨ds, hwork, hsent⟩, hiterations, hhistory, -⟩ := take_record s d work
  refine ⟨?_, ?_, fun q => ?_⟩
  · rw [hsent, hwork, taken_of_push hhistory, h.sent, Queue.toList_of_pop? next]
    simp
  · rw [hiterations, hhistory, Array.size_push, h.iterations]
  · have hset : ((s.take d work).pointsTo q).items = _ :=
      items_pointsTo_propagate (s.popped work) d.pointer q d.objects
    rw [hset, news_of_push hhistory, h.news]
    split
    · rfl
    · exact List.append_nil _

/-- **Every move keeps the accounts.** -/
theorem Move.ledger (h : Ledger s) (move : Move p s t) : Ledger t := by
  cases move with
  | act _ step => exact step.ledger h
  | settle => exact h.posts (.of_same rfl rfl rfl rfl rfl) fun _ => rfl
  | take next => exact h.take next

theorem State.Fresh.ledger (h : s.Fresh) : Ledger s := by
  refine ⟨?_, ?_, fun q => ?_⟩
  · unfold State.taken
    rw [h.sent, h.history, h.work]
    rfl
  · rw [h.iterations, h.history]
    rfl
  · unfold State.news State.pointsTo
    rw [h.history, h.graph]
    rfl

/-- A whole run keeps the accounts, whatever its end. -/
theorem ledger_solve (h : s.Fresh) (p : Program) (entry : Option Method) :
    Ledger (s.solve p entry).state := by
  cases entry with
  | none => exact h.ledger
  | some m =>
    by_cases hasBody : m.body.isSome
    · rw [solve_eq_explore hasBody]
      have asked := Asked.opened s m.id
      have opened : Ledger (s.opened m.id) := h.ledger.posts (posts_opened s m.id) asked.objects
      refine andThen_keeps Ledger ?_ fun t ht =>
        ht.posts (.of_same rfl rfl rfl rfl rfl) fun _ => rfl
      exact moves_keep (fun _ _ => Move.ledger)
        (moves_explore p (asked.toActed.orderly h.orderly)) opened
    · unfold State.solve
      rw [start_of_bodyless hasBody]
      exact h.ledger

/-- The deliveries to a pointer bring each object once. -/
theorem Ledger.disjoint (h : Ledger s) (q : Pointer) : (s.news q).Pairwise List.Disjoint := by
  have hkeys := (s.pointsTo q).keys_nodup
  rw [OrderedSet.keys_eq_items, ← h.news q] at hkeys
  exact (List.nodup_flatten.1 hkeys).2

end Ledger

end PointsTo.Solver
