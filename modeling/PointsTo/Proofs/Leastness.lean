import PointsTo.Proofs.Moves
import PointsTo.Proofs.Proper

/-!
The analysis finds nothing that a solution of the constraints does not hold. The invariant speaks of
objects on their way as of those that have arrived, and of every edge as an inclusion. It is kept by
every move as long as all calls fit their bodies; a call that does not fit ends the run with its
own step.
-/
namespace PointsTo.Solver

open Relation (ReflTransGen)

/-- The instruction stands at a place in a reachable method. -/
def Stated (p : Program) (s : State) (place : Place) (i : Instruction) : Prop :=
  ∃ name ∈ s.calls.reachable.items, ∃ m, p.method? name = some m ∧ (place, i) ∈ m.placed

/-- Every use of a variable comes from a statement of a reachable method that acts through it, a
call from the one at its own place. -/
structure UsesStated (p : Program) (s : State) : Prop where
  stated : ∀ v place i, base? i = some v → (s.usesOf v).Has place i →
    ∃ place', Stated p s place' i ∧ ∀ call, i = .call call → place = place'
  calls : ∀ v, ∀ site ∈ (s.usesOf v).calls, base? (.call site.call) = some v

section Uses

variable {p : Program} {s t : State}

theorem Stated.mono {place : Place} {i : Instruction} (h : Stated p s place i)
    (hle : ∀ m ∈ s.calls.reachable.items, m ∈ t.calls.reachable.items) : Stated p t place i := by
  obtain ⟨name, hname, hm⟩ := h
  exact ⟨name, hle name hname, hm⟩

theorem UsesStated.site (h : UsesStated p s) {v : Variable} {site : CallSite}
    (hs : site ∈ (s.usesOf v).calls) : Stated p s site.place (.call site.call) := by
  obtain ⟨place, hst, hplace⟩ := h.stated v site.place (.call site.call) (h.calls v site hs) hs
  rwa [hplace site.call rfl]

/-- What is done through a variable stays stated as long as nothing is registered with it. -/
theorem UsesStated.of_same (h : UsesStated p s) (hle : s.Extends t) {v : Variable}
    (same : t.usesOf v = s.usesOf v) :
    (∀ place i, base? i = some v → (t.usesOf v).Has place i →
      ∃ place', Stated p t place' i ∧ ∀ call, i = .call call → place = place') ∧
    ∀ site ∈ (t.usesOf v).calls, base? (.call site.call) = some v := by
  rw [same]
  refine ⟨fun place i hi hu => ?_, h.calls v⟩
  obtain ⟨place', hst, hplace⟩ := h.stated v place i hi hu
  exact ⟨place', hst.mono hle.reachable, hplace⟩

theorem UsesStated.keep (h : UsesStated p s) (hle : s.Extends t) (same : t.uses = s.uses) :
    UsesStated p t := by
  have huses := State.usesOf_congr same
  exact ⟨fun v => (h.of_same hle (huses v)).1, fun v => (h.of_same hle (huses v)).2⟩

/-- What a statement registers is stated by it. -/
theorem Move.usesStated (h : UsesStated p s) (move : Move p s t) : UsesStated p t := by
  have key : ∀ v, (∀ place i, base? i = some v → (t.usesOf v).Has place i →
        ∃ place', Stated p t place' i ∧ ∀ call, i = .call call → place = place') ∧
      ∀ site ∈ (t.usesOf v).calls, base? (.call site.call) = some v := by
    intro v
    have hle := move.extends
    cases move with
    | settle => exact h.of_same hle rfl
    | @take _ d work next =>
      exact h.of_same hle (State.usesOf_congr (take_frame s d work).2.2.1 v)
    | act allowed step =>
      rcases step.adds.uses v with hv | ⟨m, place, i, rfl, hbase, hv⟩
      · exact h.of_same hle hv
      · obtain ⟨name, hname, hm, hmem⟩ := allowed
        have hst : Stated p s place i := ⟨name, hname, m, hm, hmem⟩
        -- a use is an old one or the one that the statement registers
        have hsplit : ∀ place' j, base? j = some v → (t.usesOf v).Has place' j →
            (s.usesOf v).Has place' j ∨ ((∀ call, i = .call call → place' = place) ∧ j = i) := by
          intro place' j hj hu
          rw [hv] at hu
          exact Uses.has_register hbase hj hu
        constructor
        · intro place' j hj hu
          rcases hsplit place' j hj hu with hu | ⟨hplace, rfl⟩
          · obtain ⟨place'', hst'', hplace⟩ := h.stated v place' j hj hu
            exact ⟨place'', hst''.mono hle.reachable, hplace⟩
          · exact ⟨place, hst.mono hle.reachable, hplace⟩
        · intro site hs
          rw [hv] at hs
          cases i <;> try exact h.calls v site hs
          rcases List.mem_append.1 hs with hs | hs
          · exact h.calls v site hs
          · rw [List.mem_singleton.1 hs]
            exact hbase
  exact ⟨fun v => (key v).1, fun v => (key v).2⟩

end Uses

/-! ### Sound states -/

/-- A call edge whose callee does not fit the call. -/
structure Mismatched (p : Program) (facts : Set Fact) (site : CallSite) (callee : Method)
    (body : Body) : Prop where
  edge : .calls site callee.id ∈ facts
  declared : p.method? callee.id = some callee
  hasBody : callee.body = some body
  unfit : ¬ site.call.Fits body

/-- All call edges fit. -/
def Fitting (p : Program) (s : State) : Prop :=
  ∀ site callee body, ¬ Mismatched p s.facts site callee body

/-- Both pointers have locations, and the facts include one in the other. -/
def Flows (facts : Set Fact) (s : State) (a b : Pointer) : Prop :=
  ∃ la lb, s.heap.locate? a = some la ∧ s.heap.locate? b = some lb ∧ Includes facts la lb

/-- The facts have the object at the pointer. -/
def Knows (facts : Set Fact) (s : State) (q : Pointer) (o : ObjectId) : Prop :=
  ∃ l a, s.heap.locate? q = some l ∧ s.heap.allocation? o = some a ∧ .pointsTo l a ∈ facts

/-- The facts have everything that the state has found or is about to find. -/
structure Sound (facts : Set Fact) (s : State) : Prop where
  reachable : ∀ m ∈ s.calls.reachable.items, .reachable m ∈ facts
  callEdges : ∀ k ∈ s.calls.edges.keys, .calls k.1 k.2 ∈ facts
  arrives : ∀ q o, s.Arrives q o → Knows facts s q o
  edges : ∀ e ∈ s.graph.edges.items, Flows facts s e.1 e.2

section Sound

variable {p : Program} {entry : MethodName} {facts : Set Fact} {c : Trigger} {s t : State}

theorem Flows.mono {a b : Pointer} (h : Flows facts s a b) (hle : s.Extends t) :
    Flows facts t a b := by
  obtain ⟨la, lb, ha, hb, hinc⟩ := h
  exact ⟨la, lb, hle.locate? ha, hle.locate? hb, hinc⟩

theorem Knows.mono {q : Pointer} {o : ObjectId} (h : Knows facts s q o) (hle : s.Extends t) :
    Knows facts t q o := by
  obtain ⟨l, a, hl, ha, hmem⟩ := h
  exact ⟨l, a, hle.locate? hl, hle.allocation? ha, hmem⟩

/-- What the source of an inclusion has, its target has. -/
theorem Knows.along {a b : Pointer} {o : ObjectId} (h : Knows facts s a o)
    (hflow : Flows facts s a b) : Knows facts s b o := by
  obtain ⟨l, x, hl, hx, hmem⟩ := h
  obtain ⟨la, lb, ha, hb, hinc⟩ := hflow
  obtain rfl : l = la := Option.some.inj (hl.symm.trans ha)
  exact ⟨lb, x, hb, hx, hinc x hmem⟩

/-- A sound state has found no more than the facts. -/
theorem Sound.facts_subset (h : Sound facts s) : s.facts ⊆ facts := by
  intro fact hfact
  cases fact with
  | reachable m => exact h.reachable m hfact
  | calls site callee => exact h.callEdges (site, callee) hfact
  | pointsTo l a =>
    obtain ⟨q, o, hmem, hl, ha⟩ := hfact
    obtain ⟨l', a', hl', ha', hfact⟩ := h.arrives q o (.inl hmem)
    obtain rfl : l = l' := Option.some.inj (hl.symm.trans hl')
    obtain rfl : a = a' := Option.some.inj (ha.symm.trans ha')
    exact hfact

theorem Knows.pointsTo {v : Variable} {o : ObjectId} (h : Knows facts s (.var v) o) :
    ∃ a, s.heap.allocation? o = some a ∧ .pointsTo (.var v) a ∈ facts := by
  obtain ⟨l, a, hl, ha, hmem⟩ := h
  obtain rfl : Location.var v = l := Option.some.inj hl
  exact ⟨a, ha, hmem⟩

theorem typeOf_of_allocation {o : ObjectId} {a : Allocation}
    (h : s.heap.allocation? o = some a) : s.heap.typeOf o = a.type := by
  unfold Heap.typeOf
  rw [h]
  rfl

/-- The facts agree with the statements that the uses and the allowed triggers stand for. -/
theorem Sound.meets (h : Sound facts s) (hsol : Solves p Call.Fits entry facts) {place : Place}
    {i : Instruction} (hst : Stated p s place i) :
    ∃ m, Meets p Call.Fits facts m place i := by
  obtain ⟨name, hname, m, hm, hmem⟩ := hst
  exact ⟨m, hsol.statements name m (h.reachable name hname) hm (place, i) hmem⟩

/-- An object that has reached a variable stands for an allocation that the facts have there. -/
theorem Sound.object (h : Sound facts s) {uses : Uses} {o : ObjectId} {type : String}
    (ha : Trigger.Allowed p s (.object uses o type)) :
    ∃ a, s.heap.allocation? o = some a ∧ a.type = type ∧
      .pointsTo (.var uses.base) a ∈ facts := by
  obtain ⟨-, ho, htype⟩ := ha
  obtain ⟨a, hobj, hmem⟩ := (h.arrives _ o (.inl ho)).pointsTo
  exact ⟨a, hobj, by rw [htype, typeOf_of_allocation hobj], hmem⟩

/-- A call that an allowed trigger makes is one that the facts have, and they bind it. -/
theorem Sound.binds (h : Sound facts s) (hsol : Solves p Call.Fits entry facts)
    (huses : UsesStated p s) (ha : c.Allowed p s) {site : CallSite} {callee : Method}
    (hc : Trigger.Calls p c site callee) : Binds Call.Fits facts site callee := by
  cases hc with
  | linked kind found =>
    obtain ⟨name, hname, hm, hmem⟩ := ha
    obtain ⟨m', hmeets⟩ := h.meets hsol ⟨name, hname, _, hm, hmem⟩
    exact (MeetsCall.linked hmeets kind found).1
  | dispatched mem found =>
    obtain ⟨a, hobj, rfl, hfact⟩ := h.object ha
    rw [ha.1] at mem
    obtain ⟨m', hmeets⟩ := h.meets hsol (huses.site mem)
    obtain ⟨kind, hreceiver⟩ := base?_call.1 (huses.calls _ _ mem)
    exact (MeetsCall.dispatched hmeets kind hreceiver hfact found).1

theorem Trigger.Calls.declared (hp : p.Proper) {site : CallSite} {callee : Method}
    (hc : Trigger.Calls p c site callee) : p.method? callee.id = some callee := by
  cases hc with
  | linked _ found => exact hp.method?_of_found found
  | dispatched _ found => exact hp.method?_of_found found

theorem Trigger.Allowed.stated {m : Method} {place : Place} {i : Instruction}
    (ha : Trigger.Allowed p s (.statement m place i)) : Stated p s place i := by
  obtain ⟨name, hname, hm, hmem⟩ := ha
  exact ⟨name, hname, m, hm, hmem⟩

theorem Trigger.Calls.stated (huses : UsesStated p s) (ha : c.Allowed p s) {site : CallSite}
    {callee : Method} (hc : Trigger.Calls p c site callee) :
    Stated p s site.place (.call site.call) := by
  cases hc with
  | linked => exact ha.stated
  | dispatched mem =>
    rw [ha.1] at mem
    exact huses.site mem

/-- A use that serves an object is stated. -/
theorem UsesStated.use (huses : UsesStated p s) {uses : Uses} {o : ObjectId} {type : String}
    (ha : Trigger.Allowed p s (.object uses o type)) (place : Place) {i : Instruction}
    (hbase : base? i = some uses.base) (hhas : uses.Has place i) :
    ∃ place', Stated p s place' i := by
  rw [ha.1] at hhas
  obtain ⟨place', hst, -⟩ := huses.stated _ place i hbase hhas
  exact ⟨place', hst⟩

/-- A use of a variable, for an object that has reached it: the facts agree with the statement that
it comes from. -/
theorem Sound.use (h : Sound facts s) (hsol : Solves p Call.Fits entry facts)
    (huses : UsesStated p s) {uses : Uses} {o : ObjectId} {type : String}
    (ha : Trigger.Allowed p s (.object uses o type)) (place : Place) {i : Instruction}
    (hbase : base? i = some uses.base) (hhas : uses.Has place i) :
    ∃ a m place', s.heap.allocation? o = some a ∧ .pointsTo (.var uses.base) a ∈ facts ∧
      Meets p Call.Fits facts m place' i := by
  obtain ⟨a, hobj, -, hfact⟩ := h.object ha
  obtain ⟨place', hst⟩ := huses.use ha place hbase hhas
  obtain ⟨m, hmeets⟩ := h.meets hsol hst
  exact ⟨a, m, place', hobj, hfact, hmeets⟩

/-- **The edges that an allowed trigger asks for are inclusions of every solution.** -/
theorem Sound.demands (h : Sound facts s) (hsol : Solves p Call.Fits entry facts)
    (huses : UsesStated p s) (ha : c.Allowed p s) {a b : Pointer} (hd : Demands p s c a b) :
    Flows facts s a b := by
  have statement : ∀ {m place i}, Trigger.Allowed p s (.statement m place i) →
      Meets p Call.Fits facts m place i := by
    rintro m place i ⟨name, hname, hm, hmem⟩
    exact hsol.statements name m (h.reachable name hname) hm (place, i) hmem
  cases hd with
  | copy => exact ⟨_, _, rfl, rfl, statement ha⟩
  | loadStatic => exact ⟨_, _, rfl, rfl, statement ha⟩
  | storeStatic => exact ⟨_, _, rfl, rfl, statement ha⟩
  | ret returned => exact ⟨_, _, rfl, rfl, statement ha _ _ rfl returned⟩
  | @store uses o type f source mem =>
    obtain ⟨x, m, place, hx, hfact, hmeets⟩ :=
      h.use hsol huses ha (.detached 0) (i := .storeField uses.base f source) rfl mem
    exact ⟨_, _, rfl, Heap.locate?_field _ hx, hmeets x hfact⟩
  | @load uses o type target f mem =>
    obtain ⟨x, m, place, hx, hfact, hmeets⟩ :=
      h.use hsol huses ha (.detached 0) (i := .loadField target uses.base f) rfl mem
    exact ⟨_, _, Heap.locate?_field _ hx, rfl, hmeets x hfact⟩
  | @elementStore uses o type source mem =>
    obtain ⟨x, m, place, hx, hfact, hmeets⟩ :=
      h.use hsol huses ha (.detached 0) (i := .storeElement uses.base source) rfl mem
    exact ⟨_, _, rfl, Heap.locate?_element hx, hmeets x hfact⟩
  | @elementLoad uses o type target mem =>
    obtain ⟨x, m, place, hx, hfact, hmeets⟩ :=
      h.use hsol huses ha (.detached 0) (i := .loadElement target uses.base) rfl mem
    exact ⟨_, _, Heap.locate?_element hx, rfl, hmeets x hfact⟩
  | bind calls _ _ hasBody fits mem =>
    exact ⟨_, _, rfl, rfl, (h.binds hsol huses ha calls).flow _ hasBody fits _ mem⟩
  | self calls _ _ hasBody fits isReceiver isSelf =>
    cases calls with
    | linked kind found =>
      have hself := ((statement ha).linked kind found).2 _ _ isReceiver
        ⟨_, _, hasBody, fits, isSelf, rfl⟩
      exact ⟨_, _, rfl, rfl, hself⟩

/-- An object that an allowed trigger sends belongs where it is sent, unless a call edge behind the
step does not fit. -/
theorem Sound.sends (hp : p.Proper) (h : Sound facts s) (hsol : Solves p Call.Fits entry facts)
    (huses : UsesStated p s) (ha : c.Allowed p s) (hle : s.Extends t) (hfit : Fitting p t)
    {q : Pointer} {o : ObjectId} (hs : Sends p s t c q o) : Knows facts t q o := by
  cases hs with
  | @forward _ a b _ demand mem =>
    exact ((h.arrives a o (.inl mem)).along (h.demands hsol huses ha demand)).mono hle
  | allocate object =>
    obtain ⟨name, hname, hm, hmem⟩ := ha
    exact ⟨_, _, rfl, object, hsol.statements name _ (h.reachable name hname) hm _ hmem⟩
  | @greet uses o type site callee self calls edge isSelf =>
    obtain ⟨body, l, hbody, hself, rfl⟩ := exists_of_receiverOf isSelf
    have fits : site.call.Fits body := Classical.byContradiction fun hunfit =>
      hfit site callee body ⟨edge, calls.declared hp, hbody, hunfit⟩
    obtain ⟨x, hobj, rfl, hfact⟩ := h.object ha
    cases calls with
    | dispatched mem found =>
      have mem' := mem
      rw [ha.1] at mem'
      obtain ⟨m, hmeets⟩ := h.meets hsol (huses.site mem')
      obtain ⟨kind, hreceiver⟩ := base?_call.1 (huses.calls _ _ mem')
      have hsent := (MeetsCall.dispatched hmeets kind hreceiver hfact found).2 l.var
        ⟨body, l, hbody, fits, hself, rfl⟩
      exact ⟨_, x, rfl, hle.allocation? hobj, hsent⟩

theorem Fitting.of_extends (h : Fitting p t) (hle : s.Extends t) : Fitting p s :=
  fun site callee body hbad =>
    h site callee body ⟨hle.callEdges _ hbad.edge, hbad.declared, hbad.hasBody, hbad.unfit⟩

/-- **A move from a sound state leads to a sound state if all calls fit.** -/
theorem Move.sound (hp : p.Proper) (hsol : Solves p Call.Fits entry facts)
    (huses : UsesStated p s) (h : Sound facts s) (move : Move p s t) (hfit : Fitting p t) :
    Sound facts t := by
  have hle := move.extends
  cases move with
  | settle => exact ⟨h.reachable, h.callEdges, h.arrives, h.edges⟩
  | @take _ d work next =>
    obtain ⟨-, hcalls, -, -, hedges⟩ := take_frame s d work
    refine ⟨?_, ?_, ?_, ?_⟩
    · rw [hcalls]
      exact h.reachable
    · rw [hcalls]
      exact h.callEdges
    · intro q o ho
      rcases (arrives_take next).1 ho with ho | ⟨hedge, ho⟩
      · exact (h.arrives q o ho).mono hle
      · have hsource := h.arrives _ o (arrives_of_fresh next ho)
        exact (hsource.along (h.edges _ hedge)).mono hle
    · rw [hedges]
      exact fun e he => (h.edges e he).mono hle
  | @act c _ _ allowed step =>
    have adds := step.adds
    have hcalls : ∀ k ∈ t.calls.edges.keys, .calls k.1 k.2 ∈ facts := by
      intro k hk
      rcases adds.callEdges k hk with hk | ⟨callee, calls, hid⟩
      · exact h.callEdges k hk
      · rw [hid]
        exact (h.binds hsol huses allowed calls).edge
    refine ⟨?_, hcalls, ?_, ?_⟩
    · obtain ⟨new, -, hreach, hnew⟩ := adds.reached
      intro m hm
      rw [hreach] at hm
      rcases List.mem_append.1 hm with hm | hm
      · exact h.reachable m hm
      · obtain ⟨-, site, callee, calls, rfl, -⟩ := hnew m hm
        exact (h.binds hsol huses allowed calls).reachable
    · intro q o ho
      rcases adds.arrives q o ho with ho | hs
      · exact (h.arrives q o ho).mono hle
      · exact h.sends hp hsol huses allowed hle hfit hs
    · intro e he
      rcases adds.edges e he with he | hd
      · exact (h.edges e he).mono hle
      · exact (h.demands hsol huses allowed hd).mono hle

/-- **What a run has found, as long as all calls fit, every solution holds.** -/
theorem moves_sound (hp : p.Proper) (hsol : Solves p Call.Fits entry facts)
    (run : ReflTransGen (Move p) s t) (huses : UsesStated p s) (h : Sound facts s)
    (hfit : Fitting p t) : UsesStated p t ∧ Sound facts t := by
  induction run with
  | refl => exact ⟨huses, h⟩
  | tail _ move ih =>
    obtain ⟨huses', h'⟩ := ih (hfit.of_extends move.extends)
    exact ⟨move.usesStated huses', move.sound hp hsol huses' h' hfit⟩

end Sound

end PointsTo.Solver
