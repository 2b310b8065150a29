import PointsTo.Proofs.Faults

/-!
What an action that goes on has brought about. A call edge stands for a call that is bound, a
statement that has been processed is handled, and an object that is discovered at a variable is
served by its uses. What has been brought about lasts, since the state only grows.
-/
namespace PointsTo.Solver

/-- The call is bound to the method. -/
structure Bound (s : State) (site : CallSite) (callee : Method) : Prop where
  edge : (site, callee.id) ∈ s.calls.edges.keys
  reachable : callee.id ∈ s.calls.reachable.items
  flow : ∀ body, callee.body = some body → ∀ e ∈ site.call.bindings body,
    (.var e.1, .var e.2) ∈ s.graph.edges.items
  self : site.call.kind.isLinked = true → ∀ receiver self, site.call.receiver = some receiver →
    State.receiverOf callee = some self → (.var receiver, .var self) ∈ s.graph.edges.items

/-- Every call edge stands for a call that is bound. -/
def AllBound (p : Program) (s : State) : Prop :=
  ∀ site callee, p.method? callee.id = some callee →
    (site, callee.id) ∈ s.calls.edges.keys → Bound s site callee

/-- The call has been dispatched for an object of a type. -/
structure Dispatched (p : Program) (s : State) (o : ObjectId) (type : String) (site : CallSite) :
    Prop where
  bound : ∀ callee, p.resolveCall (some type) site.call = .found callee →
    Bound s site callee ∧ ∀ self, State.receiverOf callee = some self → s.Arrives (.var self) o
  alive : ∀ receiverClass subsignature,
    p.resolveCall (some type) site.call ≠ .missing receiverClass subsignature

/-- The uses have been turned into edges for an object of a type. -/
structure Served (p : Program) (s : State) (uses : Uses) (o : ObjectId) (type : String) :
    Prop where
  stores : ∀ x ∈ uses.stores, (.var x.2, .field o (p.fieldOf x.1)) ∈ s.graph.edges.items
  loads : ∀ x ∈ uses.loads, (.field o (p.fieldOf x.2), .var x.1) ∈ s.graph.edges.items
  elementStores : ∀ x ∈ uses.elementStores, (.var x, .element o) ∈ s.graph.edges.items
  elementLoads : ∀ x ∈ uses.elementLoads, (.element o, .var x) ∈ s.graph.edges.items
  calls : ∀ site ∈ uses.calls, Dispatched p s o type site

/-- The statement has been processed. -/
def Handled (p : Program) (s : State) (m : Method) (place : Place) : Instruction → Prop
  | .allocate target type => ∃ o, s.heap.allocation? o = some ⟨place, type⟩ ∧
      s.Arrives (.var target) o
  | .copy target source => (.var source, .var target) ∈ s.graph.edges.items
  | .loadStatic target f => (.static (p.fieldOf f), .var target) ∈ s.graph.edges.items
  | .storeStatic f source => (.var source, .static (p.fieldOf f)) ∈ s.graph.edges.items
  | .call call =>
    (call.kind.isLinked = true → ∀ callee, p.resolveCall none call = .found callee →
      Bound s ⟨place, call⟩ callee) ∧
    ∀ v, base? (.call call) = some v → (s.usesOf v).Has place (.call call)
  | .ret value => ∀ v r, value = some v → m.body.bind Body.returned = some r → r.var ≠ v →
      (.var v, .var r.var) ∈ s.graph.edges.items
  | .other _ => True
  | i => ∀ v, base? i = some v → (s.usesOf v).Has place i

section Lasting

variable {p : Program} {s t : State}

theorem Bound.mono {site : CallSite} {callee : Method} (h : Bound s site callee)
    (hle : s.Extends t) : Bound t site callee where
  edge := hle.callEdges _ h.edge
  reachable := hle.reachable _ h.reachable
  flow body hb e he := hle.edges _ (h.flow body hb e he)
  self hk receiver self hr hs := hle.edges _ (h.self hk receiver self hr hs)

theorem AllBound.of_callEdges (h : AllBound p s) (hle : s.Extends t)
    (hedges : t.calls.edges = s.calls.edges) : AllBound p t := by
  intro site callee declared hedge
  rw [hedges] at hedge
  exact (h site callee declared hedge).mono hle

theorem Dispatched.mono {o : ObjectId} {type : String} {site : CallSite}
    (h : Dispatched p s o type site) (hle : s.Extends t) : Dispatched p t o type site where
  bound callee found := by
    obtain ⟨hbound, hself⟩ := h.bound callee found
    exact ⟨hbound.mono hle, fun self hs => hle.arrives _ _ (hself self hs)⟩
  alive := h.alive

theorem Served.mono {uses : Uses} {o : ObjectId} {type : String} (h : Served p s uses o type)
    (hle : s.Extends t) : Served p t uses o type where
  stores x hx := hle.edges _ (h.stores x hx)
  loads x hx := hle.edges _ (h.loads x hx)
  elementStores x hx := hle.edges _ (h.elementStores x hx)
  elementLoads x hx := hle.edges _ (h.elementLoads x hx)
  calls site hs := (h.calls site hs).mono hle

theorem Handled.mono {m : Method} {place : Place} {i : Instruction}
    (h : Handled p s m place i) (hle : s.Extends t) : Handled p t m place i := by
  cases i with
  | allocate =>
    obtain ⟨o, ha, ho⟩ := h
    exact ⟨o, hle.allocation? ha, hle.arrives _ _ ho⟩
  | copy | loadStatic | storeStatic => exact hle.edges _ h
  | loadField | storeField | loadElement | storeElement =>
    exact fun v hv => hle.uses v _ _ (h v hv)
  | call call =>
    exact ⟨fun hk callee found => (h.1 hk callee found).mono hle,
      fun v hv => hle.uses v _ _ (h.2 v hv)⟩
  | ret => exact fun v r hv hr hne => hle.edges _ (h v r hv hr hne)
  | other => trivial

/-- A fold whose steps each add an edge adds all of them. -/
theorem foldl_edges {α : Type} (items : List α) {f : State → α → State}
    (edge : α → Pointer × Pointer) (ext : ∀ a (s : State), s.Extends (f s a))
    (step : ∀ a s, edge a ∈ (f s a).graph.edges.items) (s : State) :
    s.Extends (items.foldl f s) ∧ ∀ a ∈ items, edge a ∈ (items.foldl f s).graph.edges.items := by
  induction items generalizing s with
  | nil => exact ⟨.refl s, by simp⟩
  | cons a rest ih =>
    obtain ⟨hext, hrest⟩ := ih (f s a)
    refine ⟨(ext a s).trans hext, fun b hb => ?_⟩
    rcases List.mem_cons.1 hb with rfl | hb
    · exact hext.edges _ (step b s)
    · exact hrest b hb

/-- What each action of a list brings about, and what lasts, holds of every item at the end. -/
theorem forEach_post {α : Type} {action : α → State → Progress} (good : State → Prop)
    (post : α → State → Prop) {items : List α}
    (step : ∀ a ∈ items, ∀ s t, good s → action a s = .going t → good t ∧ post a t)
    (lasting : ∀ a ∈ items, ∀ b s t, good s → action a s = .going t → post b s → post b t)
    (h : good s) (goes : forEach action items s = .going t) :
    good t ∧ ∀ a ∈ items, post a t := by
  -- the induction is on what is left of the list, and what was brought about before it lasts
  have all : ∀ (rest : List α) (s : State), (∀ a ∈ rest, a ∈ items) → good s →
      forEach action rest s = .going t →
      good t ∧ (∀ a ∈ rest, post a t) ∧ ∀ b, post b s → post b t := by
    intro rest
    induction rest with
    | nil =>
      intro s _ h goes
      cases goes
      exact ⟨h, by simp, fun _ => id⟩
    | cons a rest ih =>
      intro s hmem h goes
      obtain ⟨u, ha, goes⟩ := forEach_cons_eq_going.1 goes
      obtain ⟨hgood, hpost⟩ := step a (hmem a (by simp)) s u h ha
      obtain ⟨hend, hrest, hlast⟩ := ih u (fun b hb => hmem b (by simp [hb])) hgood goes
      refine ⟨hend, fun b hb => ?_, fun b hb => ?_⟩
      · rcases List.mem_cons.1 hb with rfl | hb
        · exact hlast b hpost
        · exact hrest b hb
      · exact hlast b (lasting a (hmem a (by simp)) b s u h ha hb)
  obtain ⟨hend, hpost, -⟩ := all items s (fun _ => id) h goes
  exact ⟨hend, hpost⟩

end Lasting

/-! ### Calls -/

section Calls

variable {p : Program} {s t : State} {site : CallSite} {callee : Method}

/-- Behind a call edge that is new, the call is bound once the edges for its bindings are there. -/
theorem bound_withCall (h : AllBound p s) (declared : p.method? callee.id = some callee)
    (hnew : (site, callee.id) ∉ s.calls.edges.keys)
    (ext : (s.withCall site callee.id).Extends t)
    (same : t.calls = (s.withCall site callee.id).calls)
    (flow : ∀ body, callee.body = some body → ∀ e ∈ site.call.bindings body,
      (.var e.1, .var e.2) ∈ t.graph.edges.items)
    (self : site.call.kind.isLinked = true → ∀ receiver self, site.call.receiver = some receiver →
      State.receiverOf callee = some self → (.var receiver, .var self) ∈ t.graph.edges.items) :
    s.Extends t ∧ AllBound p t ∧ Bound t site callee := by
  have hedge : (site, callee.id) ∈ (s.withCall site callee.id).calls.edges.keys :=
    State.mem_edges_withCall.2 (.inr rfl)
  have hreached : callee.id ∈ (s.withCall site callee.id).calls.reachable.items :=
    State.mem_reachable_withCall.2 (.inr ⟨hnew, rfl⟩)
  have hext := (s.extends_withCall site callee.id).trans ext
  have hbound : Bound t site callee := ⟨same ▸ hedge, same ▸ hreached, flow, self⟩
  refine ⟨hext, fun site' callee' declared' hmem => ?_, hbound⟩
  rw [same] at hmem
  rcases State.mem_edges_withCall.1 hmem with hold | hpair
  · exact (h site' callee' declared' hold).mono hext
  · obtain ⟨rfl, hid⟩ := Prod.mk.inj hpair
    rw [hid, declared] at declared'
    obtain rfl : callee = callee' := Option.some.inj declared'
    exact hbound

/-- Connecting a call leaves it bound, also where its edge was there before. -/
theorem bound_connect (h : AllBound p s) (declared : p.method? callee.id = some callee)
    {more : State → State} (ext : ∀ u : State, u.Extends (more u))
    (hcalls : ∀ u, (more u).calls = u.calls)
    (self : site.call.kind.isLinked = true → ∀ u receiver self,
      site.call.receiver = some receiver → State.receiverOf callee = some self →
      (.var receiver, .var self) ∈ (more u).graph.edges.items)
    (goes : s.connect site callee more = .going t) :
    s.Extends t ∧ AllBound p t ∧ Bound t site callee := by
  rw [State.connect_eq] at goes
  split at goes
  · next hold =>
    cases goes
    exact ⟨.refl s, h, h site callee declared hold⟩
  · next hnew =>
    split at goes
    · next hnone =>
      cases goes
      refine bound_withCall h declared hnew (ext _) (hcalls _) (fun body hb => ?_)
        fun hk => self hk _
      rw [hnone] at hb
      cases hb
    · next body hbody =>
      rw [bind_eq] at goes
      split at goes
      · obtain ⟨hext, hedges⟩ := foldl_edges (site.call.bindings body)
          (fun e : Variable × Variable => (.var e.1, .var e.2))
          (fun e (u : State) => u.extends_flow (.var e.1) (.var e.2))
          (fun e u => State.mem_edges_flow.2 (.inr rfl)) (s.withCall site callee.id)
        have hsame := calls_bindings (site.call.bindings body) (s.withCall site callee.id)
        cases goes
        refine bound_withCall h declared hnew (hext.trans (ext _)) ((hcalls _).trans hsame)
          (fun b hb e he => ?_) fun hk => self hk _
        rw [hbody] at hb
        obtain rfl := Option.some.inj hb
        exact (ext _).edges _ (hedges e he)
      · cases goes

theorem bound_linkCall (hp : p.Proper) (h : AllBound p s)
    (goes : s.linkCall p site = .going t) :
    AllBound p t ∧
      ∀ callee, p.resolveCall none site.call = .found callee → Bound t site callee := by
  unfold State.linkCall at goes
  split at goes
  · next callee found =>
    have ext : ∀ u : State, u.Extends (u.passReceiver site.call callee) := by
      intro u
      unfold State.passReceiver
      split
      · exact u.extends_flow _ _
      · exact .refl u
    obtain ⟨-, hall, hbound⟩ := bound_connect h (hp.method?_of_found found) ext
      (fun u => u.calls_passReceiver _ _)
      (by
        intro _ u receiver self hr hself
        unfold State.passReceiver
        rw [hr, hself]
        exact State.mem_edges_flow.2 (.inr rfl)) goes
    refine ⟨hall, fun callee' found' => ?_⟩
    rw [found] at found'
    cases found'
    exact hbound
  · next hnot =>
    cases goes
    refine ⟨h.of_callEdges (State.agrees_record s _).extends rfl, fun callee found => ?_⟩
    exact absurd found (hnot callee)

theorem dispatched_dispatchCall (hp : p.Proper) (h : AllBound p s)
    (kind : ¬ site.call.kind.isLinked = true) {o : ObjectId}
    (goes : s.dispatchCall p o site = .going t) :
    AllBound p t ∧ Dispatched p t o (s.heap.typeOf o) site := by
  unfold State.dispatchCall at goes
  split at goes
  · next callee found =>
    -- nothing but the object of a trigger matters to its greeting
    have hgreet := s.extends_greet callee (.object { base := default } o "")
    change (s.greet callee (.object { base := default } o "")).connect site callee id = _ at goes
    have hall := h.of_callEdges hgreet
      (congrArg CallGraph.edges (s.greet_frame callee (.object { base := default } o "")).2.1)
    obtain ⟨hext, hall', hbound⟩ := bound_connect hall (hp.method?_of_found found)
      (fun u => .refl u) (fun _ => rfl) (fun hk => absurd hk kind) goes
    refine ⟨hall', fun callee' found' => ?_, fun r sub dead => ?_⟩
    · rw [found] at found'
      cases found'
      refine ⟨hbound, fun self hself => hext.arrives _ _ (State.arrives_greet.2 (.inr ?_))⟩
      exact ⟨_, _, self, rfl, hself, rfl⟩
    · rw [found] at dead
      cases dead
  · next hnothing =>
    cases goes
    refine ⟨h, fun callee found => ?_, fun r sub dead => ?_⟩
    · rw [hnothing] at found
      cases found
    · rw [hnothing] at dead
      cases dead
  · next houtside =>
    cases goes
    refine ⟨h.of_callEdges (State.agrees_record s _).extends rfl, fun callee found => ?_,
      fun r sub dead => ?_⟩
    · rw [houtside] at found
      cases found
    · rw [houtside] at dead
      cases dead
  · cases goes

end Calls

/-! ### Objects and statements -/

section Actions

variable {p : Program} {s t : State}

theorem edges_materialize (s : State) (p : Program) (uses : Uses) (o : ObjectId) :
    s.Extends (s.materialize p uses o) ∧
      ∀ a ∈ uses.accesses, a.edge p o ∈ (s.materialize p uses o).graph.edges.items := by
  refine foldl_edges uses.accesses (Access.edge p o) (fun a t => ?_) (fun a t => ?_) s
  · have served := (State.agrees_serve t uses.base o (.access a)).extends
    obtain ⟨u, agrees, heq⟩ := State.access_eq (t.serve uses.base o (.access a)) p o a
    rw [heq]
    exact (served.trans agrees.extends).trans (u.extends_flow _ _)
  · obtain ⟨u, -, heq⟩ := State.access_eq (t.serve uses.base o (.access a)) p o a
    rw [heq]
    exact State.mem_edges_flow.2 (.inr rfl)

/-- An object that is discovered at a variable is served by its uses. -/
theorem served_discover (hp : p.Proper) (h : AllBound p s) {v : Variable} {o : ObjectId}
    (linked : ∀ site ∈ (s.usesOf v).calls, ¬ site.call.kind.isLinked = true)
    (goes : s.discover p v o = .going t) :
    AllBound p t ∧ Served p t (s.usesOf v) o (s.heap.typeOf o) := by
  have hheap := (materialize_frame s p (s.usesOf v) o).1
  obtain ⟨ext, edges⟩ := edges_materialize s p (s.usesOf v) o
  have hall := h.of_callEdges ext (callEdges_materialize ..)
  rw [discover_eq] at goes
  have extDispatch : ∀ site ∈ (s.usesOf v).calls, ∀ u w : State,
      (u.serve v o (.call site)).dispatchCall p o site = .going w →
        u.Extends w ∧ w.heap = u.heap := by
    intro site hs u w hw
    have act := (acts_dispatch hs (u.serve v o (.call site))).of_going hw
    exact ⟨(State.agrees_serve u v o _).extends.trans act.extends, act.object_frame.1⟩
  obtain ⟨⟨hend, hlast, -⟩, hpost⟩ := forEach_post
    (fun u => AllBound p u ∧ (s.materialize p (s.usesOf v) o).Extends u ∧
      u.heap = s.heap)
    (fun site u => Dispatched p u o (s.heap.typeOf o) site)
    (fun site hs u w ⟨hu, hext, hsame⟩ hw => by
      have served := (State.agrees_serve u v o (.call site)).extends
      obtain ⟨hw', hd⟩ := dispatched_dispatchCall hp (hu.of_callEdges served rfl)
        (linked site hs) hw
      obtain ⟨hle, hkeep⟩ := extDispatch site hs u w hw
      have hserve : (u.serve v o (.call site)).heap = s.heap := hsame
      rw [hserve] at hd
      exact ⟨⟨hw', hext.trans hle, hkeep.trans hsame⟩, hd⟩)
    (fun site hs b u w _ hw hb => hb.mono (extDispatch site hs u w hw).1)
    ⟨hall, .refl _, hheap⟩ goes
  have edge : ∀ a ∈ (s.usesOf v).accesses, a.edge p o ∈ t.graph.edges.items :=
    fun a ha => hlast.edges _ (edges a ha)
  exact ⟨hend, fun x hx => edge (.store x.1 x.2) (Uses.mem_accesses.2 hx),
    fun x hx => edge (.load x.1 x.2) (Uses.mem_accesses.2 hx),
    fun x hx => edge (.storeElement x) (Uses.mem_accesses.2 hx),
    fun x hx => edge (.loadElement x) (Uses.mem_accesses.2 hx), hpost⟩

/-- A statement that acts through a variable is handled by its registration. -/
theorem registered_process {m : Method} {place : Place} {i : Instruction} {v : Variable}
    (h : AllBound p s) (hbase : base? i = some v) (goes : s.process p m place i = .going t) :
    AllBound p t ∧ (t.usesOf v).Has place i := by
  obtain rfl := eq_addUse_of_process hbase goes
  refine ⟨h.of_callEdges ((acts_process s m place i).of_going goes).extends rfl, ?_⟩
  rw [State.usesOf_addUse, if_pos rfl]
  cases i <;> simp [base?] at hbase <;> simp [Uses.register, Uses.Has]

theorem handled_call (hp : p.Proper) (h : AllBound p s) {m : Method} {place : Place} {call : Call}
    (goes : s.process p m place (.call call) = .going t) :
    AllBound p t ∧ Handled p t m place (.call call) := by
  by_cases kind : call.kind.isLinked = true
  · have linked : s.linkCall p ⟨place, call⟩ = .going t := by
      simpa only [State.process, if_pos kind] using goes
    obtain ⟨hall, hbound⟩ := bound_linkCall hp h linked
    exact ⟨hall, fun _ => hbound, fun v hv => absurd kind (base?_call.1 hv).1⟩
  · cases hr : call.receiver with
    | some v =>
      have hbase : base? (.call call) = some v := base?_call.2 ⟨kind, hr⟩
      obtain ⟨hall, huse⟩ := registered_process h hbase goes
      refine ⟨hall, fun hk => absurd hk kind, fun w hw => ?_⟩
      obtain rfl : v = w := Option.some.inj (hbase.symm.trans hw)
      exact huse
    | none =>
      simp only [State.process, if_neg kind, hr] at goes
      cases goes
      refine ⟨h.of_callEdges (State.agrees_record s _).extends rfl, fun hk => absurd hk kind,
        fun v hv => ?_⟩
      rw [(base?_call.1 hv).2] at hr
      cases hr

theorem handled_ret (h : AllBound p s) {m : Method} {place : Place} {value : Option Variable}
    (goes : s.process p m place (.ret value) = .going t) :
    AllBound p t ∧ Handled p t m place (.ret value) := by
  simp only [State.process] at goes
  split at goes
  · next v returned hr =>
    split at goes
    · next hsame =>
      cases goes
      refine ⟨h, fun w r hw hr' hne => ?_⟩
      cases hw
      rw [hr] at hr'
      cases hr'
      exact absurd hsame hne
    · cases goes
      refine ⟨h.of_callEdges (s.extends_flow _ _) (by rw [State.calls_flow]),
        fun w r hw hr' _ => ?_⟩
      cases hw
      rw [hr] at hr'
      cases hr'
      exact State.mem_edges_flow.2 (.inr rfl)
  · next hnot =>
    cases goes
    exact ⟨h, fun w r hw hr' _ => absurd hr' (hnot w r hw)⟩

/-- **A statement that has been processed is handled.** -/
theorem handled_process (hp : p.Proper) (h : AllBound p s) (m : Method) (place : Place)
    (i : Instruction) (goes : s.process p m place i = .going t) :
    AllBound p t ∧ Handled p t m place i := by
  have ext : s.Extends t := ((acts_process s m place i).of_going goes).extends
  have keep : t.calls.edges = s.calls.edges → AllBound p t := fun hsame => h.of_callEdges ext hsame
  -- what acts through a variable is registered, and its edges are left to the objects to come
  have use : ∀ v, base? i = some v →
      AllBound p t ∧ ∀ w, base? i = some w → (t.usesOf w).Has place i := by
    intro v hv
    exact ⟨(registered_process h hv goes).1, fun w hw => (registered_process h hw goes).2⟩
  cases i with
  | allocate target type =>
    cases goes
    refine ⟨keep rfl, _, s.heap.allocation?_objectOf ⟨place, type⟩, ?_⟩
    exact State.arrives_send.2 (.inr ⟨rfl, OrderedSet.mem_ofList.2 (List.mem_singleton.2 rfl)⟩)
  | copy target source =>
    cases goes
    exact ⟨keep (by rw [State.calls_flow]), State.mem_edges_flow.2 (.inr rfl)⟩
  | loadStatic target f =>
    have hedge : (.static (s.resolve p f).1.id, .var target) ∈ t.graph.edges.items := by
      cases goes
      exact State.mem_edges_flow.2 (.inr rfl)
    rw [s.id_resolve] at hedge
    cases goes
    exact ⟨keep (congrArg CallGraph.edges State.calls_flow), hedge⟩
  | storeStatic f source =>
    have hedge : (.var source, .static (s.resolve p f).1.id) ∈ t.graph.edges.items := by
      cases goes
      exact State.mem_edges_flow.2 (.inr rfl)
    rw [s.id_resolve] at hedge
    cases goes
    exact ⟨keep (congrArg CallGraph.edges State.calls_flow), hedge⟩
  | loadField target base f => exact use base rfl
  | storeField base f source => exact use base rfl
  | loadElement target base => exact use base rfl
  | storeElement base source => exact use base rfl
  | call call => exact handled_call hp h goes
  | ret value => exact handled_ret h goes
  | other text =>
    cases goes
    exact ⟨h, trivial⟩

end Actions

end PointsTo.Solver
