import PointsTo.Proofs.Completeness

/-!
What the analysis answers. When both loops have come to their ends, whatever was found solves the
constraints, and since it holds no more than every solution does, it is the least one.
-/
namespace PointsTo.Solver

open Relation (ReflTransGen)

section Solved

variable {p : Program} {s : State} {passes : Call → Body → Prop}

theorem mem_facts_var {v : Variable} {a : Allocation} :
    .pointsTo (.var v) a ∈ s.facts ↔
      ∃ o ∈ (s.pointsTo (.var v)).items, s.heap.allocation? o = some a := by
  constructor
  · rintro ⟨q, o, ho, hq, ha⟩
    obtain rfl : .var v = q := s.heap.locate?_injective rfl hq
    exact ⟨o, ho, ha⟩
  · rintro ⟨o, ho, ha⟩
    exact ⟨.var v, o, ho, rfl, ha⟩

/-- An edge is an inclusion when nothing is on its way. -/
theorem includes_of_edge (h : Flowing s) (idle : s.work.pop? = none) {a b : Pointer}
    (he : (a, b) ∈ s.graph.edges.items) {la lb : Location} (ha : s.heap.locate? a = some la)
    (hb : s.heap.locate? b = some lb) : Includes s.facts la lb := by
  rintro x ⟨q, o, ho, hq, hx⟩
  obtain rfl : a = q := s.heap.locate?_injective ha hq
  exact ⟨b, o, arrives_of_idle idle (h _ he o ho), hb, hx⟩

theorem receiverOf_of_receives {call : Call} {callee : Method} {self : Variable}
    (h : Receives passes call callee self) : State.receiverOf callee = some self := by
  obtain ⟨body, l, hbody, -, hself, rfl⟩ := h
  simp [State.receiverOf, hbody, hself]

theorem Bound.binds (h : Flowing s) (idle : s.work.pop? = none) {site : CallSite}
    {callee : Method} (hb : Bound s site callee) : Binds passes s.facts site callee where
  edge := hb.edge
  reachable := hb.reachable
  flow body hbody _ e he := includes_of_edge h idle (hb.flow body hbody e he) rfl rfl

theorem Coherent.meetsCall (h : Coherent p s) (idle : s.work.pop? = none) {m : Method}
    {site : CallSite} (hs : Handled p s m site.place (.call site.call))
    (attended : ∀ v, base? (.call site.call) = some v → Attended p s v) :
    MeetsCall p passes s.facts site := by
  have flowing := h.faithful.flowing
  unfold MeetsCall
  split
  · next kind =>
    intro callee found
    have hbound := hs.1 kind callee found
    refine ⟨hbound.binds flowing idle, fun receiver self hr hself => ?_⟩
    exact includes_of_edge flowing idle
      (hbound.self kind receiver self hr (receiverOf_of_receives hself)) rfl rfl
  · next kind =>
    intro receiver hr a ha callee found
    obtain ⟨o, ho, hobj⟩ := mem_facts_var.1 ha
    have hbase := base?_call.2 ⟨kind, hr⟩
    have hserved := (attended receiver hbase).served o ho
    rw [typeOf_of_allocation hobj] at hserved
    have hsite : site ∈ (s.usesOf receiver).calls := hs.2 receiver hbase
    obtain ⟨hbound, hself⟩ := (hserved.calls site hsite).bound callee found
    refine ⟨hbound.binds flowing idle, fun self hself' => ?_⟩
    have harrives := hself self (receiverOf_of_receives hself')
    exact mem_facts_var.2 ⟨o, arrives_of_idle idle harrives, hobj⟩

/-- A statement that is handled is met if the variable that it works through is attended to. -/
theorem Coherent.meets (h : Coherent p s) (idle : s.work.pop? = none) {m : Method} {place : Place}
    {i : Instruction} (hi : Handled p s m place i)
    (attended : ∀ v, base? i = some v → Attended p s v) : Meets p passes s.facts m place i := by
  have flowing := h.faithful.flowing
  -- an object that the facts have at the base of a use has been served by it
  have served : ∀ {v a}, base? i = some v → .pointsTo (.var v) a ∈ s.facts →
      ∃ o, s.heap.allocation? o = some a ∧ Served p s (s.usesOf v) o (s.heap.typeOf o) := by
    intro v a hv ha
    obtain ⟨o, ho, hobj⟩ := mem_facts_var.1 ha
    exact ⟨o, hobj, (attended v hv).served o ho⟩
  cases i with
  | allocate target type =>
    obtain ⟨o, hobj, ho⟩ := hi
    exact mem_facts_var.2 ⟨o, arrives_of_idle idle ho, hobj⟩
  | copy | loadStatic | storeStatic => exact includes_of_edge flowing idle hi rfl rfl
  | loadField target base f =>
    intro a ha
    obtain ⟨o, hobj, hserved⟩ := served rfl ha
    have hbase := Heap.locate?_field (p.fieldOf f) hobj
    exact includes_of_edge flowing idle (hserved.loads _ (hi base rfl)) hbase rfl
  | storeField base f source =>
    intro a ha
    obtain ⟨o, hobj, hserved⟩ := served rfl ha
    have hbase := Heap.locate?_field (p.fieldOf f) hobj
    exact includes_of_edge flowing idle (hserved.stores _ (hi base rfl)) rfl hbase
  | loadElement target base =>
    intro a ha
    obtain ⟨o, hobj, hserved⟩ := served rfl ha
    have hbase := Heap.locate?_element hobj
    exact includes_of_edge flowing idle (hserved.elementLoads _ (hi base rfl)) hbase rfl
  | storeElement base source =>
    intro a ha
    obtain ⟨o, hobj, hserved⟩ := served rfl ha
    have hbase := Heap.locate?_element hobj
    exact includes_of_edge flowing idle (hserved.elementStores _ (hi base rfl)) rfl hbase
  | call call => exact h.meetsCall idle hi attended
  | ret value =>
    intro v r hv hr
    by_cases hne : r.var = v
    · rw [hne]
      exact fun _ => id
    · exact includes_of_edge flowing idle (hi v r hv hr hne) rfl rfl
  | other => trivial

/-- **What has been found when nothing is left to do solves the constraints.** -/
theorem Steady.solves (h : Steady p Set.univ s) (idle : s.work.pop? = none) {entry : MethodName}
    (hentry : entry ∈ s.calls.reachable.items) : Solves p passes entry s.facts := by
  refine ⟨hentry, fun name m hname hm x hx => ?_⟩
  exact h.coherent.meets idle (h.coherent.handled name hname (by simp [h.settled]) m hm x hx)
    fun v _ => h.attended v trivial

end Solved

/-! ### From the entry method on -/

section Explore

variable {p : Program} {heap : Heap} {phantoms : PhantomFields} {log : Array Event}
  {entry : MethodName} {facts : Set Fact}

theorem sound_opened (hentry : .reachable entry ∈ facts) :
    Sound facts (State.opened { log } entry) := by
  have fresh := State.fresh_initial ∅ ∅ log
  obtain ⟨-, hreachable, hcalls, hgraph, hwork⟩ := fresh.opened_frame entry
  have hnone : ∀ q o, ¬ (State.opened { log } entry).Arrives q o := by
    intro q o ho
    unfold State.Arrives State.pointsTo at ho
    rw [hgraph, hwork] at ho
    rcases ho with ho | ⟨d, hd, -⟩
    · cases ho
    · cases hd
  refine ⟨?_, ?_, fun q o ho => absurd ho (hnone q o), ?_⟩
  · rw [hreachable]
    intro m hm
    rw [List.mem_singleton.1 hm]
    exact hentry
  · rw [hcalls]
    exact fun k hk => by cases hk
  · rw [hgraph]
    exact fun e he => by cases he

theorem fitting_opened : Fitting p (State.opened { log } entry) := by
  intro site callee body hbad
  have hedge : (site, callee.id) ∈ (State.opened { log } entry).calls.edges.keys := hbad.edge
  rw [((State.fresh_initial ∅ ∅ log).opened_frame entry).2.2.1] at hedge
  cases hedge

/-- The loops end with calls that fit, or with a fault that blames what they have found. -/
theorem ends_explore (hp : p.Proper) (log : Array Event) (entry : MethodName) :
    Ends (Fitting p) (Faulted p (State.opened { log } entry))
      (State.explore { log } p entry) := by
  have horderly : (State.opened { log } entry).Orderly :=
    ((State.fresh_initial ∅ ∅ log).ready_opened p entry).orderly
  have run := moves_settle p horderly
  refine (ends_settleWithin hp _ horderly fitting_opened).andThen fun t ht hfit => ?_
  change (State.opened { log } entry).settle p = .going t at ht
  rw [ht] at run
  exact (ends_analyzeWithin hp _ (moves_keep (fun _ _ => Move.orderly) run horderly)
    hfit).mono (fun _ => id) fun fault hf => hf.behind run

/-- Loops that come to their ends are steady there, and whatever each method that is processed and
each delivery keep in such a run holds at its end. -/
theorem explore_keep (hp : p.Proper) (inv : State → Prop)
    (settle : ∀ {s name rest t}, Coherent p s → (∀ v, Attended p s v) → inv s →
      s.pending = name :: rest →
      State.processMethod { s with pending := rest } p name = .going t → inv t)
    (deliver : ∀ {s d work t}, Steady p Set.univ s → inv s → s.work.pop? = some (d, work) →
      Delivers p { s with work } d (.going t) → inv t)
    (hinv : inv (State.opened { heap, phantoms, log } entry)) {s : State}
    (goes : State.explore { heap, phantoms, log } p entry = .going s) :
    Steady p Set.univ s ∧ s.work.pop? = none ∧ inv s := by
  have fresh := State.fresh_initial heap phantoms log
  have ready := fresh.ready_opened p entry
  have coherent := (fresh.coherent p).asked (.opened _ entry) (fresh.rooted.opened entry)
  have attended := fun v => (fresh.attended p v).asked hp fresh.rooted (.opened _ entry)
  have hsettle := settles_settle p (State.opened { heap, phantoms, log } entry)
  have hready := (ready.settles hsettle).1
  have hknown := fun v => moves_known hp (hsettle.moves ready.orderly) coherent.faithful
    ((fresh.known v).opened entry)
  obtain ⟨t, hs, goes⟩ := Progress.andThen_eq_going.1 goes
  rw [hs] at hsettle hready hknown
  obtain ⟨hcoherent, hattended, hinv⟩ := hsettle.keep
    (fun u => Coherent p u ∧ (∀ v, Attended p u v) ∧ inv u)
    (fun hu next goes => by
      obtain ⟨hcoherent, hattended⟩ := hu.1.processMethod hp next goes
      exact ⟨hcoherent, fun v => hattended v (hu.2.1 v), settle hu.1 hu.2.1 hu.2.2 next goes⟩)
    ⟨coherent, attended, hinv⟩ rfl
  have hanalyze : Analyzes p t (t.analyze p) := Ready.analyzes hready
  obtain ⟨hsteady, hinv⟩ := hanalyze.keep (fun u => Steady p Set.univ u ∧ inv u)
    (fun hu next delivers => ⟨hu.1.delivers hp next delivers, deliver hu.1 hu.2 next delivers⟩)
    ⟨⟨hcoherent, hsettle.pending_eq_nil rfl, fun v _ => hattended v, fun v _ => hknown v⟩, hinv⟩
    goes
  exact ⟨hsteady, hanalyze.idle goes, hinv⟩

/-- Loops that come to their ends leave nothing to do. -/
theorem steady_explore (hp : p.Proper) {s : State}
    (goes : State.explore { heap, phantoms, log } p entry = .going s) :
    Steady p Set.univ s ∧ s.work.pop? = none := by
  obtain ⟨hsteady, hidle, -⟩ := explore_keep hp (fun _ => True) (fun _ _ _ _ _ => trivial)
    (fun _ _ _ _ => trivial) trivial goes
  exact ⟨hsteady, hidle⟩

/-- What the loops have found at their ends solves the constraints. -/
theorem solves_explore (hp : p.Proper) {passes : Call → Body → Prop} {s : State}
    (goes : State.explore { log } p entry = .going s) : Solves p passes entry s.facts := by
  obtain ⟨hsteady, hidle⟩ := steady_explore hp goes
  have run := moves_explore p ((State.fresh_initial ∅ ∅ log).ready_opened p entry).orderly
  rw [goes] at run
  have hopened : entry ∈ (State.opened { log } entry).calls.reachable.items := by
    rw [((State.fresh_initial ∅ ∅ log).opened_frame entry).2.1]
    exact List.mem_singleton.2 rfl
  exact hsteady.solves hidle ((moves_extend run).reachable entry hopened)

/-- What the loops have found, every solution holds. -/
theorem sound_explore (hp : p.Proper) (hsol : Solves p Call.Fits entry facts) {s : State}
    (goes : State.explore { log } p entry = .going s) : Sound facts s := by
  have run := moves_explore p ((State.fresh_initial ∅ ∅ log).ready_opened p entry).orderly
  have hfit := ends_explore hp log entry
  rw [goes] at run hfit
  have huses := ((State.fresh_initial ∅ ∅ log).ready_opened p entry).uses
  exact (moves_sound hp hsol run huses (sound_opened hsol.entry) hfit).2

end Explore

section Analysis

variable {p : Program} {entry : Method} {s : State}

theorem analyzeFrom_eq_explore (hasBody : entry.body.isSome) :
    analyzeFrom p entry =
      (State.explore { log := #[.asked p.classes.size entry.id] } p entry.id).andThen fun t =>
        .going (t.record (.finished t.summary)) :=
  solve_eq_explore hasBody

/-- An analysis that finds its end has an entry method with a body. -/
theorem hasBody_of_going (goes : analyzeFrom p entry = .going s) : entry.body.isSome := by
  have hrun : Runs p { log := #[.asked p.classes.size entry.id] } (some entry) (.going s) :=
    goes ▸ runs_solve p _ (some entry)
  cases hrun with
  | finish hasBody => exact hasBody

/-- An analysis that finds its end has done what its loops do. -/
theorem explore_of_going (goes : analyzeFrom p entry = .going s) :
    ∃ t, State.explore { log := #[.asked p.classes.size entry.id] } p entry.id = .going t ∧
      s = t.record (.finished t.summary) := by
  rw [analyzeFrom_eq_explore (hasBody_of_going goes)] at goes
  obtain ⟨t, he, goes⟩ := Progress.andThen_eq_going.1 goes
  exact ⟨t, he, (Progress.going.inj goes).symm⟩

/-- **An analysis that finds its end has found the least solution.** The sets of all pointers are
those of the least solution, since every pointer that points to anything and every object in its set
have their places on the heap. -/
theorem analysis_isLeast (h : Jimple.Parsed p) (goes : analyzeFrom p entry = .going s) :
    IsLeast {facts | Solves p (fun _ _ => True) entry.id facts} s.facts ∧
      ∀ q o, o ∈ (s.pointsTo q).items ↔ ∃ l a, s.heap.locate? q = some l ∧
        s.heap.allocation? o = some a ∧ .pointsTo l a ∈ s.facts := by
  obtain ⟨t, hgoes, rfl⟩ := explore_of_going goes
  have hp := h.proper
  have hsolves : ∀ passes, Solves p passes entry.id t.facts := fun _ => solves_explore hp hgoes
  refine ⟨⟨hsolves _, fun facts hsol => ?_⟩, fun q o => ⟨fun ho => ?_, ?_⟩⟩
  · exact (sound_explore hp (Solves.weaken (fun _ _ _ => trivial) hsol) hgoes).facts_subset
  · have hsound := sound_explore hp (hsolves _) hgoes
    exact hsound.arrives q o (.inl ho)
  · rintro ⟨l, a, hl, ha, q', o', ho', hl', ha'⟩
    obtain rfl : q = q' := t.heap.locate?_injective hl hl'
    obtain rfl : o = o' := t.heap.allocation?_injective ha ha'
    exact ho'

theorem analysis_isLeast_knot :
    ∃ m s, Jimple.knot.main? = some m ∧ analyzeFrom Jimple.knot m = .going s ∧
      IsLeast {facts | Solves Jimple.knot (fun _ _ => True) m.id facts} s.facts ∧
      ∀ q o, o ∈ (s.pointsTo q).items ↔ ∃ l a, s.heap.locate? q = some l ∧
        s.heap.allocation? o = some a ∧ .pointsTo l a ∈ s.facts := by
  obtain ⟨m, hm, hfault⟩ := (Option.any_eq_true _ _).1 Jimple.knot_runs.1
  have goes := Progress.eq_going hfault
  exact ⟨m, _, hm, goes, analysis_isLeast Jimple.parsed_knot goes⟩

end Analysis

end PointsTo.Solver
