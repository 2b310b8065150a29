import PointsTo.Proofs.Chains
import PointsTo.Proofs.Load
import PointsTo.Proofs.Reading
import PointsTo.Proofs.Requests

/-!
The analysis comes to its end. At the head of either loop a state is ready: its uses account for the
calls of the methods that have been processed. Settling keeps a state ready and does not raise its
load, a delivery lowers the load, and the load that a state begins with is below the bound of
`analyze`. So that bound never cuts the loop short.
-/
namespace PointsTo.Solver

open Relation (ReflTransGen)

/-- What holds of a state at the head of a loop. -/
structure Ready (p : Program) (s : State) : Prop where
  orderly : s.Orderly
  uses : UsesStated p s
  rooted : Rooted s
  calls : ∀ v, (s.usesOf v).calls.length + s.left p invokes ≤ p.callSites.length

section Ready

variable {p : Program} {U : Universe p} {s t : State}

theorem moves_confined (run : ReflTransGen (Move p) s t) (huses : UsesStated p s)
    (h : Confined U s) : UsesStated p t ∧ Confined U t := by
  induction run with
  | refl => exact ⟨huses, h⟩
  | tail _ move ih => exact ⟨move.usesStated ih.1, move.confined ih.1 ih.2⟩

/-- A measure that each action of a list raises by no more than its cost. -/
theorem forEach_cost {α : Type} (action : α → State → Progress) (measure : State → Nat)
    (cost : α → Nat) (inv : State → Prop) (items : List α)
    (step : ∀ a ∈ items, ∀ s, inv s →
      inv (action a s).state ∧ measure (action a s).state ≤ measure s + cost a)
    {s : State} (h : inv s) :
    measure (forEach action items s).state ≤ measure s + (items.map cost).sum := by
  induction items generalizing s with
  | nil => exact Nat.le_refl _
  | cons a rest ih =>
    obtain ⟨kept, hle⟩ := step a (by simp) s h
    rw [forEach, List.map_cons, List.sum_cons]
    cases hr : action a s with
    | going t =>
      rw [hr] at kept hle
      have more := ih (fun b hb => step b (by simp [hb])) kept
      rw [Progress.state_going] at hle more
      rw [Progress.going_andThen]
      omega
    | stopped t fault =>
      rw [hr] at hle
      rw [Progress.state_stopped] at hle
      rw [Progress.stopped_andThen, Progress.state_stopped]
      omega

theorem calls_process_le (s : State) (m : Method) (place : Place) (i : Instruction)
    (v : Variable) :
    ((s.process p m place i).state.usesOf v).calls.length ≤
      (s.usesOf v).calls.length + invokes i := by
  cases hbase : base? i with
  | none =>
    rw [(acts_process (p := p) s m place i).usesOf_eq hbase]
    omega
  | some w =>
    rw [process_eq_addUse s hbase, Progress.state_going, State.usesOf_addUse]
    split
    · next hw =>
      subst hw
      cases i <;> simp [Uses.register, invokes]
    · omega

theorem processMethod_of_found {name : MethodName} {m : Method} (hm : p.method? name = some m) :
    s.processMethod p name =
      forEach (fun x t => t.process p m x.1 x.2) m.placed s := by
  unfold State.processMethod
  rw [hm]

/-- Processing a method pays for the calls that it registers. -/
theorem calls_processMethod_le (ho : s.Orderly) {name : MethodName} {rest : List MethodName}
    (next : s.pending = name :: rest) (v : Variable) :
    ((State.processMethod { s with pending := rest } p name).state.usesOf v).calls.length +
        (State.processMethod { s with pending := rest } p name).state.left p invokes ≤
      (s.usesOf v).calls.length + s.left p invokes := by
  cases hm : p.method? name with
  | none =>
    have hle : State.left { s with pending := rest } p invokes ≤ s.left p invokes :=
      (Move.settle next).left_le _
    unfold State.processMethod
    rw [hm]
    exact Nat.add_le_add_left hle _
  | some m =>
    have hpaid := left_settle invokes ho next hm
    have hcost := forEach_cost (fun (x : Place × Instruction) t => State.process t p m x.1 x.2)
      (fun t => (t.usesOf v).calls.length + t.left p invokes) (fun x => invokes x.2)
      (fun _ => True) m.placed (s := { s with pending := rest }) (fun x _ t _ => ⟨trivial, by
        have hcalls := calls_process_le (p := p) t m x.1 x.2 v
        have hleft := (acts_process (p := p) t m x.1 x.2).acted.left_le (p := p) invokes
        omega⟩) trivial
    have huses : State.usesOf { s with pending := rest } v = s.usesOf v := rfl
    have htotal : (m.placed.map fun x => invokes x.2).sum = m.total invokes := rfl
    rw [processMethod_of_found hm]
    rw [huses, htotal] at hcost
    omega

/-- Processing a method pays for the deliveries that it sends. -/
theorem Ready.load_processMethod (h : Ready p s) (hc : Confined U s) {name : MethodName}
    {rest : List MethodName} (next : s.pending = name :: rest) :
    load U (State.processMethod { s with pending := rest } p name).state ≤ load U s := by
  have first : ReflTransGen (Move p) s { s with pending := rest } := .single (.settle next)
  have hname : name ∈ s.calls.reachable.items := h.orderly.reached name (by simp [next])
  have account : ∀ k, State.left { s with pending := rest } p sends + k ≤ s.left p sends →
      load U { s with pending := rest } + k ≤ load U s := by
    intro k hk
    show s.work.size + State.left { s with pending := rest } p sends +
      (U.pointers.length * U.pointers.length - s.graph.edges.size) +
      (missing U s).card * (U.pointers.length + p.callSites.length) + k ≤ load U s
    unfold load
    omega
  cases hm : p.method? name with
  | none =>
    have hle : State.left { s with pending := rest } p sends ≤ s.left p sends :=
      (Move.settle next).left_le _
    unfold State.processMethod
    rw [hm]
    exact account 0 hle
  | some m =>
    -- what the statements send is paid for by the method, which is left no longer
    have hpaid := account _ (left_settle sends h.orderly next hm)
    have hcost := forEach_cost (fun (x : Place × Instruction) t => State.process t p m x.1 x.2)
      (load U) (fun x => sends x.2)
      (fun t => ReflTransGen (Move p) s t ∧ name ∈ t.calls.reachable.items) m.placed
      (s := { s with pending := rest }) (by
        rintro ⟨place, i⟩ hmem t ⟨run, hreach⟩
        have act := acts_process (p := p) t m place i
        have run' := run.trans (act.moves ⟨name, hreach, hm, hmem⟩)
        exact ⟨⟨run', act.extends.reachable name hreach⟩,
          act.load_le (moves_confined run' h.uses hc).2⟩) ⟨first, hname⟩
    have htotal : (m.placed.map fun x => sends x.2).sum = m.total sends := rfl
    rw [processMethod_of_found hm]
    rw [htotal] at hcost
    exact hcost.trans hpaid

/-- What moves lead to is ready if its calls are accounted for. -/
theorem Ready.moves (h : Ready p s) (run : ReflTransGen (Move p) s t)
    (calls : ∀ v, (t.usesOf v).calls.length + t.left p invokes ≤ p.callSites.length) :
    Ready p t :=
  ⟨moves_keep (fun _ _ => Move.orderly) run h.orderly,
    moves_keep (fun _ _ hs move => move.usesStated hs) run h.uses,
    moves_keep (fun _ _ => Move.rooted) run h.rooted, calls⟩

theorem Ready.processMethod (h : Ready p s) {name : MethodName} {rest : List MethodName}
    (next : s.pending = name :: rest) :
    Ready p (State.processMethod { s with pending := rest } p name).state ∧
      ∀ U : Universe p, Confined U s →
        Confined U (State.processMethod { s with pending := rest } p name).state ∧
          load U (State.processMethod { s with pending := rest } p name).state ≤ load U s := by
  have first : ReflTransGen (Move p) s { s with pending := rest } := .single (.settle next)
  have hname : name ∈ s.calls.reachable.items := h.orderly.reached name (by simp [next])
  have run := first.trans (moves_processMethod (p := p) (s := { s with pending := rest }) hname)
  refine ⟨h.moves run fun v => ?_, fun U hc => ?_⟩
  · exact (calls_processMethod_le h.orderly next v).trans (h.calls v)
  · exact ⟨(moves_confined run h.uses hc).2, h.load_processMethod hc next⟩

/-- **Settling keeps a state ready and does not raise its load.** -/
theorem Ready.settles {r : Progress} (h : Ready p s) (hs : Settles p s r) :
    Ready p r.state ∧ ∀ U : Universe p, Confined U s →
      Confined U r.state ∧ load U r.state ≤ load U s := by
  induction hs with
  | done => exact ⟨h, fun U hc => ⟨hc, Nat.le_refl _⟩⟩
  | stop next stops =>
    have hstep := h.processMethod next
    rw [stops] at hstep
    exact hstep
  | again next goes _ ih =>
    have hstep := h.processMethod next
    rw [goes] at hstep
    obtain ⟨hready, hrest⟩ := ih hstep.1
    refine ⟨hready, fun U hc => ?_⟩
    obtain ⟨hconfined, hle⟩ := hstep.2 U hc
    obtain ⟨hconfined, hle'⟩ := hrest U hconfined
    exact ⟨hconfined, hle'.trans hle⟩

/-! ### Deliveries -/

/-- **A delivery keeps a state ready and lowers its load.** -/
theorem Ready.accept {d : Delivery} {work : Queue Delivery} (h : Ready p s)
    (next : s.work.pop? = some (d, work)) :
    Ready p (State.accept { s with work } p d).state ∧
      ∀ U : Universe p, Confined U s → Confined U (State.accept { s with work } p d).state ∧
        load U (State.accept { s with work } p d).state + 1 ≤ load U s := by
  have ready : ∀ t, ReflTransGen (Move p) s t → (∀ v, t.usesOf v = s.usesOf v) → Ready p t := by
    intro t run huses
    refine h.moves run fun v => ?_
    have hcalls := h.calls v
    have hleft : t.left p invokes ≤ s.left p invokes := moves_keep
      (fun _ _ ht move => (move.left_le _).trans ht) run (Nat.le_refl _)
    rw [huses v]
    omega
  rw [accept_eq]
  split
  · next v hv =>
    have hstart : Accepting p s v (s.fresh d.pointer d.objects) (s.take d work) := .take next hv
    have hend := forEach_keeps (Accepting p s v (s.fresh d.pointer d.objects))
      (fun o ho t ht => ht.discover ho) hstart
    refine ⟨ready _ hend.run hend.uses, fun U hc => ⟨(moves_confined hend.run h.uses hc).2, ?_⟩⟩
    -- each new object sends at most one delivery for every call of the program
    have hcost := forEach_cost (fun o t => State.discover t p v o) (load U)
      (fun _ => p.callSites.length) (Accepting p s v (s.fresh d.pointer d.objects))
      (s.fresh d.pointer d.objects).items (fun o ho t ht => by
        refine ⟨ht.discover ho, ?_⟩
        have hconfined := (moves_confined (ht.discover ho).run h.uses hc).2
        have hload := (acts_discover (p := p) t v o).load_le hconfined
        have hcalls := h.calls v
        rw [ht.uses v] at hload
        omega) hstart
    rw [List.map_const', List.sum_replicate_nat] at hcost
    have hsize : (s.fresh d.pointer d.objects).items.length =
      (s.fresh d.pointer d.objects).size := rfl
    have htake := load_take hc next
    rw [hsize] at hcost
    omega
  · have huses := State.usesOf_congr (take_frame s d work).2.2.1
    have run : ReflTransGen (Move p) s (s.take d work) := .single (.take next)
    refine ⟨ready _ run huses, fun U hc => ⟨(moves_confined run h.uses hc).2, ?_⟩⟩
    have htake := load_take hc next
    rw [Progress.state_going]
    omega

/-- The bounded loop is the loop if the bound is above the load. -/
theorem analyzes_analyzeWithin (limit : Nat) (h : Ready p s) (hc : Confined U s)
    (hlimit : load U s < limit) : Analyzes p s (State.analyzeWithin p limit s) := by
  induction limit generalizing s with
  | zero => omega
  | succ limit ih =>
    unfold State.analyzeWithin
    split
    · next hnone => exact .done hnone
    · next d work next =>
      obtain ⟨hready, haccepted⟩ := h.accept next
      obtain ⟨hconfined, hle⟩ := haccepted U hc
      unfold State.deliver
      cases hm : State.accept { s with work } p d with
      | stopped t fault => exact .stop next (.stop hm)
      | going t =>
        rw [hm] at hready hconfined hle
        rw [Progress.state_going] at hready hconfined hle
        have hsettle := settles_settle p t
        obtain ⟨hready', hsettled⟩ := hready.settles hsettle
        obtain ⟨hconfined', hle'⟩ := hsettled U hconfined
        rw [Progress.going_andThen]
        cases ht : t.settle p with
        | stopped u fault =>
          rw [ht] at hsettle
          exact .stop next (.settle hm hsettle)
        | going u =>
          rw [ht] at hsettle hready' hconfined' hle'
          rw [Progress.state_going] at hready' hconfined' hle'
          exact .again next (.settle hm hsettle) (ih hready' hconfined' (by omega))

/-- The load of a state is below the bound that the program and the state give. -/
theorem load_lt_analyzeLimit (p : Program) (s : State) :
    load (Universe.from p s) s < s.analyzeLimit p := by
  have hleft := left_le_total s p sends
  rw [total_sends] at hleft
  have hmissing : (missing (Universe.from p s) s).card ≤ s.pointerLimit p * s.objectLimit p := by
    refine (Finset.card_filter_le _ _).trans ?_
    rw [Finset.card_product, Finset.card_range, length_allocations_from]
    refine Nat.mul_le_mul_right _ ((List.toFinset_card_le _).trans ?_)
    exact Nat.le_of_eq (length_pointers_from p s)
  have hfacts := Nat.mul_le_mul_right (s.pointerLimit p + p.callSites.length) hmissing
  unfold load State.analyzeLimit
  rw [length_pointers_from]
  dsimp only
  omega

/-- **From a state that is ready, `analyze` is the loop that it bounds.** -/
theorem Ready.analyzes (h : Ready p s) : Analyzes p s (s.analyze p) :=
  analyzes_analyzeWithin (s.analyzeLimit p) h h.rooted.confined (load_lt_analyzeLimit p s)

end Ready

section Asked

variable {p : Program} {s t : State}

/-- What is asked for from outside costs nothing. -/
theorem Ready.asked (h : Ready p s) (asked : Asked s t) (rooted : Rooted t) : Ready p t := by
  refine ⟨asked.toActed.orderly h.orderly, h.uses.keep asked.ext asked.uses, rooted, fun v => ?_⟩
  have hcalls := h.calls v
  have hleft := asked.toActed.left_le (p := p) invokes
  rw [State.usesOf_congr asked.uses]
  omega

theorem ready_of_unused (p : Program) (orderly : s.Orderly) (rooted : Rooted s)
    (unused : s.uses = ∅) : Ready p s := by
  refine ⟨orderly, usesStated_of_unused unused, rooted, fun v => ?_⟩
  have hle := left_le_total s p invokes
  rw [total_invokes] at hle
  rw [usesOf_of_unused unused]
  exact (Nat.zero_add _).symm ▸ hle

theorem State.Fresh.ready (h : s.Fresh) (p : Program) : Ready p s :=
  ready_of_unused p h.orderly h.rooted h.uses

theorem State.Fresh.ready_opened (h : s.Fresh) (p : Program) (m : MethodName) :
    Ready p (s.opened m) :=
  (h.ready p).asked (.opened s m) (h.rooted.opened m)

end Asked

/-! ### Whole runs -/

section Start

variable {p : Program} {log : Array Event} {m : MethodName}

/-- **A run comes to its end: the analysis is what its loops do when nothing bounds them.** -/
theorem runs_solve (p : Program) (log : Array Event) (entry : Option Method) :
    Runs p { log } entry (State.solve { log } p entry) := by
  cases entry with
  | none => exact .noEntry
  | some m =>
    cases hb : m.body with
    | none =>
      unfold State.solve State.start
      dsimp only
      rw [hb, if_pos (show (none : Option Body).isNone = true from rfl)]
      exact .bodyless hb
    | some body =>
      have hasBody : m.body.isSome := by rw [hb]; rfl
      have hsettle := settles_settle p (State.opened { log } m.id)
      have hopened := (State.fresh_initial ∅ ∅ log).ready_opened p m.id
      have hready := (hopened.settles hsettle).1
      rw [solve_eq_explore hasBody]
      unfold State.explore
      cases hs : (State.opened { log } m.id).settle p with
      | stopped t fault =>
        rw [hs] at hsettle
        exact .stopSettling hasBody hsettle
      | going t =>
        rw [hs] at hsettle hready
        rw [Progress.going_andThen]
        have hanalyze : Analyzes p t (t.analyze p) := Ready.analyzes hready
        cases ha : t.analyze p with
        | stopped u fault =>
          rw [ha] at hanalyze
          exact .stopAnalyzing hasBody hsettle hanalyze
        | going u =>
          rw [ha] at hanalyze
          exact .finish hasBody hsettle hanalyze

/-- **The analysis terminates.** What `solve` answers is the one result that its loops have when
nothing bounds them, and the walks over classes that the loops ask for come to their ends as
well. -/
theorem analysis_terminates (p : Program) (hp : p.FiniteChains) (log : Array Event)
    (entry : Option Method) :
    (∀ r, Runs p { log } entry r ↔ r = State.solve { log } p entry) ∧
      (∀ name, p.Climbs name (p.ancestry name)) ∧
      ∀ links start, p.Scans links start [] (p.reach links start) := by
  refine ⟨fun r => ⟨fun h => h.unique (runs_solve p log entry), ?_⟩, fun name => ?_, ?_⟩
  · rintro rfl
    exact runs_solve p log entry
  · exact Program.climbs_ancestry hp name
  · exact fun links start => Program.scans_reachFrom links start []

theorem analysis_terminates_knot :
    Jimple.knot.FiniteChains ∧ ∃ m, Jimple.knot.main? = some m ∧
      (∀ r, Runs Jimple.knot { log := #[] } (some m) r ↔
        r = State.solve { log := #[] } Jimple.knot (some m)) ∧
      (∀ name, Jimple.knot.Climbs name (Jimple.knot.ancestry name)) ∧
      ∀ links start, Jimple.knot.Scans links start [] (Jimple.knot.reach links start) := by
  obtain ⟨hruns, hchains⟩ := Jimple.knot_runs
  have hp : Jimple.knot.FiniteChains := by
    refine Program.finiteChains_of_rank (fun n => if n = objectClass then 0 else 1) ?_
    intro c hc above hlink
    obtain ⟨hname, habove⟩ := hchains c hc
    rw [if_pos (habove above hlink), if_neg hname]
    exact Nat.one_pos
  obtain ⟨m, hm, -⟩ := (Option.any_eq_true _ _).1 hruns
  exact ⟨hp, m, hm, analysis_terminates Jimple.knot hp #[] (some m)⟩

end Start

end PointsTo.Solver
