import PointsTo.Proofs.Solution

/-!
When the analysis stops. The constraints have a least solution even where calls do not fit their
bodies or find no method; such a call is only held to bind nothing. The analysis finds its end just
when there is no such call in the least solution, and otherwise its fault names one.
-/
namespace PointsTo.Solver

/-- The fault names a call of the facts that cannot be made. -/
inductive Offends (p : Program) (facts : Set Fact) : AnalysisFault → Prop
  /-- A call edge whose callee has a body with another number of parameters. -/
  | mismatch {site callee body} (edge : .calls site callee.id ∈ facts)
      (declared : p.method? callee.id = some callee) (hasBody : callee.body = some body)
      (unfit : site.call.args.length ≠ body.params.length) :
      Offends p facts
        (.argumentMismatch site.place callee.id site.call.args.length body.params.length)
  /-- A call of a reachable method for which no method is found on an object of its receiver. -/
  | missing {name m place call receiver o receiverClass subsignature}
      (reachable : .reachable name ∈ facts) (declared : p.method? name = some m)
      (mem : (place, .call call) ∈ m.placed) (kind : ¬ call.kind.isLinked = true)
      (isReceiver : call.receiver = some receiver) (object : .pointsTo (.var receiver) o ∈ facts)
      (dead : p.resolveCall (some o.type) call = .missing receiverClass subsignature) :
      Offends p facts (.noMethod receiverClass subsignature place)

section Verdict

variable {p : Program} {entry : MethodName} {facts : Set Fact} {c : Trigger} {s : State}

/-- What an allowed trigger is blamed for is an offence of every solution. -/
theorem Blames.offends (hp : p.Proper) (hsol : Solves p Call.Fits entry facts)
    (huses : UsesStated p s) (h : Sound facts s) (allowed : c.Allowed p s) {fault : AnalysisFault}
    (blames : Blames p c fault) : Offends p facts fault := by
  cases blames with
  | mismatch calls hasBody unfit =>
    have hbinds := h.binds hsol huses allowed calls
    exact .mismatch hbinds.edge (calls.declared hp) hasBody unfit
  | @missing uses o type site _ _ mem dead =>
    obtain ⟨a, -, rfl, hfact⟩ := h.object allowed
    rw [allowed.1] at mem
    obtain ⟨name, hname, m, hm, hmem⟩ := huses.site mem
    obtain ⟨kind, isReceiver⟩ := base?_call.1 (huses.calls _ site mem)
    exact .missing (h.reachable name hname) hm hmem kind isReceiver hfact dead

theorem Faulted.offends (hp : p.Proper) (hsol : Solves p Call.Fits entry facts)
    {log : Array Event} {fault : AnalysisFault}
    (h : Faulted p (State.opened { log } entry) fault) : Offends p facts fault := by
  obtain ⟨u, c, run, hfit, allowed, blames⟩ := h
  have ready := (State.fresh_initial ∅ ∅ log).ready_opened p entry
  obtain ⟨huses, hsound⟩ := moves_sound hp hsol run ready.uses (sound_opened hsol.entry) hfit
  exact blames.offends hp hsol huses hsound allowed

/-- What has been found when nothing is left to do has no offence in it. -/
theorem Steady.not_offends (h : Steady p Set.univ s) (hfit : Fitting p s)
    (fault : AnalysisFault) : ¬ Offends p s.facts fault := by
  rintro (⟨edge, declared, hasBody, unfit⟩ |
    @⟨name, m, place, call, receiver, o, _, _, reachable, declared, mem, kind, isReceiver, object,
      dead⟩)
  · exact hfit _ _ _ ⟨edge, declared, hasBody, unfit⟩
  · have hhandled := h.coherent.handled name reachable (by simp [h.settled]) m declared _ mem
    have hsite := hhandled.2 receiver (base?_call.2 ⟨kind, isReceiver⟩)
    obtain ⟨x, hx, hobj⟩ := mem_facts_var.1 object
    have hserved := (h.attended receiver trivial).served x hx
    rw [typeOf_of_allocation hobj] at hserved
    exact (hserved.calls ⟨place, call⟩ hsite).alive _ _ dead

theorem Offends.mono {facts' : Set Fact} (hle : facts ⊆ facts') {fault : AnalysisFault}
    (h : Offends p facts fault) : Offends p facts' fault := by
  cases h with
  | mismatch edge declared hasBody unfit => exact .mismatch (hle edge) declared hasBody unfit
  | missing reachable declared mem kind isReceiver object dead =>
    exact .missing (hle reachable) declared mem kind isReceiver (hle object) dead

end Verdict

/-- **The analysis finds its end if and only if the least solution has no call in it that cannot be
made. If it stops, its fault names such a call.** -/
theorem analysis_verdict {p : Program} (h : Jimple.Parsed p) (entry : Method)
    (hasBody : entry.body.isSome) :
    ((∃ s, analyzeFrom p entry = .going s) ↔
      ∀ fault, ¬ Offends p (leastSolution p Call.Fits entry.id) fault) ∧
    ∀ s fault, analyzeFrom p entry = .stopped s fault →
      Offends p (leastSolution p Call.Fits entry.id) fault := by
  have hp := h.proper
  obtain ⟨hsol, hleast⟩ := isLeast_leastSolution p Call.Fits entry.id
  have stops : ∀ s fault, analyzeFrom p entry = .stopped s fault →
      Offends p (leastSolution p Call.Fits entry.id) fault := by
    intro s fault hstop
    have hends := ends_explore hp #[.asked p.classes.size entry.id] entry.id
    rw [analyzeFrom_eq_explore hasBody] at hstop
    cases he : State.explore { log := #[.asked p.classes.size entry.id] } p entry.id with
    | going t =>
      rw [he] at hstop
      cases hstop
    | stopped t fault' =>
      rw [he] at hstop hends
      cases hstop
      exact Faulted.offends hp hsol hends
  refine ⟨⟨fun ⟨s, goes⟩ fault hoff => ?_, fun hnone => ?_⟩, stops⟩
  · obtain ⟨t, hgoes, rfl⟩ := explore_of_going goes
    obtain ⟨hsteady, -⟩ := steady_explore hp hgoes
    have hends := ends_explore hp #[.asked p.classes.size entry.id] entry.id
    rw [hgoes] at hends
    have hoff' := hoff.mono (hleast (solves_explore hp hgoes))
    exact hsteady.not_offends hends fault hoff'
  · cases ha : analyzeFrom p entry with
    | going s => exact ⟨s, rfl⟩
    | stopped s fault => exact absurd (stops s fault ha) (hnone fault)

/-- A call without arguments of a method with one parameter. -/
def misfitText : String :=
  "class A\n\x7b\nstatic void m(A)\n\x7b\n\x7d\nstatic void main(java.lang.String[])\n\x7b\n" ++
  "staticinvoke <A: void m(A)>();\n\x7d\n\x7d\n"

def misfit : Program := (Jimple.read ∅ misfitText).1

theorem misfit_stops :
    (misfit.main?.any fun m => m.body.isSome && (analyzeFrom misfit m).fault?.isSome) = true := by
  decide +kernel

theorem analysis_verdict_misfit :
    ∃ m s fault, misfit.main? = some m ∧ analyzeFrom misfit m = .stopped s fault ∧
      ((∃ s, analyzeFrom misfit m = .going s) ↔
        ∀ fault, ¬ Offends misfit (leastSolution misfit Call.Fits m.id) fault) ∧
      Offends misfit (leastSolution misfit Call.Fits m.id) fault := by
  obtain ⟨m, hm, hstops⟩ := (Option.any_eq_true _ _).1 misfit_stops
  obtain ⟨hasBody, hfault⟩ := Bool.and_eq_true_iff.1 hstops
  obtain ⟨hiff, hoffends⟩ := analysis_verdict (.read .empty misfitText) m hasBody
  cases ha : analyzeFrom misfit m with
  | going s =>
    rw [ha] at hfault
    cases hfault
  | stopped s fault => exact ⟨m, s, fault, hm, ha, hiff, hoffends s fault ha⟩

end PointsTo.Solver
