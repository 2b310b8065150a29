import PointsTo.Proofs.Verdict

/-!
Starting the analysis elsewhere. A solution of the constraints in which every call can be made
bounds the analysis from any method that it holds to be reachable: the analysis finds its end and
finds nothing else. What an analysis has found is such a solution for each method that it has
reached, so starting from one of them needs no look at the run.
-/
namespace PointsTo.Solver

/-- The facts of the state leave nothing out: a pointer that has an object has its location, and the
object its allocation. -/
def State.Located (s : State) : Prop :=
  ∀ q, ∀ o ∈ (s.pointsTo q).items,
    ∃ l a, s.heap.locate? q = some l ∧ s.heap.allocation? o = some a

section Restart

variable {p : Program} {passes : Call → Body → Prop} {entry : MethodName} {facts : Set Fact}

/-- Where a solution starts matters only in that the start is reachable. -/
theorem Solves.restart (h : Solves p passes entry facts) {name : MethodName}
    (hname : .reachable name ∈ facts) : Solves p passes name facts :=
  ⟨hname, h.statements⟩

/-- What an analysis has found is a solution in which every call can be made. -/
theorem solves_of_going (hp : p.Proper) {e : Method} {s : State}
    (goes : analyzeFrom p e = .going s) :
    (∀ passes, Solves p passes e.id s.facts) ∧ ∀ fault, ¬ Offends p s.facts fault := by
  obtain ⟨t, hgoes, rfl⟩ := explore_of_going goes
  obtain ⟨hsteady, -⟩ := steady_explore hp hgoes
  have hfits := ends_explore hp #[.asked p.classes.size e.id] e.id
  rw [hgoes] at hfits
  have hsol : ∀ passes, Solves p passes e.id t.facts := fun _ => solves_explore hp hgoes
  exact ⟨hsol, hsteady.not_offends hfits⟩

/-- **A solution in which every call can be made bounds the analysis.** -/
theorem going_of_solves (hp : p.Proper) {m : Method} (hasBody : m.body.isSome)
    (hsol : Solves p Call.Fits m.id facts) (clear : ∀ fault, ¬ Offends p facts fault) :
    ∃ t, analyzeFrom p m = .going t ∧ t.facts ⊆ facts := by
  rw [analyzeFrom_eq_explore hasBody]
  cases he : State.explore { log := #[.asked p.classes.size m.id] } p m.id with
  | going t =>
    exact ⟨_, rfl, (sound_explore hp hsol he).facts_subset⟩
  | stopped t fault =>
    have hends := ends_explore hp #[.asked p.classes.size m.id] m.id
    rw [he] at hends
    exact absurd (Faulted.offends hp hsol hends) (clear fault)

theorem located_of_going (hp : p.Proper) {e : Method} {s : State}
    (goes : analyzeFrom p e = .going s) : s.Located := by
  obtain ⟨t, hgoes, rfl⟩ := explore_of_going goes
  have hsound := sound_explore hp (solves_explore hp hgoes) hgoes
  intro q o ho
  obtain ⟨l, a, hl, ha, -⟩ := hsound.arrives q o (.inl ho)
  exact ⟨l, a, hl, ha⟩

end Restart

/-- **The analysis from a method that was reached finds its end, and finds nothing new**: its
reachable methods, its call edges and its objects at each pointer were all found from the entry
that the method was reached from. -/
theorem analysis_restarts {p : Program} (h : Jimple.Parsed p) {e m : Method}
    (hasBody : m.body.isSome) {s : State} (goes : analyzeFrom p e = .going s)
    (hm : m.id ∈ s.calls.reachable.items) :
    ∃ t, analyzeFrom p m = .going t ∧
      (∀ name ∈ t.calls.reachable.items, name ∈ s.calls.reachable.items) ∧
      (∀ edge ∈ t.calls.edges.keys, edge ∈ s.calls.edges.keys) ∧
      ∀ q o, o ∈ (t.pointsTo q).items →
        ∃ l a, t.heap.locate? q = some l ∧ t.heap.allocation? o = some a ∧
          ∃ q' o', s.heap.locate? q' = some l ∧ s.heap.allocation? o' = some a ∧
            o' ∈ (s.pointsTo q').items := by
  have hp := h.proper
  obtain ⟨hsol, clear⟩ := solves_of_going hp goes
  obtain ⟨t, hgoes, hle⟩ := going_of_solves hp hasBody ((hsol Call.Fits).restart hm) clear
  refine ⟨t, hgoes, fun name hname => ?_, fun edge hedge => ?_, fun q o ho => ?_⟩
  · exact hle (show .reachable name ∈ t.facts from hname)
  · exact hle (show .calls edge.1 edge.2 ∈ t.facts from hedge)
  · obtain ⟨l, a, hl, ha⟩ := located_of_going hp hgoes q o ho
    obtain ⟨q', o', ho', hl', ha'⟩ := hle (show .pointsTo l a ∈ t.facts from ⟨q, o, ho, hl, ha⟩)
    exact ⟨l, a, hl, ha, q', o', hl', ha', ho'⟩

/-- The method of the knot that main calls. -/
theorem knot_reaches :
    (Jimple.knot.main?.any fun e =>
      match analyzeFrom Jimple.knot e with
      | .going s => Jimple.knot.methods.any fun m =>
          m.body.isSome && decide (m.id ≠ e.id) && decide (m.id ∈ s.calls.reachable.items)
      | .stopped .. => false) = true := by
  decide +kernel

theorem analysis_restarts_knot :
    ∃ e m s t, Jimple.knot.main? = some e ∧ m.id ≠ e.id ∧ m.body.isSome ∧
      analyzeFrom Jimple.knot e = .going s ∧ m.id ∈ s.calls.reachable.items ∧
      analyzeFrom Jimple.knot m = .going t ∧
      (∀ name ∈ t.calls.reachable.items, name ∈ s.calls.reachable.items) ∧
      (∀ edge ∈ t.calls.edges.keys, edge ∈ s.calls.edges.keys) ∧
      ∀ q o, o ∈ (t.pointsTo q).items →
        ∃ l a, t.heap.locate? q = some l ∧ t.heap.allocation? o = some a ∧
          ∃ q' o', s.heap.locate? q' = some l ∧ s.heap.allocation? o' = some a ∧
            o' ∈ (s.pointsTo q').items := by
  obtain ⟨e, he, hreaches⟩ := (Option.any_eq_true _ _).1 knot_reaches
  cases goes : analyzeFrom Jimple.knot e with
  | stopped s fault =>
    rw [goes] at hreaches
    cases hreaches
  | going s =>
    rw [goes] at hreaches
    obtain ⟨m, -, hm⟩ := List.any_eq_true.1 hreaches
    obtain ⟨⟨hasBody, hne⟩, hmem⟩ := by simpa only [Bool.and_eq_true, decide_eq_true_eq] using hm
    obtain ⟨t, hgoes, hrest⟩ := analysis_restarts Jimple.parsed_knot hasBody goes hmem
    exact ⟨e, m, s, t, he, hne, hasBody, goes, hmem, hgoes, hrest⟩

end PointsTo.Solver
