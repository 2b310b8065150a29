import PointsTo.Proofs.CallTargets
import PointsTo.Proofs.Solution

/-!
The two call graphs of a program. The class hierarchy analysis finds whatever the pointer analysis
finds just when the class hierarchy offers, at each instance call, the methods that the objects of
the receiver run. It does not always: it starts from the class that the call names and gives up
there if the program lacks that class, though it may have subclasses of it.
-/
namespace PointsTo

/-- The call graph has all methods and all call edges of the other. -/
structure CallGraph.Includes (g h : CallGraph) : Prop where
  edges : ∀ k ∈ h.edges.keys, k ∈ g.edges.keys
  reachable : ∀ m ∈ h.reachable.items, m ∈ g.reachable.items

namespace Solver

/-- What the objects of a receiver run is dispatched to by a concrete class below the one that the
call names. -/
def Covered (p : Program) (facts : Set Fact) : Prop :=
  ∀ name m place call receiver o callee, .reachable name ∈ facts → p.method? name = some m →
    (place, .call call) ∈ m.placed → ¬ call.kind.isLinked = true →
    call.receiver = some receiver → .pointsTo (.var receiver) o ∈ facts →
    p.resolveCall (some o.type) call = .found callee →
    ∃ c ∈ p.reachClasses p.subtypes [call.callee.declaringClass], c.isAbstract = false ∧
      p.dispatch c.name call.callee.subsignature = some callee

section Shared

variable {p : Program} {passes : Call → Body → Prop} {facts facts' : Set Fact}

/-- An instruction that is no call looks only at what pointers point to. -/
theorem Meets.of_pointsTo (same : ∀ l a, .pointsTo l a ∈ facts' ↔ .pointsTo l a ∈ facts)
    {m : Method} {place : Place} {i : Instruction}
    (hcall : ∀ call, i = .call call → MeetsCall p passes facts' ⟨place, call⟩)
    (h : Meets p passes facts m place i) : Meets p passes facts' m place i := by
  have hincludes : ∀ {a b}, Includes facts a b → Includes facts' a b :=
    fun hinc x hx => (same _ x).2 (hinc x ((same _ x).1 hx))
  cases i with
  | allocate target type => exact (same _ _).2 h
  | copy | loadStatic | storeStatic => exact hincludes h
  | loadField | storeField | loadElement | storeElement =>
    exact fun o ho => hincludes (h o ((same _ o).1 ho))
  | call call => exact hcall call rfl
  | ret value => exact fun v r hv hr => hincludes (h v r hv hr)
  | other => trivial

/-- The facts whose methods and call edges the graph has. -/
def shared (g : CallGraph) (facts : Set Fact) : Set Fact :=
  {fact | fact ∈ facts ∧
    match fact with
    | .reachable m => m ∈ g.reachable.items
    | .calls site callee => (site, callee) ∈ g.edges.keys
    | .pointsTo _ _ => True}

/-- Where the graph offers what the facts run, it shares a solution with them. -/
theorem solves_shared (hp : p.Proper) {entry : MethodName} {g : CallGraph}
    (hentry : entry ∈ g.reachable.items) (hfollowed : g.Followed p [])
    (hsol : Solves p passes entry facts) (hcovered : Covered p facts) :
    Solves p passes entry (shared g facts) := by
  have same : ∀ l a, .pointsTo l a ∈ shared g facts ↔ .pointsTo l a ∈ facts :=
    fun _ _ => and_iff_left trivial
  refine ⟨⟨hsol.entry, hentry⟩, fun name m ⟨hname, hreach⟩ hm x hx => ?_⟩
  have hmeets := hsol.statements name m hname hm x hx
  refine hmeets.of_pointsTo same fun call hcall => ?_
  obtain ⟨place, i⟩ := x
  obtain rfl : i = .call call := hcall
  have hsite : ⟨place, call⟩ ∈ m.callSites := List.mem_filterMap.2 ⟨_, hx, rfl⟩
  -- an offer that the facts bind is bound by what is shared
  have hbinds : ∀ {callee}, callee ∈ p.hierarchyTargets call →
      Binds passes facts ⟨place, call⟩ callee →
      Binds passes (shared g facts) ⟨place, call⟩ callee := by
    intro callee hoffer h
    obtain ⟨hedge, hcallee⟩ :=
      hfollowed.closed name hreach m hm _ (Program.mem_offers.2 ⟨hsite, hoffer⟩)
    refine ⟨⟨h.edge, hedge⟩, ⟨h.reachable, hcallee.resolve_right List.not_mem_nil⟩, ?_⟩
    intro body hb hpass e he a ha
    exact (same _ a).2 (h.flow body hb hpass e he a ((same _ a).1 ha))
  unfold MeetsCall
  split
  · next kind =>
    intro callee found
    obtain ⟨h, hself⟩ := MeetsCall.linked hmeets kind found
    have hoffer : callee ∈ p.hierarchyTargets call :=
      (Program.mem_hierarchyTargets_linked kind).2 (Program.resolveMethod_of_found kind found)
    refine ⟨hbinds hoffer h, fun receiver self hr hs a ha => ?_⟩
    exact (same _ a).2 (hself receiver self hr hs a ((same _ a).1 ha))
  · next kind =>
    intro receiver hr o ho callee found
    obtain ⟨h, hself⟩ := MeetsCall.dispatched hmeets kind hr ((same _ o).1 ho) found
    have hoffer : callee ∈ p.hierarchyTargets call :=
      (hp.mem_hierarchyTargets kind).2
        (hcovered name m place call receiver o callee hname hm hx kind hr ((same _ o).1 ho) found)
    exact ⟨hbinds hoffer h, fun self hs => (same _ o).2 (hself self hs)⟩

end Shared

section Superset

variable {p : Program} {entry : Method} {s : State} {facts : Set Fact}

/-- **The class hierarchy analysis finds all that the pointer analysis finds if and only if the
class hierarchy covers what the objects of receivers run.** -/
theorem hierarchyCallGraph_includes_iff (h : Jimple.Parsed p)
    (goes : analyzeFrom p entry = .going s) :
    (hierarchyCallGraph p entry).Includes s.calls ↔ Covered p s.facts := by
  obtain ⟨t, hgoes, rfl⟩ := explore_of_going goes
  have hp := h.proper
  have hsol : Solves p Call.Fits entry.id t.facts := solves_explore hp hgoes
  obtain ⟨hfollowed, hentry⟩ := followed_hierarchyCallGraph p entry
  constructor
  · intro hincludes name m place call receiver o callee hname hm hmem kind hr ho found
    have hmeets := hsol.statements name m hname hm _ hmem
    have hedge := (MeetsCall.dispatched hmeets kind hr ho found).1.edge
    obtain ⟨offer, hoffer, hid⟩ :=
      hfollowed.offered (⟨place, call⟩, callee.id) (hincludes.edges _ hedge)
    have hsame : offer = callee := by
      have hmethod := hp.method?_id ((p.hierarchyTargets_methods call).1 offer hoffer)
      rw [hid, hp.method?_of_found found] at hmethod
      exact (Option.some.inj hmethod).symm
    exact (hp.mem_hierarchyTargets kind).1 (hsame ▸ hoffer)
  · intro hcovered
    have hshared : Solves p Call.Fits entry.id (shared (hierarchyCallGraph p entry) t.facts) :=
      solves_shared hp hentry hfollowed hsol hcovered
    -- what was found is the least solution, so that the graph shares all of it
    have hall := (sound_explore hp hshared hgoes).facts_subset
    constructor
    · intro k hk
      have hfact : .calls k.1 k.2 ∈ t.facts := hk
      exact (hall hfact).2
    · intro m hm
      have hfact : .reachable m ∈ t.facts := hm
      exact (hall hfact).2

end Superset

/-- A call names a class that the program lacks, on an object of a class below it. -/
def outsiderText : String :=
  "class A extends Lib\n\x7b\nvoid m()\n\x7b\nA r;\nr := @this: A;\nreturn;\n\x7d\n" ++
  "static void main(java.lang.String[])\n\x7b\nA a;\na = new A;\n" ++
  "virtualinvoke a.<Lib: void m()>();\nreturn;\n\x7d\n\x7d\n"

def outsider : Program := (Jimple.read ∅ outsiderText).1

theorem outsider_runs :
    (outsider.main?.any fun m => (analyzeFrom outsider m).fault?.isNone &&
      (analyzeFrom outsider m).state.calls.edges.keys.any fun k =>
        !k.1.call.kind.isLinked && (outsider.class? k.1.call.callee.declaringClass).isNone) =
      true := by
  decide +kernel

theorem hierarchyCallGraph_outsider :
    ∃ m s, outsider.main? = some m ∧ analyzeFrom outsider m = .going s ∧
      ¬ (hierarchyCallGraph outsider m).Includes s.calls ∧ ¬ Covered outsider s.facts := by
  obtain ⟨m, hm, hruns⟩ := (Option.any_eq_true _ _).1 outsider_runs
  obtain ⟨hfault, hedges⟩ := Bool.and_eq_true_iff.1 hruns
  obtain ⟨k, hk, hedge⟩ := List.any_eq_true.1 hedges
  obtain ⟨kind, absent⟩ := Bool.and_eq_true_iff.1 hedge
  have goes := Progress.eq_going hfault
  have hexcludes : ¬ (hierarchyCallGraph outsider m).Includes
      (analyzeFrom outsider m).state.calls := by
    intro hincludes
    obtain ⟨callee, hoffer, -⟩ :=
      (followed_hierarchyCallGraph outsider m).1.offered k (hincludes.edges k hk)
    rw [Program.hierarchyTargets_of_absent (by simpa using kind) (by simpa using absent)] at hoffer
    cases hoffer
  have hiff := hierarchyCallGraph_includes_iff (.read .empty outsiderText) goes
  exact ⟨m, _, hm, goes, hexcludes, fun hcovered => hexcludes (hiff.2 hcovered)⟩

end Solver

end PointsTo
