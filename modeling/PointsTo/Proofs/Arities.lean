import PointsTo.Proofs.Signatures
import PointsTo.Proofs.Solution

/-!
Numbers of arguments. A body has one parameter for each parameter type of its method, a call runs a
method of the subsignature that it names, and a subsignature determines the parameter types. So a
program whose calls write as many arguments as their references have parameter types has no call
that does not fit a body, and its analysis never stops at one.
-/
namespace PointsTo

/-- Every call site writes one argument for each parameter type of its method reference. -/
def Program.FullyApplied (p : Program) : Prop :=
  ∀ site ∈ p.callSites, site.call.args.length = site.call.callee.paramTypes.length

instance (p : Program) : Decidable p.FullyApplied := by
  unfold Program.FullyApplied
  infer_instance

theorem Program.mem_callSites {p : Program} {site : CallSite} :
    site ∈ p.callSites ↔ ∃ m ∈ p.methods, (site.place, .call site.call) ∈ m.placed := by
  simp only [callSites, List.mem_flatMap, Method.mem_callSites]

namespace Jimple.Parsed

variable {p : Program} {site : CallSite} {m callee : Method} {body : Body} {type : Option String}

theorem spelled_callSite (h : Parsed p) (hsite : site ∈ p.callSites) :
    Spelled site.call.callee.returnType site.call.callee.name site.call.callee.paramTypes := by
  obtain ⟨m, hm, hmem⟩ := Program.mem_callSites.1 hsite
  obtain ⟨c, -, -, hread⟩ := h.methodRead hm
  obtain ⟨index, s, hs, -, hcall⟩ := Method.mem_placed.1 hmem
  exact (hread.spelled_statements s (List.mem_of_getElem? hs)).callee _ hcall.symm

theorem length_params (h : Parsed p) (hm : m ∈ p.methods) (hbody : m.body = some body) :
    body.params.length = m.paramTypes.length := by
  obtain ⟨c, -, -, hread⟩ := h.methodRead hm
  exact hread.length_params hbody

/-- Whatever method a call runs has the parameter types that the call names. -/
theorem paramTypes_of_found (h : Parsed p) (hsite : site ∈ p.callSites)
    (found : p.resolveCall type site.call = .found callee) :
    callee.paramTypes = site.call.callee.paramTypes :=
  (h.spelled (Program.mem_methods_of_found found)).parts.params_eq (h.spelled_callSite hsite)
    (Program.subsignature_of_found found)

theorem fits_of_found (h : Parsed p) (applied : p.FullyApplied) (hsite : site ∈ p.callSites)
    (found : p.resolveCall type site.call = .found callee) (hbody : callee.body = some body) :
    site.call.Fits body := by
  calc site.call.args.length
      = site.call.callee.paramTypes.length := applied site hsite
    _ = callee.paramTypes.length := by rw [h.paramTypes_of_found hsite found]
    _ = body.params.length := (h.length_params (Program.mem_methods_of_found found) hbody).symm

end Jimple.Parsed

namespace Solver

open Relation (ReflTransGen)

theorem Stated.mem_callSites {p : Program} {s : State} {site : CallSite}
    (h : Stated p s site.place (.call site.call)) : site ∈ p.callSites := by
  obtain ⟨name, -, m, hm, hmem⟩ := h
  exact Program.mem_callSites.2 ⟨m, Program.mem_methods_of_method? hm, hmem⟩

theorem Trigger.Calls.found {p : Program} {c : Trigger} {site : CallSite} {callee : Method}
    (h : c.Calls p site callee) : ∃ type, p.resolveCall type site.call = .found callee := by
  cases h with
  | linked _ found => exact ⟨none, found⟩
  | dispatched _ found => exact ⟨_, found⟩

/-- **Where every call writes as many arguments as its reference has parameter types, whatever
method a call resolves to has a parameter for each of them, and the analysis stops at no call for
its number of arguments.** -/
theorem analysis_fits_calls {p : Program} (h : Jimple.Parsed p) (applied : p.FullyApplied) :
    (∀ site ∈ p.callSites, ∀ type callee body, p.resolveCall type site.call = .found callee →
      callee.body = some body → body.params.length = site.call.args.length) ∧
    ∀ entry s place callee given expected,
      analyzeFrom p entry ≠ .stopped s (.argumentMismatch place callee given expected) := by
  refine ⟨fun site hsite type callee body found hbody =>
    (h.fits_of_found applied hsite found hbody).symm, ?_⟩
  intro entry s place name given expected hstop
  cases hbody : entry.body.isSome with
  | false =>
    -- an entry method without a body is refused before anything is called
    have hnone : entry.body.isNone = true := by simpa using hbody
    simp [analyzeFrom, State.solve, State.start, hnone] at hstop
  | true =>
    have hends := ends_explore h.proper #[.asked p.classes.size entry.id] entry.id
    rw [analyzeFrom_eq_explore hbody] at hstop
    cases he : State.explore { log := #[.asked p.classes.size entry.id] } p entry.id with
    | going t =>
      rw [he] at hstop
      cases hstop
    | stopped t fault =>
      rw [he] at hstop hends
      cases hstop
      obtain ⟨u, c, run, -, allowed, blames⟩ := hends
      cases blames with
      | mismatch calls hasBody unfit =>
        have ready := (State.fresh_initial ∅ ∅ #[.asked p.classes.size entry.id]).ready_opened p
          entry.id
        have huses := moves_keep (fun _ _ hs move => Move.usesStated hs move) run ready.uses
        have hsite := (calls.stated huses allowed).mem_callSites
        obtain ⟨type, found⟩ := calls.found
        exact unfit (h.fits_of_found applied hsite found hasBody)

/-- A call through the class of the receiver of a method of its superclass, one of whose parameters
is never named; one argument is a constant. -/
def inheritedText : String :=
  "class A\n\x7b\nA m(A,A)\n\x7b\nA r;\nr := @parameter1: A;\nreturn r;\n\x7d\n\x7d\n" ++
  "class B extends A\n\x7b\nstatic void main(java.lang.String[])\n\x7b\nB b;\nb = new B;\n" ++
  "virtualinvoke b.<B: A m(A,A)>(b, 3);\n\x7d\n\x7d\n"

def inherited : Program := Jimple.programOf inheritedText

theorem inherited_calls : inherited.FullyApplied ∧
    (inherited.main?.any fun m => (analyzeFrom inherited m).fault?.isNone &&
      (analyzeFrom inherited m).state.calls.edges.items.map (·.callee.signature) =
        ["<A: A m(A,A)>"]) = true := by
  decide +kernel

theorem analysis_fits_calls_inherited : ∃ m s, inherited.main? = some m ∧
    analyzeFrom inherited m = .going s ∧
    s.calls.edges.items.map (·.callee.signature) = ["<A: A m(A,A)>"] ∧ inherited.FullyApplied ∧
    (∀ site ∈ inherited.callSites, ∀ type callee body,
      inherited.resolveCall type site.call = .found callee → callee.body = some body →
        body.params.length = site.call.args.length) ∧
    ∀ entry s place callee given expected,
      analyzeFrom inherited entry ≠ .stopped s (.argumentMismatch place callee given expected) := by
  obtain ⟨applied, hruns⟩ := inherited_calls
  obtain ⟨m, hm, hruns⟩ := (Option.any_eq_true _ _).1 hruns
  obtain ⟨hfault, hcalls⟩ := Bool.and_eq_true_iff.1 hruns
  exact ⟨m, _, hm, Progress.eq_going hfault, of_decide_eq_true hcalls, applied,
    analysis_fits_calls (.programOf inheritedText) applied⟩

end Solver

end PointsTo
