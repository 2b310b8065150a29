import PointsTo.Proofs.Renaming
import PointsTo.Proofs.Reordering

/-!
The order of a program does not matter to its analysis. Two programs that differ in order only have
the same constraints once each statement is followed to its place in the other program, so a
solution of one is a solution of the other under other places. What the analysis finds is the least
solution, or there is a call in it that cannot be made, in both programs alike. The runs themselves
have little in common: objects are numbered, methods reached and deliveries taken in other orders.
-/
namespace PointsTo

/-! ### Facts about statements that have moved -/

def Place.moved (σ : Shuffle) : Place → Place
  | .detached serial => .detached serial
  | .within method index line => .within method (σ method index) line

def CallSite.moved (σ : Shuffle) (site : CallSite) : CallSite :=
  { site with place := site.place.moved σ }

/-- The object of the statement where that has gone. -/
def Allocation.moved (σ : Shuffle) (a : Allocation) : Allocation :=
  { a with place := a.place.moved σ }

def Location.moved (σ : Shuffle) : Location → Location
  | .var v => .var v
  | .static f => .static f
  | .field base f => .field (base.moved σ) f
  | .element array => .element (array.moved σ)

def Fact.moved (σ : Shuffle) : Fact → Fact
  | .reachable m => .reachable m
  | .calls site callee => .calls (site.moved σ) callee
  | .pointsTo l a => .pointsTo (l.moved σ) (a.moved σ)

section Moved

variable (σ : Shuffle)

theorem Place.moved_symm (place : Place) : (place.moved σ).moved σ.symm = place := by
  cases place with
  | detached serial => rfl
  | within method index line =>
    exact congrArg (fun i => Place.within method i line) ((σ method).symm_apply_apply index)

theorem CallSite.moved_symm (site : CallSite) : (site.moved σ).moved σ.symm = site := by
  unfold moved
  rw [Place.moved_symm]

theorem Allocation.moved_symm (a : Allocation) : (a.moved σ).moved σ.symm = a := by
  unfold moved
  rw [Place.moved_symm]

theorem Location.moved_symm (l : Location) : (l.moved σ).moved σ.symm = l := by
  cases l with
  | var | static => rfl
  | field base f => exact congrArg (Location.field · f) (base.moved_symm σ)
  | element array => exact congrArg Location.element (array.moved_symm σ)

/-- Moving there and back changes nothing, so that the facts of two programs are one to one. -/
theorem Fact.moved_symm (fact : Fact) : (fact.moved σ).moved σ.symm = fact := by
  cases fact with
  | reachable m => rfl
  | calls site callee => exact congrArg (Fact.calls · callee) (site.moved_symm σ)
  | pointsTo l a => exact congrArg₂ Fact.pointsTo (l.moved_symm σ) (a.moved_symm σ)

end Moved

theorem Method.Reordered.mem_placed {σ : Shuffle} {m m' : Method} (h : m.Reordered σ m')
    {place : Place} {i : Instruction} (hmem : (place, i) ∈ m.placed) :
    (place.moved σ, i) ∈ m'.placed := by
  obtain ⟨index, s, hs, rfl, rfl⟩ := Method.mem_placed.1 hmem
  refine Method.mem_placed.2 ⟨σ m.id index, s, (h.statements index).trans hs, ?_, rfl⟩
  rw [h.id]
  rfl

/-- Statements that move under other places, and variables that stay. -/
def Shuffle.renaming (σ : Shuffle) : Renaming := ⟨Place.moved σ, id⟩

theorem Shuffle.fact_renaming (σ : Shuffle) : σ.renaming.fact = Fact.moved σ := by
  funext fact
  cases fact with
  | reachable m => rfl
  | calls site callee => rfl
  | pointsTo l a => cases l <;> rfl

/-- A reordered method says the same, wherever its statements have gone. -/
theorem Method.Reordered.follows {σ : Shuffle} {m m' : Method} (h : m.Reordered σ m')
    (facts : Set Fact) : σ.renaming.Follows facts m m' where
  id := h.id
  placed := h.mem_placed
  fixed _ _ _ := rfl
  body := by
    rcases rel_cases h.2 with ⟨hb, hb'⟩ | ⟨b, b', hb, hb', hbody⟩
    · rw [hb, hb']
      exact .none
    · rw [hb, hb']
      exact .some ⟨hbody.params, hbody.receiver, fun _ _ => rfl⟩
  hands r hr _ := ⟨r, h.returned.trans hr, fun _ ha => ha⟩
  collects r _ _ hr _ hincludes := hincludes r (h.returned.trans hr)

/-! ### Analyses -/

namespace Solver

section Analysis

variable {σ : Shuffle} {p p' : Program} {m m' : Method} {s t : State}

/-- If one analysis finds its end, so does the other, and finds no more. -/
theorem going_of_reordered (hp : p.Proper) (h : p.Reordered σ p') (hm : m.Reordered σ m')
    (goes : analyzeFrom p m = .going s) :
    ∃ t, analyzeFrom p' m' = .going t ∧ t.facts ⊆ Set.preimage (Fact.moved σ.symm) s.facts := by
  rw [← σ.symm.fact_renaming]
  exact Renaming.going (h.proper hp) hp h.symm.counterparts goes hm.symm
    fun _ _ _ hrel => Method.Reordered.follows hrel s.facts

/-- What two analyses find is the same but for where the statements stand. -/
theorem mem_facts_reordered (hp : p.Proper) (h : p.Reordered σ p') (hm : m.Reordered σ m')
    (goes : analyzeFrom p m = .going s) (goes' : analyzeFrom p' m' = .going t) (fact : Fact) :
    fact.moved σ ∈ t.facts ↔ fact ∈ s.facts := by
  constructor
  · intro hfact
    obtain ⟨u, hu, hle⟩ := going_of_reordered hp h hm goes
    obtain rfl : t = u := Progress.going.inj (goes'.symm.trans hu)
    have hback : (fact.moved σ).moved σ.symm ∈ s.facts := hle hfact
    rwa [fact.moved_symm] at hback
  · intro hfact
    obtain ⟨u, hu, hle⟩ := going_of_reordered (h.proper hp) h.symm hm.symm goes'
    obtain rfl : s = u := Progress.going.inj (goes.symm.trans hu)
    exact hle hfact

end Analysis

/-- **The order of a program does not matter.** Let the second program have the classes of the
first, the methods of each class and the statements of each body in another order. From the same
entry method either both analyses find their end or neither does, and then they find the same: the
same methods are reachable, the same statements call the same methods, and the objects of the same
statements are at the same pointers. Every pointer that has an object has its location, so that
nothing is left out. -/
theorem analysis_order_independent {σ : Shuffle} {p p' : Program} (h : Jimple.Parsed p)
    (reordered : p.Reordered σ p') {m m' : Method} (hm : m ∈ p.methods) (hm' : m' ∈ p'.methods)
    (same : m'.id = m.id) :
    ((∃ s, analyzeFrom p m = .going s) ↔ ∃ t, analyzeFrom p' m' = .going t) ∧
    ∀ s t, analyzeFrom p m = .going s → analyzeFrom p' m' = .going t →
      (∀ name, name ∈ t.calls.reachable.items ↔ name ∈ s.calls.reachable.items) ∧
      (∀ site callee, (site.moved σ, callee) ∈ t.calls.edges.keys ↔
        (site, callee) ∈ s.calls.edges.keys) ∧
      (∀ l a, .pointsTo (l.moved σ) (a.moved σ) ∈ t.facts ↔ .pointsTo l a ∈ s.facts) ∧
      s.Located ∧ t.Located := by
  have hp := h.proper
  have hp' := reordered.proper hp
  have hmethod : m.Reordered σ m' := by
    obtain ⟨n, hn, hmethod⟩ :=
      exists_of_rel (reordered.counterparts.method? m.id) (hp.method?_id hm)
    have hfound := hp'.method?_id hm'
    rw [same, hn] at hfound
    rwa [← Option.some.inj hfound]
  refine ⟨⟨fun ⟨s, goes⟩ => ?_, fun ⟨t, goes⟩ => ?_⟩, fun s t goes goes' => ?_⟩
  · obtain ⟨t, ht, -⟩ := going_of_reordered hp reordered hmethod goes
    exact ⟨t, ht⟩
  · obtain ⟨s, hs, -⟩ := going_of_reordered hp' reordered.symm hmethod.symm goes
    exact ⟨s, hs⟩
  · have facts := mem_facts_reordered hp reordered hmethod goes goes'
    exact ⟨fun name => facts (.reachable name), fun site callee => facts (.calls site callee),
      fun l a => facts (.pointsTo l a), located_of_going hp goes, located_of_going hp' goes'⟩

theorem analysis_order_independent_mirrored :
    Jimple.knot.mirrored ≠ Jimple.knot ∧
    Jimple.knot.Reordered Jimple.knot.mirror Jimple.knot.mirrored ∧
    ∃ m ∈ Jimple.knot.methods, ∃ m' ∈ Jimple.knot.mirrored.methods, m'.id = m.id ∧
      ∃ s t, analyzeFrom Jimple.knot m = .going s ∧
        analyzeFrom Jimple.knot.mirrored m' = .going t ∧
        (∀ name, name ∈ t.calls.reachable.items ↔ name ∈ s.calls.reachable.items) ∧
        (∀ site callee, (site.moved Jimple.knot.mirror, callee) ∈ t.calls.edges.keys ↔
          (site, callee) ∈ s.calls.edges.keys) ∧
        (∀ l a, .pointsTo (l.moved Jimple.knot.mirror) (a.moved Jimple.knot.mirror) ∈ t.facts ↔
          .pointsTo l a ∈ s.facts) ∧
        s.Located ∧ t.Located := by
  have hp := Jimple.parsed_knot.proper
  have reordered := hp.reordered_mirrored
  obtain ⟨m, s, -, hm, goes⟩ := Jimple.exists_going Jimple.knot_runs.1
  obtain ⟨m', hfound, hmethod⟩ :=
    exists_of_rel (reordered.counterparts.method? m.id) (hp.method?_id hm)
  have hm' := Program.mem_methods_of_method? hfound
  obtain ⟨⟨ends, -⟩, agree⟩ :=
    analysis_order_independent Jimple.parsed_knot reordered hm hm' hmethod.id
  obtain ⟨t, goes'⟩ := ends ⟨s, goes⟩
  exact ⟨by decide +kernel, reordered, m, hm, m', hm', hmethod.id, s, t, goes, goes',
    agree s t goes goes'⟩

end Solver

end PointsTo
