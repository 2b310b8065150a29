import Mathlib.Order.Bounds.Basic
import PointsTo.Proofs.Reachability
import PointsTo.Proofs.Termination
import PointsTo.Proofs.Ways

/-!
The class hierarchy analysis as a closure. Its loop goes on until no method is pending, and what it
has then is the least call graph that is closed under what the class hierarchy offers: a method is
put down only for a call that may run it, so that no more is reached than has to be.
-/
namespace PointsTo

open Relation (ReflTransGen)

namespace Program

/-- Whatever the hierarchy offers to a call instruction of a named method is named as well. -/
def ClosedUnderCalls (p : Program) (names : Set MethodName) : Prop :=
  ∀ name ∈ names, ∀ m, p.method? name = some m → ∀ place call, (place, .call call) ∈ m.placed →
    ∀ callee ∈ p.hierarchyTargets call, callee.id ∈ names

/-- The edge leads from a call instruction of the named method, at its place and with its kind, to a
method that the hierarchy offers to the call. -/
def OffersEdge (p : Program) (name : MethodName) (e : CallEdge) : Prop :=
  ∃ m, p.method? name = some m ∧ ∃ place call, (place, .call call) ∈ m.placed ∧
    e.site = ⟨place, call⟩ ∧ e.kind = .ofCall call.kind ∧
    ∃ callee ∈ p.hierarchyTargets call, e.callee = callee.id

/-- The hierarchy offers the second method to a call of the first. -/
def MayCall (p : Program) (caller callee : MethodName) : Prop :=
  ∃ x ∈ p.offersOf caller, x.2.id = callee

end Program

/-- Follows the calls of pending methods until none is pending. -/
inductive Follows (p : Program) : List MethodName → CallGraph → CallGraph → Prop
  | done {g} : Follows p [] g g
  | again {name pending g r} (old : name ∈ g.reachable.items) (more : Follows p pending g r) :
      Follows p (name :: pending) g r
  | bare {name pending g r} (new : name ∉ g.reachable.items) (absent : p.method? name = none)
      (more : Follows p pending (g.tryReach name).2 r) : Follows p (name :: pending) g r
  | visit {name pending g r m} (new : name ∉ g.reachable.items) (here : p.method? name = some m)
      (more : Follows p (callTargets p m (g.tryReach name).2 pending).2
        (callTargets p m (g.tryReach name).2 pending).1 r) : Follows p (name :: pending) g r

section Loop

variable {p : Program} {pending : List MethodName} {name : MethodName} {g r r' : CallGraph}

theorem Follows.unique (h : Follows p pending g r) (h' : Follows p pending g r') : r = r' := by
  induction h with
  | done =>
    cases h'
    rfl
  | again old _ ih =>
    cases h' with
    | again _ more => exact ih more
    | bare new => exact absurd old new
    | visit new => exact absurd old new
  | bare new absent _ ih =>
    cases h' with
    | again old => exact absurd old new
    | bare _ _ more => exact ih more
    | visit _ here =>
      rw [absent] at here
      cases here
  | visit new here _ ih =>
    cases h' with
    | again old => exact absurd old new
    | bare _ absent =>
      rw [here] at absent
      cases absent
    | visit _ here' more =>
      rw [here] at here'
      cases here'
      exact ih more

/-- What is done with one pending method is a step of the loop. -/
theorem Follows.take (more : Follows p (g.visit p pending name).2 (g.visit p pending name).1 r) :
    Follows p (name :: pending) g r := by
  unfold CallGraph.visit at more
  by_cases hmem : name ∈ g.reachable.items
  · rw [if_pos hmem] at more
    exact .again hmem more
  · rw [if_neg hmem] at more
    unfold Program.offersOf at more
    cases hm : p.method? name with
    | none =>
      rw [hm] at more
      exact .bare hmem hm more
    | some m =>
      refine .visit hmem hm ?_
      rw [callTargets_eq]
      rw [hm] at more
      exact more

/-- **The loop comes to its end within the bound.** -/
theorem follows_followCalls (limit : Nat) (h : g.Followed p pending)
    (hlimit : g.backlog p pending ≤ limit) :
    Follows p pending g (followCalls p limit pending g) := by
  induction limit generalizing g pending with
  | zero =>
    have hnil : pending = [] := by
      unfold CallGraph.backlog at hlimit
      exact List.length_eq_zero_iff.1 (by omega)
    subst hnil
    exact .done
  | succ limit ih =>
    cases pending with
    | nil => exact .done
    | cons name pending =>
      obtain ⟨hvisit, -, hless⟩ := h.visit
      rw [followCalls_cons]
      apply Follows.take
      apply ih hvisit
      omega

end Loop

/-! ### What is reached -/

/-- A chain of calls leads from the entry method to whatever was noted, and each edge is one that is
offered to a call of a method that was reached. -/
structure CallGraph.Traced (p : Program) (entry : MethodName) (pending : List MethodName)
    (g : CallGraph) : Prop where
  noted : ∀ name, g.Noted pending name → ReflTransGen p.MayCall entry name
  edges : ∀ e ∈ g.edges.items, ∃ name ∈ g.reachable.items, p.OffersEdge name e

section Traced

variable {p : Program} {entry name : MethodName} {pending : List MethodName} {g : CallGraph}

/-- An offer to a call of a method is what the hierarchy offers to one of its call instructions. -/
theorem mem_offersOf_iff {x : CallSite × Method} :
    x ∈ p.offersOf name ↔ ∃ m, p.method? name = some m ∧
      (x.1.place, .call x.1.call) ∈ m.placed ∧ x.2 ∈ p.hierarchyTargets x.1.call := by
  cases hm : p.method? name with
  | none => simp [Program.offersOf, hm]
  | some m =>
    rw [mem_offersOf hm, Program.mem_offers, Method.mem_callSites]
    simp

/-- The edge of an offer to a call of the method. -/
theorem offersEdge_ofCall {x : CallSite × Method} (h : x ∈ p.offersOf name) :
    p.OffersEdge name (.ofCall x.1 x.2.id) := by
  obtain ⟨m, hm, hplaced, hcallee⟩ := mem_offersOf_iff.1 h
  exact ⟨m, hm, x.1.place, x.1.call, hplaced, rfl, rfl, x.2, hcallee, rfl⟩

theorem eq_ofCall_of_offersEdge {e : CallEdge} (h : p.OffersEdge name e) :
    e = .ofCall e.site e.callee := by
  obtain ⟨-, -, place, call, -, hsite, hkind, -⟩ := h
  obtain ⟨kind, site, callee⟩ := e
  subst hsite hkind
  rfl

/-- Only the edges of offers are added. -/
theorem mem_edges_foldl_note {offers : List (CallSite × Method)}
    {x : CallGraph × List MethodName} {e : CallEdge}
    (h : e ∈ (offers.foldl CallGraph.note x).1.edges.items) :
    e ∈ x.1.edges.items ∨ ∃ offer ∈ offers, e = .ofCall offer.1 offer.2.id := by
  induction offers generalizing x with
  | nil => exact .inl h
  | cons offer rest ih =>
    rcases ih h with h | ⟨o, ho, rfl⟩
    · rcases Roster.mem_of_mem_add h with h | rfl
      · exact .inl h
      · exact .inr ⟨offer, List.mem_cons_self, rfl⟩
    · exact .inr ⟨o, List.mem_cons_of_mem _ ho, rfl⟩

/-- **A method that is taken puts down only what its calls may run.** -/
theorem CallGraph.Traced.visit (h : g.Traced p entry (name :: pending)) :
    (g.visit p pending name).1.Traced p entry (g.visit p pending name).2 := by
  unfold CallGraph.visit
  by_cases hmem : name ∈ g.reachable.items
  · rw [if_pos hmem]
    refine ⟨fun n hn => h.noted n ?_, h.edges⟩
    exact hn.imp_right (List.mem_cons_of_mem name)
  · rw [if_neg hmem]
    obtain ⟨hreach, -⟩ := foldl_note (p.offersOf name)
      ({ g with reachable := g.reachable.add name }, pending)
    have hname : ReflTransGen p.MayCall entry name := h.noted name (.inr List.mem_cons_self)
    refine ⟨fun n hn => ?_, fun e he => ?_⟩
    · rcases hn with hn | hn
      · rw [hreach] at hn
        rcases OrderedSet.mem_add.1 hn with hn | rfl
        · exact h.noted n (.inl hn)
        · exact hname
      · rcases mem_foldl_note hn with hn | ⟨offer, hoffer, rfl⟩
        · exact h.noted n (.inr (List.mem_cons_of_mem name hn))
        · exact hname.tail ⟨offer, hoffer, rfl⟩
    · rw [hreach]
      rcases mem_edges_foldl_note he with he | hoffer
      · obtain ⟨n, hn, hedge⟩ := h.edges e he
        exact ⟨n, OrderedSet.mem_add.2 (.inl hn), hedge⟩
      · obtain ⟨offer, hoffer, rfl⟩ := hoffer
        exact ⟨name, OrderedSet.mem_add.2 (.inr rfl), offersEdge_ofCall hoffer⟩

theorem traced_followCalls (limit : Nat) (h : g.Traced p entry pending) :
    (followCalls p limit pending g).Traced p entry [] := by
  have stop : ∀ {pending g}, CallGraph.Traced p entry pending g → g.Traced p entry [] :=
    fun h => ⟨fun n hn => h.noted n (.inl (hn.resolve_right List.not_mem_nil)), h.edges⟩
  induction limit generalizing g pending with
  | zero => exact stop h
  | succ limit ih =>
    cases pending with
    | nil => exact h
    | cons name pending =>
      rw [followCalls_cons]
      exact ih h.visit

theorem traced_hierarchyCallGraph (p : Program) (entry : Method) :
    (hierarchyCallGraph p entry).Traced p entry.id [] := by
  apply traced_followCalls
  constructor
  · intro name hn
    rw [List.mem_singleton.1 (hn.resolve_left List.not_mem_nil)]
  · exact fun e he => absurd he List.not_mem_nil

/-- A closed set that has the entry method has all that chains of calls lead to. -/
theorem Program.ClosedUnderCalls.mem {names : Set MethodName} (closed : p.ClosedUnderCalls names)
    (hentry : entry ∈ names) (hcalls : ReflTransGen p.MayCall entry name) : name ∈ names := by
  induction hcalls with
  | refl => exact hentry
  | @tail caller callee _ last ih =>
    obtain ⟨x, hx, rfl⟩ := last
    obtain ⟨m, hm, hplaced, hcallee⟩ := mem_offersOf_iff.1 hx
    exact closed caller ih m hm x.1.place x.1.call hplaced x.2 hcallee

end Traced

/-- **The class hierarchy analysis terminates with the least call graph that is closed under
calls.** The loop that nothing bounds has this one result, and so have the walks over classes that
it asks for. The reachable methods are the least set that has the entry method and whatever is
offered to the calls of a method in it, and the edges are those of the offers to the calls of
reachable methods, each with the kind of its call; no method and no two ends come twice. -/
theorem hierarchyCallGraph_isLeast (p : Program) (chains : p.FiniteChains) (entry : Method) :
    (∀ g, Follows p [entry.id] (({} : CallGraph).addEntry entry.id) g ↔
      g = hierarchyCallGraph p entry) ∧
    (∀ name, p.Climbs name (p.ancestry name)) ∧
    (∀ links start, p.Scans links start [] (p.reach links start)) ∧
    IsLeast {names : Set MethodName | entry.id ∈ names ∧ p.ClosedUnderCalls names}
      {name | name ∈ (hierarchyCallGraph p entry).reachable.items} ∧
    (hierarchyCallGraph p entry).reachable.items.Nodup ∧
    (∀ e, e ∈ (hierarchyCallGraph p entry).edges.items ↔
      ∃ name ∈ (hierarchyCallGraph p entry).reachable.items, p.OffersEdge name e) ∧
    ((hierarchyCallGraph p entry).edges.items.map CallEdge.ends).Nodup := by
  have hfollows : Follows p [entry.id] (({} : CallGraph).addEntry entry.id)
      (hierarchyCallGraph p entry) :=
    follows_followCalls (callLimit p) (CallGraph.followed_entry p entry.id)
      (CallGraph.backlog_entry_le p entry.id)
  have htraced := traced_hierarchyCallGraph p entry
  obtain ⟨hfollowed, hentry⟩ := followed_hierarchyCallGraph p entry
  generalize hierarchyCallGraph p entry = g at hfollows htraced hfollowed hentry ⊢
  -- each offer to a call of a reachable method has been followed
  have hoffer : ∀ name ∈ g.reachable.items, ∀ m, p.method? name = some m →
      ∀ place call, (place, .call call) ∈ m.placed → ∀ callee ∈ p.hierarchyTargets call,
        ((⟨place, call⟩ : CallSite), callee.id) ∈ g.edges.keys ∧
          callee.id ∈ g.reachable.items := by
    intro name hname m hm place call hplaced callee hcallee
    have hsite : (⟨place, call⟩ : CallSite) ∈ m.callSites := Method.mem_callSites.2 hplaced
    obtain ⟨hedge, hcallee'⟩ := hfollowed.closed name hname m hm (⟨place, call⟩, callee)
      (Program.mem_offers.2 ⟨hsite, hcallee⟩)
    exact ⟨hedge, hcallee'.resolve_right List.not_mem_nil⟩
  refine ⟨fun r => ⟨fun h => h.unique hfollows, ?_⟩, Program.climbs_ancestry chains,
    fun links start => Program.scans_reachFrom links start [], ⟨⟨hentry, ?_⟩, ?_⟩, ?_, ?_,
    g.edges.keys_nodup⟩
  · rintro rfl
    exact hfollows
  · intro name hname m hm place call hplaced callee hcallee
    exact (hoffer name hname m hm place call hplaced callee hcallee).2
  · intro names hnames name hname
    exact hnames.2.mem hnames.1 (htraced.noted name (.inl hname))
  · have hkeys := g.reachable.keys_nodup
    rwa [OrderedSet.keys_eq_items] at hkeys
  · intro e
    refine ⟨htraced.edges e, ?_⟩
    rintro ⟨name, hname, hedge⟩
    have hkind := eq_ofCall_of_offersEdge hedge
    obtain ⟨m, hm, place, call, hplaced, hsite, -, callee, hcallee, hid⟩ := hedge
    have hkey := (hoffer name hname m hm place call hplaced callee hcallee).1
    rw [← hsite, ← hid] at hkey
    -- the edge with these ends has the kind of the call, as all edges have
    obtain ⟨d, hd, hends⟩ := List.mem_map.1 hkey
    obtain ⟨hsame, hsame'⟩ := Prod.mk.inj hends
    obtain ⟨_, -, hdedge⟩ := htraced.edges d hd
    rw [hkind, ← hsame, ← hsame', ← eq_ofCall_of_offersEdge hdedge]
    exact hd

/-- The call of the main method of the knot. -/
def knotSite : CallSite where
  place := .within ⟨"A", "void main(java.lang.String[])"⟩ 1 18
  call := {
    kind := .virtual
    callee := ⟨"A", "m", [], "void"⟩
    receiver := some ⟨"<A: void main(java.lang.String[])>", "a"⟩
    args := []
    result := none }

/-- The main method makes the call, and the class of its reference runs the method itself. -/
theorem knotSite_called :
    (Jimple.knot.main?.all fun m =>
      Jimple.knot.method? m.id = some m ∧ (knotSite.place, .call knotSite.call) ∈ m.placed) = true ∧
    ((Jimple.knot.class? "A").any fun c => c.isAbstract = false ∧ c.name = "A" ∧
      (Jimple.knot.dispatch c.name "void m()").map Method.id = some ⟨"A", "void m()"⟩) = true := by
  decide +kernel

theorem hierarchyCallGraph_isLeast_knot :
    Jimple.knot.FiniteChains ∧ ∃ m, Jimple.knot.main? = some m ∧
      (∀ g, Follows Jimple.knot [m.id] (({} : CallGraph).addEntry m.id) g ↔
        g = hierarchyCallGraph Jimple.knot m) ∧
      IsLeast {names : Set MethodName | m.id ∈ names ∧ Jimple.knot.ClosedUnderCalls names}
        {name | name ∈ (hierarchyCallGraph Jimple.knot m).reachable.items} ∧
      (∀ e, e ∈ (hierarchyCallGraph Jimple.knot m).edges.items ↔
        ∃ name ∈ (hierarchyCallGraph Jimple.knot m).reachable.items,
          Jimple.knot.OffersEdge name e) ∧
      ⟨.ofCall .virtual, knotSite, ⟨"A", "void m()"⟩⟩ ∈
        (hierarchyCallGraph Jimple.knot m).edges.items := by
  obtain ⟨hruns, hflat⟩ := Jimple.knot_runs
  have chains : Jimple.knot.FiniteChains := by
    apply Program.finiteChains_of_flat
    intro c hc above hlink
    obtain ⟨hname, habove⟩ := hflat c hc
    exact ⟨habove above hlink, hname⟩
  obtain ⟨m, hm, -⟩ := (Option.any_eq_true _ _).1 hruns
  obtain ⟨hends, -, -, hleast, -, hedges, -⟩ := hierarchyCallGraph_isLeast Jimple.knot chains m
  refine ⟨chains, m, hm, hends, hleast, hedges, (hedges _).2 ⟨m.id, hleast.1.1, ?_⟩⟩
  obtain ⟨hcalled, hruns⟩ := knotSite_called
  rw [hm] at hcalled
  obtain ⟨here, hplaced⟩ := of_decide_eq_true hcalled
  obtain ⟨c, hc, hcallee⟩ := (Option.any_eq_true _ _).1 hruns
  obtain ⟨hconcrete, hname, hdispatch⟩ := of_decide_eq_true hcallee
  obtain ⟨callee, hdispatch, hid⟩ := Option.map_eq_some_iff.1 hdispatch
  refine ⟨m, here, knotSite.place, knotSite.call, hplaced, rfl, rfl, callee, ?_, hid.symm⟩
  refine (Jimple.parsed_knot.proper.mem_hierarchyTargets (by decide)).2
    ⟨c, Program.mem_reachClasses.2 ⟨hname ▸ hc, _, List.mem_singleton.2 rfl, ?_⟩, hconcrete,
      hdispatch⟩
  rw [hname]
  exact .refl

end PointsTo
