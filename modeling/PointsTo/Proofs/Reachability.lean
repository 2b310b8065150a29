import PointsTo.Proofs.CallTargets
import PointsTo.Proofs.Solution

/-!
Call graphs hold what their edges lead to. Both analyses add a method only as the callee of a call
site of a method that they have reached, and reach the callees of all edges, so that at every state
of a run the reachable methods are those that edges lead to from the entry method.
-/
namespace PointsTo

open Relation (ReflTransGen)

namespace CallGraph

/-- An edge leads from the method of its call site to its callee. -/
def Leads (g : CallGraph) (m n : MethodName) : Prop :=
  ∃ site, (site, n) ∈ g.edges.keys ∧ site.place.method? = some m

/-- A method has been reached or has been put down to be. -/
def Noted (g : CallGraph) (pending : List MethodName) (m : MethodName) : Prop :=
  m ∈ g.reachable.items ∨ m ∈ pending

/-- The graph as far as it has grown from an entry method: edges lead to whatever was noted, each
edge begins at a call site of a method that was reached, and its callee was noted. -/
structure Grown (p : Program) (entry : MethodName) (pending : List MethodName) (g : CallGraph) :
    Prop where
  start : g.Noted pending entry
  led : ∀ m, g.Noted pending m → ReflTransGen g.Leads entry m
  callers : ∀ k ∈ g.edges.keys, ∃ m, p.method? m.id = some m ∧ m.id ∈ g.reachable.items ∧
    k.1 ∈ m.callSites
  callees : ∀ k ∈ g.edges.keys, g.Noted pending k.2

/-- What the edges of a finished graph lead to, and where they begin and end: at a call instruction
of a reachable method, and at a reachable method. -/
structure Reaches (p : Program) (entry : MethodName) (g : CallGraph) : Prop where
  reachable : ∀ m, m ∈ g.reachable.items ↔ ReflTransGen g.Leads entry m
  callers : ∀ e ∈ g.edges.items, ∃ m, p.method? m.id = some m ∧ m.id ∈ g.reachable.items ∧
    (e.site.place, .call e.site.call) ∈ m.placed ∧ e.site.place.method? = some m.id
  callees : ∀ e ∈ g.edges.items, e.callee ∈ g.reachable.items

section Grown

variable {p : Program} {entry : MethodName} {pending pending' : List MethodName}
  {g g' : CallGraph}

theorem Leads.mono (h : ∀ k ∈ g.edges.keys, k ∈ g'.edges.keys) {m n : MethodName}
    (hlead : g.Leads m n) : g'.Leads m n := by
  obtain ⟨site, hedge, hplace⟩ := hlead
  exact ⟨site, h _ hedge, hplace⟩

theorem method?_of_mem_callSites {m : Method} {site : CallSite} (h : site ∈ m.callSites) :
    site.place.method? = some m.id := by
  obtain ⟨index, s, -, hplace, -⟩ := Method.mem_placed.1 (Method.mem_callSites.1 h)
  rw [hplace]
  rfl

/-- A graph that has the same methods and the same edges. -/
theorem Grown.of_same (h : g.Grown p entry pending)
    (hnoted : ∀ m, g'.Noted pending' m ↔ g.Noted pending m)
    (hreach : ∀ m ∈ g.reachable.items, m ∈ g'.reachable.items)
    (hedges : g'.edges = g.edges) : g'.Grown p entry pending' := by
  refine ⟨(hnoted entry).2 h.start, fun m hm => ?_, fun k hk => ?_, fun k hk => ?_⟩
  · exact Relation.ReflTransGen.mono (fun _ _ => Leads.mono fun k hk => hedges ▸ hk) _ _
      (h.led m ((hnoted m).1 hm))
  · obtain ⟨m, hm, hmem, hsite⟩ := h.callers k (hedges ▸ hk)
    exact ⟨m, hm, hreach _ hmem, hsite⟩
  · exact (hnoted _).2 (h.callees k (hedges ▸ hk))

/-- **A graph grows by edges of methods that it has reached, and by methods that the new edges lead
to.** -/
theorem Grown.grow (h : g.Grown p entry pending)
    (hnoted : ∀ m, g.Noted pending m → g'.Noted pending' m)
    (hreach : ∀ m ∈ g.reachable.items, m ∈ g'.reachable.items)
    (hedges : ∀ k ∈ g.edges.keys, k ∈ g'.edges.keys)
    (new : ∀ k ∈ g'.edges.keys, k ∉ g.edges.keys → g'.Noted pending' k.2 ∧
      ∃ m, p.method? m.id = some m ∧ m.id ∈ g'.reachable.items ∧ g.Noted pending m.id ∧
        k.1 ∈ m.callSites)
    (led : ∀ m, g'.Noted pending' m → ¬ g.Noted pending m →
      ∃ site, (site, m) ∈ g'.edges.keys ∧ (site, m) ∉ g.edges.keys) :
    g'.Grown p entry pending' := by
  have old : ∀ m, g.Noted pending m → ReflTransGen g'.Leads entry m := fun m hm =>
    Relation.ReflTransGen.mono (fun _ _ => Leads.mono hedges) _ _ (h.led m hm)
  refine ⟨hnoted entry h.start, fun m hm => ?_, fun k hk => ?_, fun k hk => ?_⟩
  · by_cases hold : g.Noted pending m
    · exact old m hold
    · obtain ⟨site, hedge, hnew⟩ := led m hm hold
      obtain ⟨-, caller, -, -, hcaller, hsite⟩ := new _ hedge hnew
      exact (old _ hcaller).tail ⟨site, hedge, method?_of_mem_callSites hsite⟩
  · by_cases hold : k ∈ g.edges.keys
    · obtain ⟨m, hm, hmem, hsite⟩ := h.callers k hold
      exact ⟨m, hm, hreach _ hmem, hsite⟩
    · obtain ⟨-, m, hm, hmem, -, hsite⟩ := new k hk hold
      exact ⟨m, hm, hmem, hsite⟩
  · by_cases hold : k ∈ g.edges.keys
    · exact hnoted _ (h.callees k hold)
    · exact (new k hk hold).1

/-- Where nothing is pending, the methods that were reached are those that edges lead to. -/
theorem Grown.reaches (h : g.Grown p entry []) : g.Reaches p entry := by
  have hnoted : ∀ {m}, g.Noted [] m → m ∈ g.reachable.items := fun hm =>
    hm.resolve_right List.not_mem_nil
  have hkey : ∀ e ∈ g.edges.items, (e.site, e.callee) ∈ g.edges.keys := fun e he =>
    List.mem_map_of_mem he
  refine ⟨fun m => ⟨fun hm => h.led m (.inl hm), fun hled => ?_⟩, fun e he => ?_, fun e he =>
    hnoted (h.callees _ (hkey e he))⟩
  · cases hled with
    | refl => exact hnoted h.start
    | tail _ last =>
      obtain ⟨site, hedge, -⟩ := last
      exact hnoted (h.callees _ hedge)
  · obtain ⟨m, hm, hmem, hsite⟩ := h.callers _ (hkey e he)
    exact ⟨m, hm, hmem, Method.mem_callSites.1 hsite, method?_of_mem_callSites hsite⟩

end Grown

end CallGraph

/-! ### The pointer analysis -/

namespace Solver

section Run

variable {p : Program} {entry : MethodName} {s t : State}

/-- A call that is made begins at a call site of a reachable method. -/
theorem Stated.caller (hp : p.Proper) {site : CallSite}
    (h : Stated p s site.place (.call site.call)) : ∃ m, p.method? m.id = some m ∧
      m.id ∈ s.calls.reachable.items ∧ site ∈ m.callSites := by
  obtain ⟨name, hname, m, hm, hmem⟩ := h
  obtain rfl := hp.id_of_method? hm
  exact ⟨m, hm, hname, Method.mem_callSites.2 hmem⟩

theorem Step.grown (hp : p.Proper) {c : Trigger} (huses : UsesStated p s) (ha : c.Allowed p s)
    (h : s.calls.Grown p entry []) (step : Step p c s t) : t.calls.Grown p entry [] := by
  have same : t.calls.reachable = s.calls.reachable → t.calls.edges = s.calls.edges →
      t.calls.Grown p entry [] := by
    intro hreach hedges
    refine h.of_same (fun m => ?_) (fun m hm => hreach ▸ hm) hedges
    unfold CallGraph.Noted
    rw [hreach]
  cases step with
  | quiet agrees => exact same agrees.reachable agrees.callEdges
  | flow => exact same (by rw [State.calls_flow]) (by rw [State.calls_flow])
  | touch | allocate | use => exact same rfl rfl
  | @call _ _ site callee calls =>
    obtain ⟨-, -, -, -, hedge, hreach, -⟩ := s.called_frame c site callee
    have hold : ∀ m, s.calls.Noted [] m →
        ((s.greet callee c).withCall site callee.id).calls.Noted [] m :=
      fun m hm => hm.imp_left fun hm => hreach.2 (.inl hm)
    refine h.grow hold (fun m hm => hreach.2 (.inl hm)) (fun k hk => hedge.2 (.inl hk)) ?_ ?_
    · intro k hk hnew
      obtain rfl := (hedge.1 hk).resolve_left hnew
      obtain ⟨m, hm, hmem, hsite⟩ := (calls.stated huses ha).caller hp
      exact ⟨.inl (hreach.2 (.inr ⟨hnew, rfl⟩)), m, hm, hreach.2 (.inl hmem), .inl hmem, hsite⟩
    · intro m hm hnot
      have hm := hreach.1 (hm.resolve_right List.not_mem_nil)
      obtain ⟨hnew, rfl⟩ := hm.resolve_left fun hm => hnot (.inl hm)
      exact ⟨site, hedge.2 (.inr rfl), hnew⟩

theorem Move.grown (hp : p.Proper) (huses : UsesStated p s) (h : s.calls.Grown p entry [])
    (move : Move p s t) : t.calls.Grown p entry [] := by
  cases move with
  | act allowed step => exact step.grown hp huses allowed h
  | settle => exact h
  | @take _ d work next =>
    rw [(take_frame s d work).2.1]
    exact h

/-- **At every state of a run the graph has grown from the entry method.** -/
theorem moves_grown (hp : p.Proper) {log : Array Event}
    (run : ReflTransGen (Move p) (State.opened { log } entry) s) : s.calls.Grown p entry [] := by
  have fresh := State.fresh_initial ∅ ∅ log
  have hopened : (State.opened { log } entry).calls.Grown p entry [] := by
    obtain ⟨-, hreach, hedges, -⟩ := fresh.opened_frame entry
    have hnone : ∀ k, k ∉ (State.opened { log } entry).calls.edges.keys := by
      rw [hedges]
      exact fun k => List.not_mem_nil
    have hmem : ∀ {m}, m ∈ (State.opened { log } entry).calls.reachable.items ↔ m = entry := by
      intro m
      rw [hreach, List.mem_singleton]
    refine ⟨.inl (hmem.2 rfl), fun m hm => ?_, fun k hk => absurd hk (hnone k),
      fun k hk => absurd hk (hnone k)⟩
    rw [hmem.1 (hm.resolve_right List.not_mem_nil)]
  have step : ∀ s t, UsesStated p s ∧ s.calls.Grown p entry [] → Move p s t →
      UsesStated p t ∧ t.calls.Grown p entry [] :=
    fun s t hs move => ⟨move.usesStated hs.1, move.grown hp hs.1 hs.2⟩
  exact (moves_keep step run ⟨(fresh.ready_opened p entry).uses, hopened⟩).2

end Run

theorem analyzeFrom_grown {p : Program} (hp : p.Proper) {entry : Method}
    (hasBody : entry.body.isSome) : (analyzeFrom p entry).state.calls.Grown p entry.id [] := by
  have fresh := State.fresh_initial ∅ ∅ #[.asked p.classes.size entry.id]
  have run := moves_explore p (fresh.ready_opened p entry.id).orderly
  rw [analyzeFrom_eq_explore hasBody]
  cases he : State.explore { log := #[.asked p.classes.size entry.id] } p entry.id with
  | going t =>
    rw [he] at run
    have hgrown : t.calls.Grown p entry.id [] := moves_grown hp run
    exact hgrown
  | stopped t fault =>
    rw [he] at run
    exact moves_grown hp run

end Solver

/-! ### The class hierarchy analysis -/

section Hierarchy

variable {p : Program} {entry name : MethodName} {pending : List MethodName} {g : CallGraph}

/-- Only offers are put down. -/
theorem mem_foldl_note {offers : List (CallSite × Method)} {x : CallGraph × List MethodName}
    {n : MethodName} (h : n ∈ (offers.foldl CallGraph.note x).2) :
    n ∈ x.2 ∨ ∃ offer ∈ offers, n = offer.2.id := by
  induction offers generalizing x with
  | nil => exact .inl h
  | cons offer rest ih =>
    rcases ih h with h | ⟨o, ho, rfl⟩
    · unfold CallGraph.note at h
      dsimp only at h
      split at h
      · exact .inl h
      · rcases List.mem_append.1 h with h | h
        · exact .inl h
        · exact .inr ⟨offer, List.mem_cons_self, List.mem_singleton.1 h⟩
    · exact .inr ⟨o, List.mem_cons_of_mem _ ho, rfl⟩

theorem CallGraph.Grown.visit (hp : p.Proper) (h : g.Grown p entry (name :: pending)) :
    (g.visit p pending name).1.Grown p entry (g.visit p pending name).2 := by
  unfold CallGraph.visit
  by_cases hmem : name ∈ g.reachable.items
  · -- a method that was reached before is struck off
    rw [if_pos hmem]
    refine h.of_same (fun m => ⟨fun hm => hm.imp_right (List.mem_cons_of_mem _), ?_⟩)
      (fun _ => id) rfl
    rintro (hm | hm)
    · exact .inl hm
    · rcases List.mem_cons.1 hm with rfl | hm
      · exact .inl hmem
      · exact .inr hm
  · rw [if_neg hmem]
    obtain ⟨hreach, hedges, hkept, hnew, -⟩ := foldl_note (p.offersOf name)
      ({ g with reachable := g.reachable.add name }, pending)
    generalize hx : (p.offersOf name).foldl CallGraph.note
      ({ g with reachable := g.reachable.add name }, pending) = x at hreach hedges hkept hnew ⊢
    have hold : ∀ m, g.Noted (name :: pending) m → x.1.Noted x.2 m := by
      rintro m (hm | hm)
      · exact .inl (hreach ▸ OrderedSet.mem_add.2 (.inl hm))
      · rcases List.mem_cons.1 hm with rfl | hm
        · exact .inl (hreach ▸ OrderedSet.mem_add.2 (.inr rfl))
        · exact .inr (hkept m hm)
    refine h.grow hold (fun m hm => hreach ▸ OrderedSet.mem_add.2 (.inl hm))
      (fun k hk => (hedges k).2 (.inl hk)) (fun k hk hnot => ?_) fun m hm hnot => ?_
    · obtain ⟨offer, hoffer, rfl⟩ := ((hedges k).1 hk).resolve_left hnot
      refine ⟨(hnew offer hoffer).imp_left fun hm => hreach ▸ hm, ?_⟩
      cases hm : p.method? name with
      | none => simp [Program.offersOf, hm] at hoffer
      | some m =>
        obtain rfl := hp.id_of_method? hm
        have hsite := (Program.mem_offers.1 ((mem_offersOf hm).1 hoffer)).1
        exact ⟨m, hm, hreach ▸ OrderedSet.mem_add.2 (.inr rfl), .inr List.mem_cons_self, hsite⟩
    · have hput : m ∈ x.2 := by
        refine hm.resolve_left fun hm => hnot ?_
        rw [hreach] at hm
        rcases OrderedSet.mem_add.1 hm with hm | rfl
        · exact .inl hm
        · exact .inr List.mem_cons_self
      rw [← hx] at hput
      obtain ⟨offer, hoffer, rfl⟩ := (mem_foldl_note hput).resolve_left fun hm =>
        hnot (.inr (List.mem_cons_of_mem _ hm))
      refine ⟨offer.1, (hedges _).2 (.inr ⟨offer, hoffer, rfl⟩), fun hedge => ?_⟩
      exact hnot (h.callees _ hedge)

theorem grown_followCalls (hp : p.Proper) (limit : Nat) (h : g.Grown p entry pending)
    (hfollowed : g.Followed p pending) (hlimit : g.backlog p pending ≤ limit) :
    (followCalls p limit pending g).Grown p entry [] := by
  induction limit generalizing g pending with
  | zero =>
    have hnil : pending = [] := by
      unfold CallGraph.backlog at hlimit
      exact List.length_eq_zero_iff.1 (by omega)
    subst hnil
    exact h
  | succ limit ih =>
    cases pending with
    | nil => exact h
    | cons name pending =>
      obtain ⟨hvisit, -, hless⟩ := hfollowed.visit
      rw [followCalls_cons]
      exact ih (h.visit hp) hvisit (by omega)

theorem hierarchyCallGraph_grown (hp : p.Proper) (entry : Method) :
    (hierarchyCallGraph p entry).Grown p entry.id [] := by
  have hstart : (({} : CallGraph).addEntry entry.id).Grown p entry.id [entry.id] := by
    refine ⟨.inr (List.mem_singleton.2 rfl), fun m hm => ?_, fun k hk => absurd hk List.not_mem_nil,
      fun k hk => absurd hk List.not_mem_nil⟩
    rw [List.mem_singleton.1 (hm.resolve_left List.not_mem_nil)]
  exact grown_followCalls hp (callLimit p) hstart (CallGraph.followed_entry p entry.id)
    (CallGraph.backlog_entry_le p entry.id)

end Hierarchy

end PointsTo
