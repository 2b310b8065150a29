import PointsTo.Proofs.Budget

/-!
The class hierarchy analysis follows every call of every method that it reaches. The bound of
`followCalls` is shown never to be what ends it, so that in the end the calls of all methods in the
graph have been followed, and every edge is one that the class hierarchy offers.
-/
namespace PointsTo

open Solver (invokes total_invokes)

namespace Program

variable {p : Program} {call : Call} {m : Method}

/-- The calls of a method with what the class hierarchy offers for each. -/
def offers (p : Program) (m : Method) : List (CallSite × Method) :=
  m.callSites.flatMap fun site => (p.hierarchyTargets site.call).map fun callee => (site, callee)

theorem mem_offers {m callee : Method} {site : CallSite} :
    (site, callee) ∈ p.offers m ↔ site ∈ m.callSites ∧ callee ∈ p.hierarchyTargets site.call := by
  simp [offers, List.mem_flatMap]

theorem mem_hierarchyTargets_linked (kind : call.kind.isLinked = true) {callee : Method} :
    callee ∈ p.hierarchyTargets call ↔ p.resolveMethod call.callee = some callee := by
  unfold hierarchyTargets
  rw [if_pos kind, Option.mem_toList]

theorem resolveMethod_of_found (kind : call.kind.isLinked = true) {type : Option String}
    {callee : Method} (found : p.resolveCall type call = .found callee) :
    p.resolveMethod call.callee = some callee := by
  unfold resolveCall at found
  rw [if_pos kind] at found
  split at found
  · next m hm =>
    cases found
    exact hm
  · cases found

/-- Any other call runs what the class of the receiver dispatches to. -/
theorem dispatch_of_found (kind : ¬ call.kind.isLinked = true) {type : String} {callee : Method}
    (found : p.resolveCall (some type) call = .found callee) :
    p.dispatch (receiverClass type) call.callee.subsignature = some callee := by
  unfold resolveCall at found
  rw [if_neg kind] at found
  dsimp only at found
  split at found
  · next m hm =>
    cases found
    exact hm
  · split at found <;> cases found

/-- What a call is offered are methods of the program, each once. -/
theorem hierarchyTargets_methods (p : Program) (call : Call) :
    (∀ callee ∈ p.hierarchyTargets call, callee ∈ p.methods) ∧
      ((p.hierarchyTargets call).map Method.id).Nodup := by
  unfold hierarchyTargets
  split
  · cases h : p.resolveMethod call.callee with
    | none => exact ⟨fun _ hc => absurd hc List.not_mem_nil, List.nodup_nil⟩
    | some m =>
      refine ⟨fun callee hc => ?_, List.nodup_singleton _⟩
      rw [List.mem_singleton.1 hc]
      exact (of_lookup h).1
  · refine ⟨fun callee hc => ?_, Roster.keys_nodup _⟩
    rcases Roster.mem_of_mem_addAll hc with hc | hc
    · cases hc
    · obtain ⟨c, -, hdispatch⟩ := List.mem_filterMap.1 hc
      exact (of_lookup hdispatch).1

theorem length_hierarchyTargets_le (p : Program) (call : Call) :
    (p.hierarchyTargets call).length ≤ p.methods.length := by
  obtain ⟨hmem, hnodup⟩ := p.hierarchyTargets_methods call
  have hsub : (p.hierarchyTargets call).map Method.id ⊆ p.methods.map Method.id :=
    List.map_subset _ hmem
  have hle := (hnodup.subperm hsub).length_le
  rwa [List.length_map, List.length_map] at hle

theorem length_offers_le (p : Program) (m : Method) :
    (p.offers m).length ≤ m.callSites.length * p.methods.length := by
  unfold offers
  induction m.callSites with
  | nil => exact Nat.zero_le _
  | cons site rest ih =>
    have hle := p.length_hierarchyTargets_le site.call
    rw [List.flatMap_cons, List.length_append, List.length_map, List.length_cons, Nat.succ_mul]
    omega

/-- The classes below that of the reference with what they dispatch to. -/
theorem mem_dispatched :
    m ∈ ((p.reachClasses p.subtypes [call.callee.declaringClass]).filter
        fun c => !c.isAbstract).filterMap (fun c => p.dispatch c.name call.callee.subsignature) ↔
      ∃ c ∈ p.reachClasses p.subtypes [call.callee.declaringClass], c.isAbstract = false ∧
        p.dispatch c.name call.callee.subsignature = some m := by
  simp [List.mem_filterMap, List.mem_filter, and_assoc]

/-- A call of any other kind is offered only what the concrete classes below that of its reference
dispatch to. -/
theorem receiver_of_mem_hierarchyTargets (kind : ¬ call.kind.isLinked = true)
    (h : m ∈ p.hierarchyTargets call) :
    ∃ c ∈ p.reachClasses p.subtypes [call.callee.declaringClass], c.isAbstract = false ∧
      p.dispatch c.name call.callee.subsignature = some m := by
  unfold hierarchyTargets at h
  rw [if_neg kind] at h
  rcases Roster.mem_of_mem_addAll h with h | h
  · cases h
  · exact mem_dispatched.1 h

/-- Whatever such a class dispatches to is offered, or a method of the same name is. -/
theorem id_mem_hierarchyTargets (kind : ¬ call.kind.isLinked = true) {c : Class}
    (hc : c ∈ p.reachClasses p.subtypes [call.callee.declaringClass])
    (hconcrete : c.isAbstract = false)
    (hdispatch : p.dispatch c.name call.callee.subsignature = some m) :
    m.id ∈ (p.hierarchyTargets call).map Method.id := by
  unfold hierarchyTargets
  rw [if_neg kind]
  exact Roster.mem_keys_addAll.2
    (.inr (List.mem_map_of_mem (mem_dispatched.2 ⟨c, hc, hconcrete, hdispatch⟩)))

/-- A call of any other kind is offered what the concrete classes below that of its reference
dispatch to. -/
theorem Proper.mem_hierarchyTargets (hp : p.Proper) (kind : ¬ call.kind.isLinked = true) :
    m ∈ p.hierarchyTargets call ↔
      ∃ c ∈ p.reachClasses p.subtypes [call.callee.declaringClass], c.isAbstract = false ∧
        p.dispatch c.name call.callee.subsignature = some m := by
  refine ⟨receiver_of_mem_hierarchyTargets kind, ?_⟩
  rintro ⟨c, hc, hconcrete, hdispatch⟩
  -- a roster keeps the first method of each name, and there is one method of a name
  obtain ⟨n, hn, hid⟩ := List.mem_map.1 (id_mem_hierarchyTargets kind hc hconcrete hdispatch)
  have hsame := hp.method?_id ((p.hierarchyTargets_methods call).1 n hn)
  rw [hid, hp.method?_id (of_lookup hdispatch).1] at hsame
  rw [Option.some.inj hsame]
  exact hn

/-- An instance call that names a class which the program lacks is offered nothing, whatever
subclasses of it the program has. -/
theorem hierarchyTargets_of_absent (kind : ¬ call.kind.isLinked = true)
    (absent : p.class? call.callee.declaringClass = none) : p.hierarchyTargets call = [] := by
  have hreach : p.reach p.subtypes [call.callee.declaringClass] = [call.callee.declaringClass] := by
    unfold reach
    rw [reachFrom, dif_neg List.not_mem_nil]
    split
    · rw [reachFrom]
      rfl
    · next c here =>
      rw [absent] at here
      cases here
  have hclasses : p.reachClasses p.subtypes [call.callee.declaringClass] = [] := by
    unfold reachClasses
    rw [hreach, List.filterMap_cons, absent]
    rfl
  unfold hierarchyTargets
  rw [if_neg kind, hclasses]
  rfl

end Program

/-! ### Following calls -/

/-- What is known of the methods in a graph: each of their calls has an edge to whatever it is
offered, and what it is offered has been reached or is pending. -/
structure CallGraph.Followed (p : Program) (pending : List MethodName) (g : CallGraph) : Prop where
  closed : ∀ name ∈ g.reachable.items, ∀ m, p.method? name = some m → ∀ x ∈ p.offers m,
    (x.1, x.2.id) ∈ g.edges.keys ∧ (x.2.id ∈ g.reachable.items ∨ x.2.id ∈ pending)
  offered : ∀ k ∈ g.edges.keys, ∃ callee ∈ p.hierarchyTargets k.1.call, callee.id = k.2

/-- How many methods the analysis can still take from those that are pending. -/
def CallGraph.backlog (g : CallGraph) (p : Program) (pending : List MethodName) : Nat :=
  pending.length + p.costOf invokes (fun name => name ∉ g.reachable.items) * p.methods.length

/-- Adds the edge of an offer, and puts its method down unless it has been reached. -/
def CallGraph.note (x : CallGraph × List MethodName) (offer : CallSite × Method) :
    CallGraph × List MethodName :=
  ((x.1.tryAddEdge (.ofCall offer.1 offer.2.id)).2,
    if (x.1.tryAddEdge (.ofCall offer.1 offer.2.id)).2.contains offer.2.id then x.2
    else x.2 ++ [offer.2.id])

section Follow

variable {p : Program} {g : CallGraph} {pending : List MethodName} {name : MethodName}

theorem callTargets_eq (p : Program) (m : Method) (g : CallGraph) (pending : List MethodName) :
    callTargets p m g pending = (p.offers m).foldl CallGraph.note (g, pending) := by
  unfold callTargets Program.offers
  rw [List.foldl_flatMap]
  simp only [List.foldl_map]
  rfl

/-- What an offer does to a graph and to what is pending. -/
theorem note_frame (x : CallGraph × List MethodName) (offer : CallSite × Method) :
    (∀ k, k ∈ (CallGraph.note x offer).1.edges.keys ↔
        k ∈ x.1.edges.keys ∨ k = (offer.1, offer.2.id)) ∧
      (∀ n ∈ x.2, n ∈ (CallGraph.note x offer).2) ∧
      (offer.2.id ∈ x.1.reachable.items ∨ offer.2.id ∈ (CallGraph.note x offer).2) ∧
      (CallGraph.note x offer).2.length ≤ x.2.length + 1 := by
  refine ⟨fun k => Roster.mem_keys_add, ?_⟩
  unfold CallGraph.note
  split
  · next h =>
    have hmem := Roster.contains_iff.1 h
    rw [OrderedSet.keys_eq_items] at hmem
    exact ⟨fun _ => id, .inl hmem, Nat.le_succ _⟩
  · exact ⟨fun n hn => List.mem_append_left _ hn, .inr (by simp), by simp⟩

/-- What a list of offers does to a graph and to what is pending. -/
theorem foldl_note (offers : List (CallSite × Method)) (x : CallGraph × List MethodName) :
    (offers.foldl CallGraph.note x).1.reachable = x.1.reachable ∧
      (∀ k, k ∈ (offers.foldl CallGraph.note x).1.edges.keys ↔
        k ∈ x.1.edges.keys ∨ ∃ offer ∈ offers, k = (offer.1, offer.2.id)) ∧
      (∀ n ∈ x.2, n ∈ (offers.foldl CallGraph.note x).2) ∧
      (∀ offer ∈ offers, offer.2.id ∈ x.1.reachable.items ∨
        offer.2.id ∈ (offers.foldl CallGraph.note x).2) ∧
      (offers.foldl CallGraph.note x).2.length ≤ x.2.length + offers.length := by
  induction offers generalizing x with
  | nil => exact ⟨rfl, by simp, fun _ => id, by simp, Nat.le_refl _⟩
  | cons offer rest ih =>
    obtain ⟨hreach, hedges, hkept, hnew, hlength⟩ := ih (CallGraph.note x offer)
    obtain ⟨hedges₁, hkept₁, hnew₁, hlength₁⟩ := note_frame x offer
    refine ⟨hreach, fun k => ?_, fun n hn => hkept n (hkept₁ n hn), fun o ho => ?_, ?_⟩
    · rw [List.foldl_cons, hedges, hedges₁, or_assoc]
      simp [eq_comm]
    · rcases List.mem_cons.1 ho with rfl | ho
      · exact hnew₁.imp_right (hkept _)
      · exact hnew o ho
    · rw [List.foldl_cons, List.length_cons]
      omega

def Program.offersOf (p : Program) (name : MethodName) : List (CallSite × Method) :=
  ((p.method? name).map p.offers).getD []

/-- Takes one method from those that are pending. -/
def CallGraph.visit (g : CallGraph) (p : Program) (pending : List MethodName)
    (name : MethodName) : CallGraph × List MethodName :=
  if name ∈ g.reachable.items then (g, pending)
  else
    (p.offersOf name).foldl CallGraph.note ({ g with reachable := g.reachable.add name }, pending)

theorem followCalls_cons (p : Program) (limit : Nat) (name : MethodName)
    (pending : List MethodName) (g : CallGraph) :
    followCalls p (limit + 1) (name :: pending) g =
      followCalls p limit (g.visit p pending name).2 (g.visit p pending name).1 := by
  rw [followCalls]
  unfold CallGraph.visit CallGraph.tryReach Roster.tryAdd Program.offersOf
  by_cases hmem : name ∈ g.reachable.items
  · have hcontains : g.reachable.contains name = true := by
      rw [Roster.contains_iff, OrderedSet.keys_eq_items]
      exact hmem
    have hadd : g.reachable.add name = g.reachable := by
      apply Roster.ext
      rw [Roster.items_add, if_pos (by rw [OrderedSet.keys_eq_items]; exact hmem)]
    rw [if_pos hmem]
    simp only [hcontains, hadd, Bool.not_true, Bool.not_false, if_true]
  · have hcontains : g.reachable.contains name = false := by
      rw [Roster.contains_eq_false, OrderedSet.keys_eq_items]
      exact hmem
    rw [if_neg hmem]
    simp only [hcontains, Bool.not_false, Bool.not_true, Bool.false_eq_true, if_false]
    cases hm : p.method? name with
    | none => rfl
    | some m =>
      simp only [callTargets_eq]
      rfl

/-- The offers of a method that is reached for the first time are paid for by its calls. -/
theorem length_offersOf_le (hnew : name ∉ g.reachable.items) :
    (p.offersOf name).length +
        p.costOf invokes (fun n => n ∉ (g.reachable.add name).items) * p.methods.length ≤
      p.costOf invokes (fun n => n ∉ g.reachable.items) * p.methods.length := by
  have hless : ∀ n, n ∉ (g.reachable.add name).items → n ∉ g.reachable.items :=
    fun n hn hmem => hn (OrderedSet.mem_add.2 (.inl hmem))
  have hgone : ¬ name ∉ (g.reachable.add name).items :=
    fun hn => hn (OrderedSet.mem_add.2 (.inr rfl))
  unfold Program.offersOf
  cases hm : p.method? name with
  | none =>
    have hle := Nat.mul_le_mul_right p.methods.length
      (Program.costOf_mono (p := p) invokes hless)
    exact (Nat.zero_add _).symm ▸ hle
  | some m =>
    have hdrop := Nat.mul_le_mul_right p.methods.length
      (Program.costOf_drop invokes hless hnew hgone hm)
    have hoffers := p.length_offers_le m
    rw [m.total_invokes, Nat.add_mul] at hdrop
    show (p.offers m).length + _ ≤ _
    omega

theorem mem_offersOf {m : Method} (hm : p.method? name = some m) {x : CallSite × Method} :
    x ∈ p.offersOf name ↔ x ∈ p.offers m := by
  unfold Program.offersOf
  rw [hm]
  rfl

theorem offered_of_mem {x : CallSite × Method} (h : x ∈ p.offersOf name) :
    x.2 ∈ p.hierarchyTargets x.1.call := by
  cases hm : p.method? name with
  | none =>
    unfold Program.offersOf at h
    rw [hm] at h
    cases h
  | some m => exact (Program.mem_offers.1 ((mem_offersOf hm).1 h)).2

/-- A method that has been reached before is left out. -/
theorem CallGraph.Followed.skip (h : g.Followed p (name :: pending))
    (hmem : name ∈ g.reachable.items) : g.Followed p pending := by
  refine ⟨fun n hn m hm x hx => ?_, h.offered⟩
  obtain ⟨hedge, hcallee⟩ := h.closed n hn m hm x hx
  refine ⟨hedge, hcallee.elim .inl fun hn => ?_⟩
  rcases List.mem_cons.1 hn with hname | hn
  · exact .inl (hname ▸ hmem)
  · exact .inr hn

/-- A method that is reached for the first time has its calls followed. -/
theorem CallGraph.Followed.take (h : g.Followed p (name :: pending)) :
    ((p.offersOf name).foldl CallGraph.note
        ({ g with reachable := g.reachable.add name }, pending)).1.Followed p
      ((p.offersOf name).foldl CallGraph.note
        ({ g with reachable := g.reachable.add name }, pending)).2 := by
  obtain ⟨hreach, hedges, hkept, hnew, -⟩ := foldl_note (p.offersOf name)
    ({ g with reachable := g.reachable.add name }, pending)
  refine ⟨fun n hn m hm x hx => ?_, fun k hk => ?_⟩
  · rw [hreach] at hn ⊢
    rw [hedges]
    rcases OrderedSet.mem_add.1 hn with hn | rfl
    · obtain ⟨hedge, hcallee⟩ := h.closed n hn m hm x hx
      refine ⟨.inl hedge, ?_⟩
      rcases hcallee with hold | hpending
      · exact .inl (OrderedSet.mem_add.2 (.inl hold))
      · rcases List.mem_cons.1 hpending with hname | hpending
        · exact .inl (OrderedSet.mem_add.2 (.inr hname))
        · exact .inr (hkept _ hpending)
    · have hoffer := (mem_offersOf hm).2 hx
      exact ⟨.inr ⟨x, hoffer, rfl⟩, hnew x hoffer⟩
  · rcases (hedges k).1 hk with hk | ⟨x, hx, rfl⟩
    · exact h.offered k hk
    · exact ⟨x.2, offered_of_mem hx, rfl⟩

/-- **Each method that is taken is followed, and what can still be taken gets less.** -/
theorem CallGraph.Followed.visit (h : g.Followed p (name :: pending)) :
    (g.visit p pending name).1.Followed p (g.visit p pending name).2 ∧
      (∀ n, n ∈ g.reachable.items ∨ n ∈ name :: pending →
        n ∈ (g.visit p pending name).1.reachable.items ∨ n ∈ (g.visit p pending name).2) ∧
      (g.visit p pending name).1.backlog p (g.visit p pending name).2 + 1 ≤
        g.backlog p (name :: pending) := by
  unfold CallGraph.visit
  by_cases hmem : name ∈ g.reachable.items
  · rw [if_pos hmem]
    refine ⟨h.skip hmem, ?_, ?_⟩
    · rintro n (hn | hn)
      · exact .inl hn
      · rcases List.mem_cons.1 hn with rfl | hn
        · exact .inl hmem
        · exact .inr hn
    · unfold CallGraph.backlog
      rw [List.length_cons]
      dsimp only
      omega
  · obtain ⟨hreach, -, hkept, -, hlength⟩ := foldl_note (p.offersOf name)
      ({ g with reachable := g.reachable.add name }, pending)
    rw [if_neg hmem]
    refine ⟨h.take, ?_, ?_⟩
    · rw [hreach]
      rintro n (hn | hn)
      · exact .inl (OrderedSet.mem_add.2 (.inl hn))
      · rcases List.mem_cons.1 hn with rfl | hn
        · exact .inl (OrderedSet.mem_add.2 (.inr rfl))
        · exact .inr (hkept n hn)
    · have hpaid := length_offersOf_le (p := p) hmem
      unfold CallGraph.backlog
      rw [hreach, List.length_cons]
      dsimp only at hlength hpaid ⊢
      omega

/-- With a bound that covers what can be taken, all methods are followed in the end. -/
theorem followed_followCalls (limit : Nat) (h : g.Followed p pending)
    (hlimit : g.backlog p pending ≤ limit) :
    (followCalls p limit pending g).Followed p [] ∧
      ∀ n, n ∈ g.reachable.items ∨ n ∈ pending →
        n ∈ (followCalls p limit pending g).reachable.items := by
  induction limit generalizing g pending with
  | zero =>
    have hnil : pending = [] := by
      unfold CallGraph.backlog at hlimit
      exact List.length_eq_zero_iff.1 (by omega)
    subst hnil
    exact ⟨h, fun n hn => hn.resolve_right List.not_mem_nil⟩
  | succ limit ih =>
    cases pending with
    | nil => exact ⟨h, fun n hn => hn.resolve_right List.not_mem_nil⟩
    | cons name pending =>
      obtain ⟨hvisit, hold, hless⟩ := h.visit
      obtain ⟨hend, hall⟩ := ih hvisit (by omega)
      rw [followCalls_cons]
      exact ⟨hend, fun n hn => hall n (hold n hn)⟩

theorem CallGraph.followed_entry (p : Program) (entry : MethodName) :
    (({} : CallGraph).addEntry entry).Followed p [entry] :=
  ⟨fun _ hn => absurd hn List.not_mem_nil, fun _ hk => absurd hk List.not_mem_nil⟩

theorem CallGraph.backlog_entry_le (p : Program) (entry : MethodName) :
    (({} : CallGraph).addEntry entry).backlog p [entry] ≤ callLimit p := by
  have hle := Nat.mul_le_mul_right p.methods.length (Program.costOf_le_total (p := p)
    invokes fun n => n ∉ (({} : CallGraph).addEntry entry).reachable.items)
  rw [total_invokes] at hle
  unfold CallGraph.backlog callLimit
  rw [List.length_singleton]
  omega

/-- **The class hierarchy analysis is never cut short.** All calls of the methods in its graph have
been followed, and the entry method is one of those. -/
theorem followed_hierarchyCallGraph (p : Program) (entry : Method) :
    (hierarchyCallGraph p entry).Followed p [] ∧
      entry.id ∈ (hierarchyCallGraph p entry).reachable.items := by
  obtain ⟨hend, hall⟩ := followed_followCalls (callLimit p) (CallGraph.followed_entry p entry.id)
    (CallGraph.backlog_entry_le p entry.id)
  exact ⟨hend, hall entry.id (.inr (List.mem_singleton.2 rfl))⟩

end Follow

end PointsTo
