import Mathlib.Data.Finset.Prod
import Mathlib.Data.List.ProdSigma
import PointsTo.Proofs.Budget

/-!
How many deliveries a run can take. The load of a state counts the deliveries on the work list and
those that can still be sent: one for every allocation and every edge to come, and for every fact to
come one along each edge and one for each call. Processing a method never raises the load, and every
delivery that is taken lowers it.
-/
namespace PointsTo.Solver

open Relation (ReflTransGen)

section Sizes

variable {p : Program} {U : Universe p} {s t : State}

/-- The facts of the universe that the state lacks. -/
def missing (U : Universe p) (s : State) : Finset (Pointer × ObjectId) :=
  (U.pointers.toFinset ×ˢ Finset.range U.allocations.length).filter fun x =>
    x.2 ∉ (s.pointsTo x.1).items

/-- How many deliveries can still be taken. -/
def load (U : Universe p) (s : State) : Nat :=
  s.work.size + s.left p sends +
    (U.pointers.length * U.pointers.length - s.graph.edges.size) +
    (missing U s).card * (U.pointers.length + p.callSites.length)

theorem Confined.edges_le (h : Confined U s) :
    s.graph.edges.size ≤ U.pointers.length * U.pointers.length := by
  have hnodup := s.graph.edges.keys_nodup
  rw [OrderedSet.keys_eq_items] at hnodup
  have hsub : s.graph.edges.items ⊆ U.pointers ×ˢ U.pointers := by
    intro e he
    exact List.mem_product.2 (h.edges e he)
  have hle := (hnodup.subperm hsub).length_le
  rwa [List.length_product] at hle

theorem Confined.successors_le (h : Confined U s) (q : Pointer) :
    (s.graph.successors q).length ≤ U.pointers.length := by
  have hnodup := s.graph.edges.keys_nodup
  rw [OrderedSet.keys_eq_items] at hnodup
  have htargets : (s.graph.successors q).Nodup := by
    unfold FlowGraph.successors
    refine (List.Nodup.filter _ hnodup).map_on ?_
    rintro ⟨a, b⟩ ha ⟨a', b'⟩ ha' rfl
    obtain ⟨-, hb⟩ := List.mem_filter.1 ha
    obtain ⟨-, hb'⟩ := List.mem_filter.1 ha'
    simp only [decide_eq_true_eq] at hb hb'
    rw [hb, hb']
  have hsub : s.graph.successors q ⊆ U.pointers := by
    intro r hr
    exact (h.edges _ (FlowGraph.mem_successors.1 hr)).2
  exact (htargets.subperm hsub).length_le

theorem missing_mono (h : ∀ q, ∀ o ∈ (s.pointsTo q).items, o ∈ (t.pointsTo q).items) :
    (missing U t).card ≤ (missing U s).card := by
  refine Finset.card_le_card fun x hx => ?_
  obtain ⟨hin, hnot⟩ := Finset.mem_filter.1 hx
  exact Finset.mem_filter.2 ⟨hin, fun hmem => hnot (h x.1 x.2 hmem)⟩

/-- What a trigger does adds no more to the load than it sends for itself. -/
theorem Acts.load_le {c : Trigger} {n : Nat} (h : Acts p c n s t) (ht : Confined U t) :
    load U t ≤ load U s + n := by
  have hsent := h.sent
  have hleft := h.acted.left_le (p := p) sends
  have hedges := ht.edges_le
  have hmissing := missing_mono (U := U) h.extends.objects
  have hproduct := Nat.mul_le_mul_right (U.pointers.length + p.callSites.length) hmissing
  unfold load
  omega

end Sizes

/-! ### Deliveries -/

section Take

variable {p : Program} {U : Universe p} {s : State} {d : Delivery} {work : Queue Delivery}

/-- A delivery sends its new objects to every successor, and nothing if there are none. -/
theorem size_work_take (h : Confined U s) (next : s.work.pop? = some (d, work)) :
    (s.take d work).work.size + 1 ≤
      s.work.size + (s.fresh d.pointer d.objects).size * U.pointers.length := by
  have hlist := congrArg List.length (Queue.toList_of_pop? next)
  rw [List.length_cons, Queue.length_toList, Queue.length_toList] at hlist
  have hsize := State.size_work_propagate
    ({ s with work, iterations := s.iterations + 1 } : State) d.pointer d.objects
  have hsucc := h.successors_le d.pointer
  change (s.take d work).work.size = work.size +
    if (s.fresh d.pointer d.objects).isEmpty then 0 else (s.graph.successors d.pointer).length
    at hsize
  rw [hsize]
  split
  · omega
  · next hfresh =>
    have hpos : 1 ≤ (s.fresh d.pointer d.objects).size := by
      have hne : (s.fresh d.pointer d.objects).items ≠ [] := fun hnil =>
        hfresh (List.isEmpty_iff.2 hnil)
      exact List.length_pos_iff.2 hne
    have hprod := Nat.mul_le_mul_right U.pointers.length hpos
    omega

/-- The new objects of a delivery are facts that were missing. -/
theorem missing_take (h : Confined U s) (next : s.work.pop? = some (d, work)) :
    (missing U (s.take d work)).card + (s.fresh d.pointer d.objects).size ≤
      (missing U s).card := by
  have hsource : ∀ o ∈ d.objects.items, s.Arrives d.pointer o := by
    intro o ho
    refine .inr ⟨d, ?_, rfl, ho⟩
    rw [Queue.toList_of_pop? next]
    exact List.mem_cons_self
  have hnodup : ((s.fresh d.pointer d.objects).items.map fun o => (d.pointer, o)).Nodup := by
    have hkeys := (s.fresh d.pointer d.objects).keys_nodup
    rw [OrderedSet.keys_eq_items] at hkeys
    exact hkeys.map fun a b hab => (Prod.mk.inj hab).2
  have hcard := List.toFinset_card_of_nodup hnodup
  rw [List.length_map] at hcard
  -- the new objects are at the pointer now, so that they are missing no more
  have hdisjoint : Disjoint (missing U (s.take d work))
      ((s.fresh d.pointer d.objects).items.map fun o => (d.pointer, o)).toFinset := by
    rw [Finset.disjoint_left]
    intro x hx hmem
    obtain ⟨o, ho, rfl⟩ := List.mem_map.1 (List.mem_toFinset.1 hmem)
    refine (Finset.mem_filter.1 hx).2 (mem_pointsTo_take.2 (.inr ⟨rfl, ?_⟩))
    exact (State.mem_fresh.1 ho).1
  have hsub : missing U (s.take d work) ∪
      ((s.fresh d.pointer d.objects).items.map fun o => (d.pointer, o)).toFinset ⊆
        missing U s := by
    intro x hx
    rcases Finset.mem_union.1 hx with hx | hx
    · obtain ⟨hin, hnot⟩ := Finset.mem_filter.1 hx
      exact Finset.mem_filter.2 ⟨hin, fun hmem => hnot (mem_pointsTo_take.2 (.inl hmem))⟩
    · obtain ⟨o, ho, rfl⟩ := List.mem_map.1 (List.mem_toFinset.1 hx)
      obtain ⟨hgiven, hnew⟩ := State.mem_fresh.1 ho
      obtain ⟨hq, hlt⟩ := h.arrives _ o (hsource o hgiven)
      refine Finset.mem_filter.2 ⟨Finset.mem_product.2 ⟨List.mem_toFinset.2 hq, ?_⟩, hnew⟩
      exact Finset.mem_range.2 (Nat.lt_of_lt_of_le hlt h.size_le)
  have hle := Finset.card_le_card hsub
  rw [Finset.card_union_of_disjoint hdisjoint, hcard] at hle
  exact hle

/-- **A delivery lowers the load, and by what its new objects can ask for.** -/
theorem load_take (h : Confined U s) (next : s.work.pop? = some (d, work)) :
    load U (s.take d work) + (s.fresh d.pointer d.objects).size * p.callSites.length + 1 ≤
      load U s := by
  have hwork := size_work_take h next
  have hmissing := missing_take h next
  obtain ⟨-, hcalls, -, hpending, hedges⟩ := take_frame s d work
  have hleft : (s.take d work).left p sends ≤ s.left p sends := (Move.take next).left_le _
  have hproduct := Nat.mul_le_mul_right (U.pointers.length + p.callSites.length) hmissing
  rw [Nat.add_mul, Nat.mul_add (s.fresh d.pointer d.objects).size] at hproduct
  unfold load
  rw [hedges]
  omega

end Take

end PointsTo.Solver
