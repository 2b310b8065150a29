import Mathlib.Data.Finset.Card
import PointsTo.Proofs.Faults

/-!
The loops of the analysis as they are meant, without a bound: `Settles` goes on until no method is
pending, `Analyzes` until the work list is empty, and a derivation is a run that has come to its
end. The bound of `settle` is shown never to be what ends it: each method is put down at most once.
-/
namespace PointsTo.Solver

open Relation (ReflTransGen)

/-- Processes pending methods until there are none. -/
inductive Settles (p : Program) : State → Progress → Prop
  | done {s} (none : s.pending = []) : Settles p s (.going s)
  | stop {s name rest t fault} (next : s.pending = name :: rest)
      (stops : State.processMethod { s with pending := rest } p name = .stopped t fault) :
      Settles p s (.stopped t fault)
  | again {s name rest t r} (next : s.pending = name :: rest)
      (goes : State.processMethod { s with pending := rest } p name = .going t)
      (more : Settles p t r) : Settles p s r

/-- Takes one delivery and settles. -/
inductive Delivers (p : Program) (s : State) (d : Delivery) : Progress → Prop
  | stop {t fault} (stops : s.accept p d = .stopped t fault) : Delivers p s d (.stopped t fault)
  | settle {t r} (goes : s.accept p d = .going t) (settles : Settles p t r) : Delivers p s d r

/-- Takes deliveries until there are none. -/
inductive Analyzes (p : Program) : State → Progress → Prop
  | done {s} (none : s.work.pop? = none) : Analyzes p s (.going s)
  | stop {s d work t fault} (next : s.work.pop? = some (d, work))
      (delivers : Delivers p { s with work } d (.stopped t fault)) :
      Analyzes p s (.stopped t fault)
  | again {s d work t r} (next : s.work.pop? = some (d, work))
      (delivers : Delivers p { s with work } d (.going t)) (more : Analyzes p t r) :
      Analyzes p s r

/-- The state in which an entry method has been put down. -/
def State.opened (s : State) (m : MethodName) : State :=
  State.reach { s.record (.started m) with calls := s.calls.addEntry m } m

/-- Both loops from an entry method on. -/
def State.explore (s : State) (p : Program) (m : MethodName) : Progress :=
  ((s.opened m).settle p).andThen fun t => t.analyze p

/-- An entry method with a body is put down and settled. -/
theorem start_eq_settle {p : Program} {s : State} {m : Method} (hasBody : m.body.isSome) :
    s.start p (some m) = (s.opened m.id).settle p := by
  have hnone : ¬ m.body.isNone = true := by
    rw [Option.isNone_iff_eq_none]
    rintro h
    rw [h] at hasBody
    cases hasBody
  exact if_neg hnone

theorem start_of_bodyless {p : Program} {s : State} {m : Method} (noBody : ¬ m.body.isSome) :
    s.start p (some m) = .stopped s (.bodylessEntry m.id) := by
  have hnone : m.body.isNone = true := by simpa using noBody
  exact if_pos hnone

/-- From an entry method with a body, the analysis is its loops and a record of the end. -/
theorem solve_eq_explore {p : Program} {s : State} {m : Method} (hasBody : m.body.isSome) :
    s.solve p (some m) =
      (s.explore p m.id).andThen fun t => .going (t.record (.finished t.summary)) := by
  unfold State.solve State.explore
  rw [start_eq_settle hasBody]

/-- A whole run from an entry method to its end. -/
inductive Runs (p : Program) (s : State) : Option Method → Progress → Prop
  | noEntry : Runs p s none (.stopped s .nothingToStart)
  | bodyless {m} (none : m.body = none) : Runs p s (some m) (.stopped s (.bodylessEntry m.id))
  | stopSettling {m t fault} (hasBody : m.body.isSome)
      (settles : Settles p (s.opened m.id) (.stopped t fault)) :
      Runs p s (some m) (.stopped t fault)
  | stopAnalyzing {m t u fault} (hasBody : m.body.isSome)
      (settles : Settles p (s.opened m.id) (.going t))
      (analyzes : Analyzes p t (.stopped u fault)) : Runs p s (some m) (.stopped u fault)
  | finish {m t u} (hasBody : m.body.isSome) (settles : Settles p (s.opened m.id) (.going t))
      (analyzes : Analyzes p t (.going u)) :
      Runs p s (some m) (.going (u.record (.finished u.summary)))

/-! ### One result -/

section Unique

variable {p : Program} {s : State}

theorem Settles.unique {r r' : Progress} (h : Settles p s r) (h' : Settles p s r') : r = r' := by
  induction h with
  | done none =>
    cases h' with
    | done => rfl
    | stop next | again next => rw [none] at next; cases next
  | stop next stops =>
    cases h' with
    | done none => rw [none] at next; cases next
    | stop next' stops' =>
      rw [next] at next'
      cases next'
      rw [stops] at stops'
      cases stops'
      rfl
    | again next' goes =>
      rw [next] at next'
      cases next'
      rw [stops] at goes
      cases goes
  | again next goes _ ih =>
    cases h' with
    | done none => rw [none] at next; cases next
    | stop next' stops =>
      rw [next] at next'
      cases next'
      rw [goes] at stops
      cases stops
    | again next' goes' more =>
      rw [next] at next'
      cases next'
      rw [goes] at goes'
      cases goes'
      exact ih more

theorem Delivers.unique {d : Delivery} {r r' : Progress} (h : Delivers p s d r)
    (h' : Delivers p s d r') : r = r' := by
  cases h with
  | stop stops =>
    cases h' with
    | stop stops' => exact stops.symm.trans stops'
    | settle goes => rw [stops] at goes; cases goes
  | settle goes settles =>
    cases h' with
    | stop stops => rw [goes] at stops; cases stops
    | settle goes' settles' =>
      rw [goes] at goes'
      cases goes'
      exact settles.unique settles'

theorem Analyzes.unique {r r' : Progress} (h : Analyzes p s r) (h' : Analyzes p s r') :
    r = r' := by
  induction h with
  | done none =>
    cases h' with
    | done => rfl
    | stop next | again next => rw [none] at next; cases next
  | stop next delivers =>
    cases h' with
    | done none => rw [none] at next; cases next
    | stop next' delivers' =>
      rw [next] at next'
      cases next'
      exact delivers.unique delivers'
    | again next' delivers' =>
      rw [next] at next'
      cases next'
      cases delivers.unique delivers'
  | again next delivers _ ih =>
    cases h' with
    | done none => rw [none] at next; cases next
    | stop next' delivers' =>
      rw [next] at next'
      cases next'
      cases delivers.unique delivers'
    | again next' delivers' more =>
      rw [next] at next'
      cases next'
      cases delivers.unique delivers'
      exact ih more

/-- **A run has one result.** -/
theorem Runs.unique {entry : Option Method} {r r' : Progress} (h : Runs p s entry r)
    (h' : Runs p s entry r') : r = r' := by
  cases h with
  | noEntry =>
    cases h'
    rfl
  | bodyless none =>
    cases h' with
    | bodyless => rfl
    | stopSettling hasBody | stopAnalyzing hasBody | finish hasBody =>
      rw [none] at hasBody
      cases hasBody
  | stopSettling hasBody settles =>
    cases h' with
    | bodyless none => rw [none] at hasBody; cases hasBody
    | stopSettling _ settles' => exact settles.unique settles'
    | stopAnalyzing _ settles' | finish _ settles' => cases settles.unique settles'
  | stopAnalyzing hasBody settles analyzes =>
    cases h' with
    | bodyless none => rw [none] at hasBody; cases hasBody
    | stopSettling _ settles' => cases settles.unique settles'
    | stopAnalyzing _ settles' analyzes' =>
      cases settles.unique settles'
      exact analyzes.unique analyzes'
    | finish _ settles' analyzes' =>
      cases settles.unique settles'
      cases analyzes.unique analyzes'
  | finish hasBody settles analyzes =>
    cases h' with
    | bodyless none => rw [none] at hasBody; cases hasBody
    | stopSettling _ settles' => cases settles.unique settles'
    | stopAnalyzing _ settles' analyzes' =>
      cases settles.unique settles'
      cases analyzes.unique analyzes'
    | finish _ settles' analyzes' =>
      cases settles.unique settles'
      cases analyzes.unique analyzes'
      rfl

end Unique

section Settle

variable {p : Program} {c : Trigger} {s t : State} {n : Nat}

/-- The names of methods of the program that are not reachable yet. -/
def unreached (p : Program) (s : State) : Finset MethodName :=
  (p.methods.map Method.id).toFinset \ s.calls.reachable.items.toFinset

/-- How many methods can still be processed. -/
def State.backlog (s : State) (p : Program) : Nat := s.pending.length + (unreached p s).card

theorem card_unreached_le (p : Program) (s : State) : (unreached p s).card ≤ p.methods.length := by
  have hsub := Finset.card_le_card (Finset.sdiff_subset
    (s := (p.methods.map Method.id).toFinset) (t := s.calls.reachable.items.toFinset))
  have hlist := List.toFinset_card_le (p.methods.map Method.id)
  rw [List.length_map] at hlist
  exact hsub.trans hlist

/-- A method that a step puts down was not reachable before. -/
theorem Step.backlog_le (h : Step p c s t) : t.backlog p ≤ s.backlog p := by
  obtain ⟨new, hpending, hreachable, hnew⟩ := h.adds.reached
  have hnodup : new.Nodup := by
    have hkeys := t.calls.reachable.keys_nodup
    rw [OrderedSet.keys_eq_items, hreachable] at hkeys
    exact (List.nodup_append.1 hkeys).2.1
  -- what is put down is no longer among the unreached methods, so that the sum stays below
  have hdisjoint : Disjoint (unreached p t) new.toFinset := by
    rw [Finset.disjoint_left]
    intro m hm hmem
    have hnot := (Finset.mem_sdiff.1 hm).2
    rw [hreachable] at hnot
    simp_all
  have hsub : unreached p t ∪ new.toFinset ⊆ unreached p s := by
    intro m hm
    rcases Finset.mem_union.1 hm with hm | hm
    · obtain ⟨hin, hnot⟩ := Finset.mem_sdiff.1 hm
      rw [hreachable] at hnot
      exact Finset.mem_sdiff.2 ⟨hin, fun h => hnot (by simp_all)⟩
    · obtain ⟨hfresh, site, callee, calls, rfl, -⟩ := hnew m (List.mem_toFinset.1 hm)
      refine Finset.mem_sdiff.2 ⟨?_, fun h => hfresh (List.mem_toFinset.1 h)⟩
      have hmem : callee ∈ p.methods := by
        cases calls with
        | linked _ found => exact Program.mem_methods_of_found found
        | dispatched _ found => exact Program.mem_methods_of_found found
      exact List.mem_toFinset.2 (List.mem_map_of_mem hmem)
  have hcard := Finset.card_le_card hsub
  rw [Finset.card_union_of_disjoint hdisjoint, List.toFinset_card_of_nodup hnodup] at hcard
  unfold State.backlog
  rw [hpending, List.length_append]
  omega

theorem Acts.backlog_le (h : Acts p c n s t) : t.backlog p ≤ s.backlog p := by
  obtain ⟨steps, -⟩ := h
  induction steps with
  | refl => exact Nat.le_refl _
  | tail _ step ih => exact step.backlog_le.trans ih

theorem backlog_processMethod_le (s : State) (name : MethodName) :
    (s.processMethod p name).state.backlog p ≤ s.backlog p := by
  unfold State.processMethod
  split
  · exact Nat.le_refl _
  · next m hm =>
    refine forEach_keeps (fun t => t.backlog p ≤ s.backlog p) ?_ (Nat.le_refl _)
    rintro ⟨place, i⟩ - t ht
    exact (acts_process t m place i).backlog_le.trans ht

/-- The bounded loop is the loop if the bound covers what can still be processed. -/
theorem settles_settleWithin (limit : Nat) (h : s.backlog p ≤ limit) :
    Settles p s (State.settleWithin p limit s) := by
  induction limit generalizing s with
  | zero =>
    have hnil : s.pending = [] := by
      unfold State.backlog at h
      exact List.length_eq_zero_iff.1 (by omega)
    exact .done hnil
  | succ limit ih =>
    unfold State.settleWithin
    split
    · next hnil => exact .done hnil
    · next name rest next =>
      have hle := backlog_processMethod_le (p := p) { s with pending := rest } name
      have hsize : State.backlog { s with pending := rest } p + 1 = s.backlog p := by
        show rest.length + (unreached p s).card + 1 = s.pending.length + (unreached p s).card
        rw [next, List.length_cons]
        omega
      cases hr : State.processMethod { s with pending := rest } p name with
      | stopped t fault => exact .stop next hr
      | going t =>
        rw [hr] at hle
        exact .again next hr (ih (by rw [Progress.state_going] at hle; omega))

/-- **Settling is never cut short.** -/
theorem settles_settle (p : Program) (s : State) : Settles p s (s.settle p) := by
  refine settles_settleWithin _ ?_
  have hle := card_unreached_le p s
  unfold State.backlog State.settleLimit
  omega

theorem Settles.moves {r : Progress} (h : Settles p s r) (ho : s.Orderly) :
    ReflTransGen (Move p) s r.state := by
  rw [h.unique (settles_settle p s)]
  exact moves_settle p ho

theorem Delivers.moves {d : Delivery} {work : Queue Delivery} {r : Progress}
    (h : Delivers p { s with work } d r) (ho : s.Orderly) (next : s.work.pop? = some (d, work)) :
    ReflTransGen (Move p) s r.state := by
  have met := moves_accept (p := p) next
  cases h with
  | stop stops =>
    rw [stops] at met
    exact met
  | settle goes settles =>
    rw [goes] at met
    exact met.trans (settles.moves (moves_keep (fun _ _ => Move.orderly) met ho))

theorem Settles.pending_eq_nil {r : Progress} (h : Settles p s r) (hr : r = .going t) :
    t.pending = [] := by
  induction h with
  | done none =>
    cases hr
    exact none
  | stop => cases hr
  | again _ _ _ ih => exact ih hr

theorem Analyzes.idle {r : Progress} (h : Analyzes p s r) (hr : r = .going t) :
    t.work.pop? = none := by
  induction h with
  | done none =>
    cases hr
    exact none
  | stop => cases hr
  | again _ _ _ ih => exact ih hr

/-- What processing a pending method keeps, settling keeps if it meets no fault. -/
theorem Settles.keep {r : Progress} (inv : State → Prop)
    (step : ∀ {s name rest t}, inv s → s.pending = name :: rest →
      State.processMethod { s with pending := rest } p name = .going t → inv t)
    (h : Settles p s r) (hs : inv s) (hr : r = .going t) : inv t := by
  induction h with
  | done => cases hr; exact hs
  | stop => cases hr
  | again next goes _ ih => exact ih (step hs next goes) hr

/-- What a delivery keeps, the whole loop keeps if it meets no fault. -/
theorem Analyzes.keep {r : Progress} (inv : State → Prop)
    (step : ∀ {s d work t}, inv s → s.work.pop? = some (d, work) →
      Delivers p { s with work } d (.going t) → inv t)
    (h : Analyzes p s r) (hs : inv s) (hr : r = .going t) : inv t := by
  induction h with
  | done => cases hr; exact hs
  | stop => cases hr
  | again next delivers _ ih => exact ih (step hs next delivers) hr

/-- Whatever the loops do is a run from the state in which the entry method has been put down. -/
theorem moves_explore (p : Program) {entry : MethodName} (h : (s.opened entry).Orderly) :
    ReflTransGen (Move p) (s.opened entry) (s.explore p entry).state := by
  have first := moves_settle p h
  unfold State.explore
  cases hs : (s.opened entry).settle p with
  | stopped t fault =>
    rw [hs] at first
    exact first
  | going t =>
    rw [hs] at first
    exact first.trans (moves_analyzeWithin (t.analyzeLimit p)
      (moves_keep (fun _ _ => Move.orderly) first h))

end Settle

end PointsTo.Solver
