import PointsTo.Proofs.Growth

/-!
A run of the analysis as a sequence of moves: a step of an allowed trigger, the choice of a pending
method, or a delivery. Every state of a run, also the one that a fault leaves behind, is reached by
moves from the state in which the entry method has been put down.
-/
namespace PointsTo.Solver

open Relation (ReflTransGen)

/-- The trigger holds in the state: the statement belongs to a reachable method, or the object is in
the set of the variable whose uses serve it. -/
def Trigger.Allowed (p : Program) (s : State) : Trigger → Prop
  | .statement m place i => ∃ name ∈ s.calls.reachable.items, p.method? name = some m ∧
      (place, i) ∈ m.placed
  | .object uses o type => uses = s.usesOf uses.base ∧
      o ∈ (s.pointsTo (.var uses.base)).items ∧ type = s.heap.typeOf o

/-- The state after the next delivery, before its new objects are served. -/
def State.take (s : State) (d : Delivery) (work : Queue Delivery) : State :=
  (({ s with work, iterations := s.iterations + 1 } : State).propagate d.pointer d.objects).2

/-- What can happen next in a run. -/
inductive Move (p : Program) : State → State → Prop
  | act {c s t} (allowed : c.Allowed p s) (step : Step p c s t) : Move p s t
  | settle {s name rest} (next : s.pending = name :: rest) : Move p s { s with pending := rest }
  | take {s d work} (next : s.work.pop? = some (d, work)) : Move p s (s.take d work)

section Allowed

variable {p : Program} {c : Trigger} {s t : State} {n : Nat}

theorem Step.allowed (h : Step p c s t) (ha : c.Allowed p s) : c.Allowed p t := by
  cases c with
  | statement m place i =>
    obtain ⟨name, hname, hm, hmem⟩ := ha
    exact ⟨name, h.extends.reachable name hname, hm, hmem⟩
  | object uses o type =>
    obtain ⟨huses, ho, htype⟩ := ha
    obtain ⟨hheap, hsame⟩ := h.object_frame
    have hof := State.usesOf_congr hsame uses.base
    exact ⟨huses.trans hof.symm, h.extends.objects _ o ho, by rw [hheap]; exact htype⟩

/-- What an allowed trigger does is a sequence of moves. -/
theorem Acts.moves (h : Acts p c n s t) (ha : c.Allowed p s) : ReflTransGen (Move p) s t := by
  have key : ReflTransGen (Move p) s t ∧ c.Allowed p t := by
    obtain ⟨steps, -⟩ := h
    induction steps with
    | refl => exact ⟨.refl, ha⟩
    | tail _ step ih => exact ⟨ih.1.tail (.act ih.2 step), step.allowed ih.2⟩
  exact key.1

theorem Acts.extends (h : Acts p c n s t) : s.Extends t := h.acted.ext

end Allowed

/-! ### Deliveries -/

section Take

variable {s : State} {d : Delivery} {work : Queue Delivery} {q : Pointer} {o : ObjectId}

theorem take_frame (s : State) (d : Delivery) (work : Queue Delivery) :
    (s.take d work).heap = s.heap ∧ (s.take d work).calls = s.calls ∧
      (s.take d work).uses = s.uses ∧ (s.take d work).pending = s.pending ∧
      (s.take d work).graph.edges = s.graph.edges :=
  State.propagate_frame _ _ _

theorem mem_pointsTo_take :
    o ∈ ((s.take d work).pointsTo q).items ↔
      o ∈ (s.pointsTo q).items ∨ (q = d.pointer ∧ o ∈ d.objects.items) :=
  State.mem_pointsTo_propagate

/-- The state without its next delivery. -/
def State.popped (s : State) (work : Queue Delivery) : State :=
  { s with work, iterations := s.iterations + 1 }

theorem arrives_popped (next : s.work.pop? = some (d, work)) :
    (s.popped work).Arrives q o ∨ (q = d.pointer ∧ o ∈ d.objects.items) ↔ s.Arrives q o := by
  unfold State.Arrives
  rw [Queue.toList_of_pop? next]
  constructor
  · rintro ((ho | ⟨e, he, rfl, ho⟩) | ⟨rfl, ho⟩)
    · exact .inl ho
    · exact .inr ⟨e, List.mem_cons_of_mem _ he, rfl, ho⟩
    · exact .inr ⟨d, List.mem_cons_self, rfl, ho⟩
  · rintro (ho | ⟨e, he, rfl, ho⟩)
    · exact .inl (.inl ho)
    · rcases List.mem_cons.1 he with rfl | he
      · exact .inr ⟨rfl, ho⟩
      · exact .inl (.inr ⟨e, he, rfl, ho⟩)

/-- A delivery takes its objects off the work list and puts the new ones on their way. -/
theorem arrives_take (next : s.work.pop? = some (d, work)) :
    (s.take d work).Arrives q o ↔
      s.Arrives q o ∨ ((d.pointer, q) ∈ s.graph.edges.items ∧
        o ∈ (s.fresh d.pointer d.objects).items) := by
  rw [← arrives_popped next, or_assoc]
  exact State.arrives_propagate (s := s.popped work)

theorem arrives_of_next (next : s.work.pop? = some (d, work)) (hq : d.pointer = q)
    (ho : o ∈ d.objects.items) : s.Arrives q o := by
  refine .inr ⟨d, ?_, hq, ho⟩
  rw [Queue.toList_of_pop? next]
  exact List.mem_cons_self

theorem arrives_of_idle (idle : s.work.pop? = none) (h : s.Arrives q o) :
    o ∈ (s.pointsTo q).items := by
  rcases h with h | ⟨d, hd, -⟩
  · exact h
  · rw [Queue.pop?_eq_none_iff.1 idle] at hd
    cases hd

theorem arrives_of_fresh (next : s.work.pop? = some (d, work))
    (ho : o ∈ (s.fresh d.pointer d.objects).items) : s.Arrives d.pointer o :=
  arrives_of_next next rfl (State.mem_fresh.1 ho).1

theorem take_extends (next : s.work.pop? = some (d, work)) : s.Extends (s.take d work) := by
  obtain ⟨hheap, hcalls, huses, -, hedges⟩ := take_frame s d work
  refine ⟨hheap ▸ List.prefix_rfl, fun q o ho => mem_pointsTo_take.2 (.inl ho),
    fun q o ho => (arrives_take next).2 (.inl ho), ?_, ?_, ?_, ?_⟩
  · rw [hedges]; exact fun _ => id
  · rw [hcalls]; exact fun _ => id
  · rw [hcalls]; exact fun _ => id
  · intro v
    rw [State.usesOf_congr huses]
    exact Uses.within_rfl _

end Take

section Run

variable {p : Program} {s t : State}

theorem Move.extends (h : Move p s t) : s.Extends t := by
  cases h with
  | act _ step => exact step.extends
  | settle =>
    exact ⟨List.prefix_rfl, fun _ _ => id, fun _ _ => id, fun _ => id, fun _ => id, fun _ => id,
      fun _ => Uses.within_rfl _⟩
  | take next => exact take_extends next

theorem moves_extend (h : ReflTransGen (Move p) s t) : s.Extends t := by
  induction h with
  | refl => exact .refl s
  | tail _ move ih => exact ih.trans move.extends

/-- What every move keeps, every run keeps. -/
theorem moves_keep {inv : State → Prop} (step : ∀ s t, inv s → Move p s t → inv t)
    (h : ReflTransGen (Move p) s t) (hs : inv s) : inv t := by
  induction h with
  | refl => exact hs
  | tail _ move ih => exact step _ _ ih move

/-- Pending methods are reachable, and each is put down once. -/
structure State.Orderly (s : State) : Prop where
  nodup : s.pending.Nodup
  reached : ∀ m ∈ s.pending, m ∈ s.calls.reachable.items

theorem Acted.orderly (h : s.Orderly) (acted : Acted s t) : t.Orderly := by
  obtain ⟨new, hp, hr, hnodup, hnew⟩ := acted.put_down
  constructor
  · rw [hp, List.nodup_append]
    refine ⟨h.nodup, hnodup, ?_⟩
    rintro m hm _ hm' rfl
    exact hnew m hm' (h.reached m hm)
  · intro m hm
    rw [hp] at hm
    rw [hr]
    rcases List.mem_append.1 hm with hm | hm
    · exact List.mem_append_left _ (h.reached m hm)
    · exact List.mem_append_right _ hm

theorem Move.orderly (h : s.Orderly) (move : Move p s t) : t.Orderly := by
  cases move with
  | act _ step => exact step.acted.orderly h
  | settle next =>
    have hnodup := h.nodup
    have hreached := h.reached
    rw [next] at hnodup hreached
    exact ⟨(List.nodup_cons.1 hnodup).2, fun m hm => hreached m (List.mem_cons_of_mem _ hm)⟩
  | @take _ d work next =>
    obtain ⟨-, hcalls, -, hpending, -⟩ := take_frame s d work
    constructor
    · rw [hpending]; exact h.nodup
    · rw [hpending, hcalls]; exact h.reached

/-! ### The loops -/

theorem moves_processMethod {name : MethodName} (h : name ∈ s.calls.reachable.items) :
    ReflTransGen (Move p) s (s.processMethod p name).state := by
  unfold State.processMethod
  split
  · exact .refl
  · next m hm =>
    refine (forEach_keeps (fun t => ReflTransGen (Move p) s t ∧
      name ∈ t.calls.reachable.items) ?_ ⟨.refl, h⟩).1
    rintro ⟨place, i⟩ hmem t ⟨run, hname⟩
    have act := acts_process (p := p) t m place i
    exact ⟨run.trans (act.moves ⟨name, hname, hm, hmem⟩), act.extends.reachable name hname⟩

theorem moves_settleWithin (limit : Nat) (h : s.Orderly) :
    ReflTransGen (Move p) s (State.settleWithin p limit s).state := by
  induction limit generalizing s with
  | zero => exact .refl
  | succ limit ih =>
    unfold State.settleWithin
    split
    · exact .refl
    · next name rest hpending =>
      have first : Move p s { s with pending := rest } := .settle hpending
      have hname : name ∈ s.calls.reachable.items := h.reached name (by simp [hpending])
      have body := moves_processMethod (p := p) (s := { s with pending := rest }) hname
      have run := (ReflTransGen.single first).trans body
      cases hp : State.processMethod { s with pending := rest } p name with
      | going t =>
        rw [hp] at run
        exact run.trans (ih (moves_keep (fun _ _ => Move.orderly) run h))
      | stopped t fault =>
        rw [hp] at run
        exact run

theorem moves_settle (p : Program) (h : s.Orderly) : ReflTransGen (Move p) s (s.settle p).state :=
  moves_settleWithin (s.settleLimit p) h

/-- The new objects of a delivery are served by the uses of its variable. -/
theorem accept_eq (s : State) (d : Delivery) (work : Queue Delivery) :
    ({ s with work } : State).accept p d =
      match d.pointer with
      | .var v => forEach (fun o t => t.discover p v o) (s.fresh d.pointer d.objects).items
          (s.take d work)
      | _ => .going (s.take d work) := by
  have hfresh : (({ s with work, iterations := s.iterations + 1 } : State).propagate d.pointer
      d.objects).1 = s.fresh d.pointer d.objects := by
    rw [State.propagate_eq]
    rfl
  unfold State.accept
  dsimp only
  rw [hfresh]
  rfl

/-- A state on the way through the new objects of a variable: they are in its set, and the uses are
those that the delivery began with. -/
structure Accepting (p : Program) (s : State) (v : Variable) (objects : ObjectSet) (t : State) :
    Prop where
  run : ReflTransGen (Move p) s t
  objects : ∀ o ∈ objects.items, o ∈ (t.pointsTo (.var v)).items
  uses : ∀ w, t.usesOf w = s.usesOf w

theorem Accepting.take {d : Delivery} {work : Queue Delivery} {v : Variable}
    (next : s.work.pop? = some (d, work)) (hv : d.pointer = .var v) :
    Accepting p s v (s.fresh d.pointer d.objects) (s.take d work) := by
  refine ⟨.single (.take next), fun o ho => ?_, State.usesOf_congr (take_frame s d work).2.2.1⟩
  exact mem_pointsTo_take.2 (.inr ⟨hv.symm, (State.mem_fresh.1 ho).1⟩)

theorem Accepting.allowed {v : Variable} {objects : ObjectSet} (h : Accepting p s v objects t)
    {o : ObjectId} (ho : o ∈ objects.items) :
    Trigger.Allowed p t (.object (t.usesOf v) o (t.heap.typeOf o)) := by
  refine ⟨?_, ?_, rfl⟩
  · rw [State.base_usesOf]
  · rw [State.base_usesOf]
    exact h.objects o ho

theorem Accepting.discover {v : Variable} {objects : ObjectSet} (h : Accepting p s v objects t)
    {o : ObjectId} (ho : o ∈ objects.items) :
    Accepting p s v objects (t.discover p v o).state := by
  have act := acts_discover (p := p) t v o
  exact ⟨h.run.trans (act.moves (h.allowed ho)),
    fun x hx => act.extends.objects _ x (h.objects x hx),
    fun w => (State.usesOf_congr act.object_frame.2 w).trans (h.uses w)⟩

theorem moves_accept {d : Delivery} {work : Queue Delivery} (next : s.work.pop? = some (d, work)) :
    ReflTransGen (Move p) s (({ s with work } : State).accept p d).state := by
  rw [accept_eq]
  split
  · next v hv =>
    exact (forEach_keeps (Accepting p s v (s.fresh d.pointer d.objects))
      (fun o ho t ht => ht.discover ho) (.take next hv)).run
  · exact .single (.take next)

theorem moves_deliver {d : Delivery} {work : Queue Delivery} (h : s.Orderly)
    (next : s.work.pop? = some (d, work)) :
    ReflTransGen (Move p) s (({ s with work } : State).deliver p d).state := by
  have met := moves_accept (p := p) next
  unfold State.deliver
  cases hm : State.accept { s with work } p d with
  | stopped t fault =>
    rw [hm] at met
    exact met
  | going t =>
    rw [hm] at met
    exact met.trans (moves_settle p (moves_keep (fun _ _ => Move.orderly) met h))

theorem moves_analyzeWithin (limit : Nat) (h : s.Orderly) :
    ReflTransGen (Move p) s (State.analyzeWithin p limit s).state := by
  induction limit generalizing s with
  | zero => exact .refl
  | succ limit ih =>
    unfold State.analyzeWithin
    split
    · exact .refl
    · next d work next =>
      have first := moves_deliver (p := p) h next
      cases hd : State.deliver { s with work } p d with
      | stopped t fault =>
        rw [hd] at first
        exact first
      | going t =>
        rw [hd] at first
        exact first.trans (ih (moves_keep (fun _ _ => Move.orderly) first h))

end Run

end PointsTo.Solver
