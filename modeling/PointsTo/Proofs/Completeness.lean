import PointsTo.Proofs.Arrival
import PointsTo.Proofs.Obligations
import PointsTo.Proofs.Termination

/-!
The analysis finds everything that the constraints ask for. At the head of either loop the
statements of all methods that are not pending are handled, and the uses of a variable are served
for every object in its set, provided that no object was delivered to the variable before its
method had been processed. When no method is pending and the work list is empty, nothing is left to
do, so that what was found solves the constraints.
-/
namespace PointsTo.Solver

open Relation (ReflTransGen)

/-- What holds at the head of a loop of a run that has met no fault. -/
structure Coherent (p : Program) (s : State) : Prop where
  faithful : Faithful p s
  bound : AllBound p s
  handled : ∀ name ∈ s.calls.reachable.items, name ∉ s.pending → ∀ m, p.method? name = some m →
    ∀ x ∈ m.placed, Handled p s m x.1 x.2

/-- The objects of the variable are served by its uses, and as long as its method is still to be
processed there are none. -/
structure Attended (p : Program) (s : State) (v : Variable) : Prop where
  resident : Resident p s v
  dry : Dry p s v
  served : ∀ o ∈ (s.pointsTo (.var v)).items, Served p s (s.usesOf v) o (s.heap.typeOf o)

section Attended

variable {p : Program} {s t : State} {v : Variable}

theorem typeOf_eq (h : s.Extends t) {o : ObjectId} (ho : o < s.heap.size) :
    t.heap.typeOf o = s.heap.typeOf o := by
  have hsome : s.heap.allocation? o = some s.heap.items[o] := List.getElem?_eq_getElem ho
  rw [typeOf_of_allocation hsome, typeOf_of_allocation (h.allocation? hsome)]

/-- What has been served for an object of a set stays served as long as the uses stay. -/
theorem Served.keep (rooted : Rooted s) (hle : s.Extends t) {o : ObjectId}
    (ho : o ∈ (s.pointsTo (.var v)).items) (huses : t.usesOf v = s.usesOf v)
    (h : Served p s (s.usesOf v) o (s.heap.typeOf o)) :
    Served p t (t.usesOf v) o (t.heap.typeOf o) := by
  have hlt := (rooted.arrives _ o (.inl ho)).2
  rw [huses, typeOf_eq hle hlt]
  exact h.mono hle

/-- A variable stays attended if it gets no object, and no use while it has objects. -/
theorem Attended.keep (hp : p.Proper) (h : Attended p s v) (rooted : Rooted s) (acted : Acted s t)
    (same : (s.pointsTo (.var v)).items ≠ [] → t.usesOf v = s.usesOf v) : Attended p t v := by
  refine ⟨h.resident.keep acted, h.dry.keep hp h.resident acted, fun o ho => ?_⟩
  rw [acted.objects] at ho
  exact (h.served o ho).keep rooted acted.ext ho (same (List.ne_nil_of_mem ho))

theorem Attended.settle {name : MethodName} {rest : List MethodName} (h : Attended p s v)
    (next : s.pending = name :: rest) : Attended p { s with pending := rest } v := by
  have move : Move p s { s with pending := rest } := .settle next
  refine ⟨h.resident, fun name' hname m hm hv => ?_, fun o ho => (h.served o ho).mono move.extends⟩
  exact h.dry name' (next ▸ List.mem_cons_of_mem _ hname) m hm hv

end Attended

/-! ### Settling -/

/-- A state on the way through the statements of a method that was pending. -/
structure Midway (p : Program) (s : State) (name : MethodName) (rest : List MethodName)
    (t : State) : Prop where
  faithful : Faithful p t
  acted : Acted { s with pending := rest } t
  bound : AllBound p t
  attended : ∀ v, Attended p s v → Attended p t v

section Settle

variable {p : Program} {s t u : State} {name : MethodName} {rest : List MethodName} {m : Method}

theorem Coherent.midway (h : Coherent p s) (next : s.pending = name :: rest) :
    Midway p s name rest { s with pending := rest } := by
  have move : Move p s { s with pending := rest } := .settle next
  exact ⟨move.faithful h.faithful, .refl _, h.bound.of_callEdges move.extends rfl,
    fun v hv => hv.settle next⟩

theorem Midway.extends (hmid : Midway p s name rest t) (next : s.pending = name :: rest) :
    s.Extends t :=
  (Move.extends (p := p) (.settle next)).trans hmid.acted.ext

/-- The statements of a method register uses of variables that are still empty, so that whatever has
been served stays served. -/
theorem Midway.process (hp : p.Proper) (hmid : Midway p s name rest t) (ho : s.Orderly)
    (next : s.pending = name :: rest) (hm : p.method? name = some m) {place : Place}
    {i : Instruction} (hmem : (place, i) ∈ m.placed) (goes : t.process p m place i = .going u) :
    Midway p s name rest u ∧ Handled p u m place i := by
  have hreach : name ∈ t.calls.reachable.items :=
    (hmid.extends next).reachable _ (ho.reached name (by simp [next]))
  have allowed : Trigger.Allowed p t (.statement m place i) := ⟨name, hreach, hm, hmem⟩
  have act := (acts_process t m place i).of_going goes
  obtain ⟨hbound, hhandled⟩ := handled_process hp hmid.bound m place i goes
  refine ⟨⟨moves_faithful (act.moves allowed) hmid.faithful, hmid.acted.trans act.acted, hbound,
    fun v hv => ?_⟩, hhandled⟩
  refine (hmid.attended v hv).keep hp hmid.faithful.rooted act.acted fun hne => ?_
  cases hbase : base? i with
  | none => exact act.usesOf_eq hbase v
  | some b =>
    obtain rfl := eq_addUse_of_process hbase goes
    have hb : b ≠ v := by
      -- the base belongs to the method that was pending, so that no object has reached it
      rintro rfl
      rw [hmid.acted.objects] at hne
      exact hne (hv.dry name (by simp [next]) m hm
        (hp.owned_of_placed hm hmem (base?_mem_vars hbase)))
    rw [State.usesOf_addUse, if_neg hb]

/-- When the statements of the method are handled, nothing of what is not pending is undone. -/
theorem Midway.coherent (hmid : Midway p s name rest t) (h : Coherent p s)
    (next : s.pending = name :: rest) (handled : ∀ m, p.method? name = some m →
      ∀ x ∈ m.placed, Handled p t m x.1 x.2) : Coherent p t := by
  refine ⟨hmid.faithful, hmid.bound, fun name' hreach hnot m hm x hx => ?_⟩
  obtain ⟨hreach, hnot⟩ := hmid.acted.reached_before hreach hnot
  by_cases hname : name' = name
  · subst hname
    exact handled m hm x hx
  · have hpending : name' ∉ s.pending := by
      rw [next, List.mem_cons, not_or]
      exact ⟨hname, hnot⟩
    exact (h.handled name' hreach hpending m hm x hx).mono (hmid.extends next)

/-- **Processing a pending method leaves nothing of it undone**, and attends to every variable that
was attended to. -/
theorem Coherent.processMethod (hp : p.Proper) (h : Coherent p s) (next : s.pending = name :: rest)
    (goes : State.processMethod { s with pending := rest } p name = .going t) :
    Coherent p t ∧ ∀ v, Attended p s v → Attended p t v := by
  have hmid := h.midway next
  unfold State.processMethod at goes
  split at goes
  · next hnone =>
    cases goes
    refine ⟨hmid.coherent h next fun m hm => ?_, hmid.attended⟩
    rw [hnone] at hm
    cases hm
  · next m hm =>
    obtain ⟨hend, hpost⟩ := forEach_post (Midway p s name rest)
      (fun x u => Handled p u m x.1 x.2)
      (fun x hx u w hu hw => hu.process hp h.faithful.orderly next hm hx hw)
      (fun x hx y u w hu hw hy => hy.mono ((acts_process u m x.1 x.2).of_going hw).extends)
      hmid goes
    refine ⟨hend.coherent h next fun m' hm' => ?_, hend.attended⟩
    rw [hm] at hm'
    obtain rfl := Option.some.inj hm'
    exact hpost

/-- Settling leaves nothing undone, and no method pending. -/
theorem Coherent.settles (hp : p.Proper) (h : Coherent p s) {r : Progress} (hs : Settles p s r)
    (goes : r = .going t) :
    Coherent p t ∧ t.pending = [] ∧ ∀ v, Attended p s v → Attended p t v := by
  obtain ⟨hcoherent, hattended⟩ := hs.keep
    (fun u => Coherent p u ∧ ∀ v, Attended p s v → Attended p u v)
    (fun hu next goes => by
      obtain ⟨hcoherent, hattended⟩ := hu.1.processMethod hp next goes
      exact ⟨hcoherent, fun v hv => hattended v (hu.2 v hv)⟩) ⟨h, fun _ => id⟩ goes
  exact ⟨hcoherent, hs.pending_eq_nil goes, hattended⟩

end Settle

/-! ### Deliveries -/

/-- If the delivery brings objects to the variable, the method of the variable has been
processed. -/
def InTime (p : Program) (s : State) (d : Delivery) (v : Variable) : Prop :=
  d.pointer = .var v → d.objects.items ≠ [] → ∀ m ∈ p.methods, v.method = m.signature →
    m.id ∈ s.calls.reachable.items ∧ m.id ∉ s.pending

section Deliver

variable {p : Program} {s t u : State} {d : Delivery} {work : Queue Delivery} {v : Variable}

/-- A state on the way through the new objects of a variable, in a run that has met no fault. -/
structure Serving (p : Program) (s : State) (d : Delivery) (work : Queue Delivery) (v : Variable)
    (t : State) : Prop where
  accepting : Accepting p s v (s.fresh d.pointer d.objects) t
  acted : Acted (s.take d work) t
  bound : AllBound p t

theorem Coherent.bound_take (h : Coherent p s) (next : s.work.pop? = some (d, work)) :
    AllBound p (s.take d work) :=
  h.bound.of_callEdges (take_extends next) (congrArg CallGraph.edges (take_frame s d work).2.1)

theorem Serving.discover (hp : p.Proper) (hs : Serving p s d work v t) (h : Coherent p s)
    (next : s.work.pop? = some (d, work)) {o : ObjectId}
    (ho : o ∈ (s.fresh d.pointer d.objects).items) (goes : t.discover p v o = .going u) :
    Serving p s d work v u ∧ Served p u (s.usesOf v) o (s.heap.typeOf o) := by
  have act := (acts_discover t v o).of_going goes
  have haccepting := hs.accepting.discover ho
  rw [goes] at haccepting
  have huses := (moves_faithful hs.accepting.run h.faithful).uses
  have linked : ∀ site ∈ (t.usesOf v).calls, ¬ site.call.kind.isLinked = true :=
    fun site hsite => (base?_call.1 (huses.calls v site hsite)).1
  obtain ⟨hbound, hserved⟩ := served_discover hp hs.bound linked goes
  refine ⟨⟨haccepting, hs.acted.trans act.acted, hbound⟩, ?_⟩
  have hlt := (h.faithful.rooted.arrives _ o (arrives_of_fresh next ho)).2
  rwa [hs.accepting.uses v, typeOf_eq (moves_extend hs.accepting.run) hlt] at hserved

/-- What a delivery brings to a variable in time is served once the new objects are. -/
theorem Attended.deliver (hp : p.Proper) (h : Attended p s v) (rooted : Rooted s)
    (inTime : InTime p s d v) (next : s.work.pop? = some (d, work))
    (acted : Acted (s.take d work) t) (same : t.usesOf v = s.usesOf v)
    (served : d.pointer = .var v → ∀ o ∈ (s.fresh d.pointer d.objects).items,
      Served p t (s.usesOf v) o (s.heap.typeOf o)) : Attended p t v := by
  have hle := (take_extends next).trans acted.ext
  obtain ⟨-, hcalls, -, hpending, -⟩ := take_frame s d work
  have resident : Resident p (s.take d work) v := by
    intro o ho m hm hv
    rw [hcalls]
    rcases mem_pointsTo_take.1 ho with ho | ⟨hd, hgiven⟩
    · exact h.resident o ho m hm hv
    · exact (inTime hd.symm (List.ne_nil_of_mem hgiven) m hm hv).1
  have dry : Dry p (s.take d work) v := by
    intro name hname m hm hv
    rw [hpending] at hname
    rw [List.eq_nil_iff_forall_not_mem]
    intro o ho
    rcases mem_pointsTo_take.1 ho with ho | ⟨hd, hgiven⟩
    · rw [h.dry name hname m hm hv] at ho
      cases ho
    · have hnot := (inTime hd.symm (List.ne_nil_of_mem hgiven) m
        (Program.mem_methods_of_method? hm) hv).2
      rw [hp.id_of_method? hm] at hnot
      exact hnot hname
  refine ⟨resident.keep acted, dry.keep hp resident acted, fun o ho => ?_⟩
  rw [acted.objects] at ho
  by_cases hold : o ∈ (s.pointsTo (.var v)).items
  · exact (h.served o hold).keep rooted hle hold same
  · obtain ⟨hd, hgiven⟩ := (mem_pointsTo_take.1 ho).resolve_left hold
    have hfresh : o ∈ (s.fresh d.pointer d.objects).items := State.mem_fresh.2 ⟨hgiven, hd ▸ hold⟩
    have hlt := (rooted.arrives _ o (arrives_of_fresh next hfresh)).2
    rw [same, typeOf_eq hle hlt]
    exact served hd.symm o hfresh

/-- A delivery undoes nothing of what has been handled. -/
theorem Coherent.resume (h : Coherent p s) (next : s.work.pop? = some (d, work))
    (faithful : Faithful p t) (acted : Acted (s.take d work) t) (bound : AllBound p t) :
    Coherent p t := by
  refine ⟨faithful, bound, fun name hreach hnot m hm x hx => ?_⟩
  obtain ⟨hcalls, -, hpending, -⟩ := (take_frame s d work).2
  obtain ⟨hbefore, hnot⟩ := acted.reached_before hreach hnot
  rw [hcalls] at hbefore
  rw [hpending] at hnot
  exact (h.handled name hbefore hnot m hm x hx).mono ((take_extends next).trans acted.ext)

/-- **A delivery serves its new objects, and what was there before stays as it was.** -/
theorem Coherent.accept (hp : p.Proper) (h : Coherent p s) (next : s.work.pop? = some (d, work))
    (goes : State.accept { s with work } p d = .going t) :
    Coherent p t ∧ ∀ v, Attended p s v → InTime p s d v → Attended p t v := by
  have move : Move p s (s.take d work) := .take next
  rw [accept_eq] at goes
  split at goes
  · next v hv =>
    obtain ⟨hend, hpost⟩ := forEach_post (Serving p s d work v)
      (fun o u => Served p u (s.usesOf v) o (s.heap.typeOf o))
      (fun o ho u w hu hw => hu.discover hp h next ho hw)
      (fun o ho o' u w hu hw ho' => ho'.mono ((acts_discover u v o).of_going hw).extends)
      ⟨.take next hv, .refl _, h.bound_take next⟩ goes
    refine ⟨h.resume next (moves_faithful hend.accepting.run h.faithful) hend.acted hend.bound,
      fun w hw inTime => ?_⟩
    refine hw.deliver hp h.faithful.rooted inTime next hend.acted (hend.accepting.uses w)
      fun hd => ?_
    rw [hv] at hd
    cases hd
    exact hpost
  · next hnot =>
    cases goes
    refine ⟨h.resume next (move.faithful h.faithful) (.refl _) (h.bound_take next),
      fun w hw inTime => ?_⟩
    exact hw.deliver hp h.faithful.rooted inTime next (.refl _)
      (State.usesOf_congr (take_frame s d work).2.2.1 w) fun hd => absurd hd (hnot w)

/-- What holds whenever the loop takes a delivery, but for the first. -/
structure Steady (p : Program) (vars : Set Variable) (s : State) : Prop where
  coherent : Coherent p s
  settled : s.pending = []
  attended : ∀ v ∈ vars, Attended p s v
  known : ∀ v ∈ vars, Known p s v

/-- A delivery and the settling behind it leave nothing undone and no method pending. They attend to
the variables that were attended to, provided that the delivery is in time for these and that
objects are on their way to them only where their methods have been reached. -/
theorem Coherent.delivers (hp : p.Proper) {vars : Set Variable} (h : Coherent p s)
    (attended : ∀ v ∈ vars, Attended p s v) (known : ∀ v ∈ vars, Known p s v)
    (inTime : ∀ v ∈ vars, InTime p s d v) (next : s.work.pop? = some (d, work))
    (delivers : Delivers p { s with work } d (.going t)) : Steady p vars t := by
  have run := delivers.moves h.faithful.orderly next
  cases delivers with
  | settle goes settles =>
    obtain ⟨haccepted, hattended⟩ := h.accept hp next goes
    obtain ⟨hcoherent, hsettled, hkept⟩ := haccepted.settles hp settles rfl
    exact ⟨hcoherent, hsettled, fun v hv => hkept v (hattended v (attended v hv) (inTime v hv)),
      fun v hv => moves_known hp run h.faithful (known v hv)⟩

theorem Steady.inTime {vars : Set Variable} (h : Steady p vars s) (hv : v ∈ vars)
    (next : s.work.pop? = some (d, work)) : InTime p s d v := by
  intro hd hne m hm hmethod
  obtain ⟨o, ho⟩ := List.exists_mem_of_ne_nil _ hne
  refine ⟨(h.known v hv).arrives o (arrives_of_next next hd ho) m hm hmethod, ?_⟩
  rw [h.settled]
  exact List.not_mem_nil

theorem Steady.delivers (hp : p.Proper) {vars : Set Variable} (h : Steady p vars s)
    (next : s.work.pop? = some (d, work))
    (delivers : Delivers p { s with work } d (.going t)) : Steady p vars t :=
  h.coherent.delivers hp h.attended h.known (fun _ hv => h.inTime hv next) next delivers

end Deliver

/-! ### What is asked for -/

section Asked

variable {p : Program} {s t : State} {v : Variable}

/-- What is asked for from outside undoes nothing. -/
theorem Coherent.asked (h : Coherent p s) (asked : Asked s t) (rooted : Rooted t) :
    Coherent p t := by
  refine ⟨h.faithful.asked asked rooted, h.bound.of_callEdges asked.ext asked.callEdges,
    fun name hreach hnot m hm x hx => ?_⟩
  obtain ⟨hreach, hnot⟩ := asked.toActed.reached_before hreach hnot
  exact (h.handled name hreach hnot m hm x hx).mono asked.ext

theorem Attended.asked (hp : p.Proper) (h : Attended p s v) (rooted : Rooted s)
    (asked : Asked s t) : Attended p t v :=
  h.keep hp rooted asked.toActed fun _ => State.usesOf_congr asked.uses v

theorem State.Fresh.coherent (h : s.Fresh) (p : Program) : Coherent p s := by
  refine ⟨h.faithful, fun site callee _ hedge => ?_, fun name hreach => ?_⟩
  · rw [h.calls] at hedge
    cases hedge
  · rw [h.calls] at hreach
    cases hreach

theorem State.Fresh.attended (h : s.Fresh) (p : Program) (v : Variable) : Attended p s v := by
  have empty : ∀ o ∈ (s.pointsTo (.var v)).items, False := fun o ho =>
    h.not_arrives _ o (.inl ho)
  refine ⟨fun o ho => (empty o ho).elim, fun name hname => ?_, fun o ho => (empty o ho).elim⟩
  rw [h.pending] at hname
  cases hname

end Asked

end PointsTo.Solver
