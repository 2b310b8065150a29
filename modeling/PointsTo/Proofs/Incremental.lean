import PointsTo.Proofs.Solution

/-!
An analysis that is asked for more between its loops. Methods that are put down when nothing is on
its way stay pending, since the loop takes no delivery then. All other methods that have been
reached are processed, and their statements are met. A statement that works through a variable is
met if nothing was delivered to the variable before its method had been processed: its uses serve
what is delivered to the variable later, but not what is there.
-/
namespace PointsTo.Solver

namespace Operation

/-- Whatever the request brings to a pointer passes the work list. -/
def isQueued : Operation → Bool
  | propagate .. | processCalls .. | solve => false
  | _ => true

/-- When deliveries are taken, the method of a variable that objects or edges lead to has been
reached, and if the next delivery brings objects to the variable, its method has been processed. -/
def Prompt (p : Program) (v : Variable) (s : State) : Operation → Prop
  | analyze => Known p s v ∧ ∀ d work, s.work.pop? = some (d, work) → InTime p s d v
  | _ => True

end Operation

/-- What holds between requests that have met no fault. -/
structure Paused (p : Program) (vars : Set Variable) (s : State) : Prop where
  ready : Ready p s
  coherent : Coherent p s
  attended : ∀ v ∈ vars, Attended p s v

section Paused

variable {p : Program} {entry : Option Method} {vars : Set Variable} {s t : State}

theorem State.Fresh.paused (h : s.Fresh) (p : Program) (vars : Set Variable) : Paused p vars s :=
  ⟨h.ready p, h.coherent p, fun v _ => h.attended p v⟩

theorem Paused.asked (hp : p.Proper) (h : Paused p vars s) (asked : Asked s t)
    (rooted : Rooted t) : Paused p vars t :=
  ⟨h.ready.asked asked rooted, h.coherent.asked asked rooted,
    fun v hv => (h.attended v hv).asked hp h.ready.rooted asked⟩

theorem Paused.settle (hp : p.Proper) (h : Paused p vars s) (goes : s.settle p = .going t) :
    Paused p vars t := by
  have settles : Settles p s (.going t) := goes ▸ settles_settle p s
  obtain ⟨hcoherent, -, hattended⟩ := h.coherent.settles hp settles rfl
  exact ⟨(h.ready.settles settles).1, hcoherent, fun v hv => hattended v (h.attended v hv)⟩

theorem Paused.start (hp : p.Proper) (h : Paused p vars s) (goes : s.start p entry = .going t) :
    Paused p vars t := by
  cases entry with
  | none => cases goes
  | some m =>
    by_cases hasBody : m.body.isSome
    · rw [start_eq_settle hasBody] at goes
      exact (h.asked hp (.opened s m.id) (h.ready.rooted.opened m.id)).settle hp goes
    · rw [start_of_bodyless hasBody] at goes
      cases goes

theorem Ready.delivers {d : Delivery} {work : Queue Delivery} (h : Ready p s)
    (next : s.work.pop? = some (d, work)) (delivers : Delivers p { s with work } d (.going t)) :
    Ready p t := by
  have haccepted := (h.accept next).1
  cases delivers with
  | settle goes settles =>
    rw [goes] at haccepted
    exact (haccepted.settles settles).1

/-- **The loop leaves methods pending only if it takes no delivery.** -/
theorem Paused.analyze (hp : p.Proper) (h : Paused p vars s)
    (prompt : ∀ v ∈ vars, Operation.Prompt p v s .analyze) (goes : s.analyze p = .going t) :
    Paused p vars t ∧ t.work.pop? = none ∧
      (t.pending = [] ↔ s.pending = [] ∨ s.work.toList ≠ []) := by
  have analyzes : Analyzes p s (.going t) := goes ▸ h.ready.analyzes
  refine and_left_comm.1 ⟨analyzes.idle rfl, ?_⟩
  cases analyzes with
  | done idle =>
    rw [Queue.pop?_eq_none_iff] at idle
    exact ⟨h, by simp [idle]⟩
  | @again _ d work u _ next delivers more =>
    -- the first delivery finds methods pending, and no other does
    have hsteady := h.coherent.delivers hp h.attended (fun v hv => (prompt v hv).1)
      (fun v hv => (prompt v hv).2 d work next) next delivers
    obtain ⟨hsteady, hready⟩ := more.keep (fun u => Steady p vars u ∧ Ready p u)
      (fun hu next delivers => ⟨hu.1.delivers hp next delivers, hu.2.delivers next delivers⟩)
      ⟨hsteady, h.ready.delivers next delivers⟩ rfl
    refine ⟨⟨hready, hsteady.coherent, hsteady.attended⟩, ?_⟩
    simp [hsteady.settled, Queue.toList_of_pop? next]

/-- **Requests undo nothing of what has been done for the methods that have been processed.** -/
theorem Operation.pauses (hp : p.Proper) (op : Operation) (queued : op.isQueued)
    (h : Paused p vars s) (onHeap : op.OnHeap s) (prompt : ∀ v ∈ vars, op.Prompt p v s)
    (goes : op.perform p entry s = .going t) : Paused p vars t := by
  have rooted := h.ready.rooted
  cases op with
  | node q =>
    cases goes
    exact h.asked hp (.touch s q) (rooted.touch q)
  | static f =>
    cases goes
    have agrees := State.agrees_touchStatic s f
    exact h.asked hp ((Asked.touch s _).trans (.of_agrees agrees))
      ((rooted.touch _).of_agrees agrees)
  | object a =>
    cases goes
    exact h.asked hp (.allocate s a) (rooted.allocate a)
  | start => exact h.start hp goes
  | reach m =>
    cases goes
    exact h.asked hp (.reach s m) (rooted.reach m)
  | connect source target =>
    cases goes
    exact h.asked hp (.flow s source target) (rooted.flow source target)
  | send q objects =>
    cases goes
    have node : q ∈ (s.touch q).graph.nodes.keys := State.mem_nodes_touch.2 (.inr rfl)
    exact h.asked hp ((Asked.touch s q).trans (.send _ q objects))
      ((rooted.touch q).send node onHeap)
  | analyze => exact (h.analyze hp prompt goes).1
  | propagate | processCalls | solve => cases queued

theorem Operation.forEach_pauses (hp : p.Proper) (ops : List Operation)
    (queued : ∀ op ∈ ops, op.isQueued) (h : Paused p vars s)
    (onHeap : Along p entry OnHeap ops s) (prompt : ∀ v ∈ vars, Along p entry (Prompt p v) ops s)
    (goes : forEach (perform p entry) ops s = .going t) : Paused p vars t := by
  induction ops generalizing s with
  | nil =>
    cases goes
    exact h
  | cons op ops ih =>
    obtain ⟨hheap, onHeap⟩ := onHeap
    obtain ⟨u, hop, goes⟩ := forEach_cons_eq_going.1 goes
    rw [hop] at onHeap
    have hu := op.pauses hp (queued op (by simp)) h hheap (fun v hv => (prompt v hv).1) hop
    refine ih (fun op hop => queued op (by simp [hop])) hu onHeap (fun v hv => ?_) goes
    have hrest := (prompt v hv).2
    rwa [hop] at hrest

end Paused

/-! ### Whole sessions -/

section Session

variable {p : Program} {entry : Option Method} {s t : State}

/-- **After requests in any order that meet no fault, with `analyze` at the end, methods are pending
only if nothing was on its way when `analyze` was asked for. The statements of all other methods
that have been reached are met, those that work through a variable on the condition that nothing was
delivered to the variable before its method had been processed. Then each use of the variable is
served for every object of the variable.** -/
theorem session_meets_constraints (h : Jimple.Parsed p) (entry : Option Method) (heap : Heap)
    (phantoms : PhantomFields) (log : Array Event) (ops : List Operation)
    (queued : ∀ op ∈ ops, op.isQueued)
    (onHeap : Operation.Along p entry Operation.OnHeap ops { heap, phantoms, log })
    (asked : forEach (Operation.perform p entry) ops { heap, phantoms, log } = .going s)
    (goes : s.analyze p = .going t) :
    (t.pending = [] ↔ s.pending = [] ∨ s.work.toList ≠ []) ∧
      (∀ name ∈ t.calls.reachable.items, name ∉ t.pending → ∀ m, p.method? name = some m →
        ∀ x ∈ m.placed,
          (∀ v, base? x.2 = some v → Operation.Along p entry (Operation.Prompt p v)
            (ops ++ [.analyze]) { heap, phantoms, log }) →
          Meets p (fun _ _ => True) t.facts m x.1 x.2) ∧
      ∀ v, Operation.Along p entry (Operation.Prompt p v) (ops ++ [.analyze])
          { heap, phantoms, log } →
        ∀ o ∈ (t.pointsTo (.var v)).items, Served p t (t.usesOf v) o (t.heap.typeOf o) := by
  have hp := h.proper
  let vars : Set Variable := {v | Operation.Along p entry (Operation.Prompt p v)
    (ops ++ [.analyze]) { heap, phantoms, log }}
  have prompt : ∀ v ∈ vars, Operation.Along p entry (Operation.Prompt p v) ops
      { heap, phantoms, log } ∧ Operation.Prompt p v s .analyze :=
    fun v hv => Operation.along_append hv asked
  have paused := Operation.forEach_pauses hp ops queued
    ((State.fresh_initial heap phantoms log).paused p vars) onHeap (fun v hv => (prompt v hv).1)
    asked
  obtain ⟨paused, idle, settled⟩ := paused.analyze hp (fun v hv => (prompt v hv).2) goes
  refine ⟨settled, fun name hname hnot m hm x hx hbase => ?_, fun v hv => ?_⟩
  · exact paused.coherent.meets idle (paused.coherent.handled name hname hnot m hm x hx)
      fun v hv => paused.attended v (hbase v hv)
  · exact (paused.attended v hv).served

/-- An object is on its way before the entry method is put down. -/
def headStart (m : MethodName) : List Operation :=
  [.object ⟨.detached 0, "A"⟩, .send (.element 0) (OrderedSet.ofList [0]), .reach m]

/-- A method that is put down comes in time for what is on its way to other pointers. -/
theorem prompt_reach (hp : p.Proper) {m : Method} (hm : m ∈ p.methods) {v : Variable}
    (hv : v.method = m.signature) (elsewhere : ∀ d ∈ s.work.toList, d.pointer ≠ .var v) :
    Operation.Prompt p v (s.reach m.id) .analyze := by
  have home : Home p (s.reach m.id) v := home_of_method hp (hp.method?_id hm)
    (State.mem_reachable_reach.2 (.inr rfl)) hv
  refine ⟨⟨fun _ _ => home, fun _ _ => home⟩, fun d work next hd => ?_⟩
  rw [(State.reach_frame s m.id).2.2.2.1] at next
  refine absurd hd (elsewhere d ?_)
  rw [Queue.toList_of_pop? next]
  exact List.mem_cons_self

theorem prompt_headStart (hp : p.Proper) {m : Method} (hm : m ∈ p.methods) {v : Variable}
    (hv : v.method = m.signature) :
    Operation.Along p none (Operation.Prompt p v) (headStart m.id ++ [.analyze]) {} := by
  refine ⟨trivial, trivial, trivial, ?_, trivial⟩
  refine prompt_reach (s := (((({} : State).allocate ⟨.detached 0, "A"⟩).2.touch
    (.element 0)).send (.element 0) (OrderedSet.ofList [0]))) hp hm hv fun d hd => ?_
  obtain rfl : d = ⟨.element 0, OrderedSet.ofList [0]⟩ := List.mem_singleton.1 hd
  exact nofun

theorem headStart_runs :
    (Jimple.knot.main?.any fun m =>
      ((forEach (Operation.perform Jimple.knot none) (headStart m.id) {}).andThen fun s =>
        s.analyze Jimple.knot).fault?.isNone) = true := by
  decide +kernel

theorem session_meets_constraints_headStart :
    ∃ m s t, Jimple.knot.main? = some m ∧ (∀ op ∈ headStart m.id, op.isQueued) ∧
      Operation.Along Jimple.knot none Operation.OnHeap (headStart m.id) {} ∧
      forEach (Operation.perform Jimple.knot none) (headStart m.id) {} = .going s ∧
      s.analyze Jimple.knot = .going t ∧
      (t.pending = [] ↔ s.pending = [] ∨ s.work.toList ≠ []) ∧
      (∀ name ∈ t.calls.reachable.items, name ∉ t.pending →
        ∀ m', Jimple.knot.method? name = some m' → ∀ x ∈ m'.placed,
          (∀ v, base? x.2 = some v → v.method = m.signature) →
          Meets Jimple.knot (fun _ _ => True) t.facts m' x.1 x.2) ∧
      ∀ v, v.method = m.signature → ∀ o ∈ (t.pointsTo (.var v)).items,
        Served Jimple.knot t (t.usesOf v) o (t.heap.typeOf o) := by
  obtain ⟨m, hm, hruns⟩ := (Option.any_eq_true _ _).1 headStart_runs
  have hmem : m ∈ Jimple.knot.methods := List.mem_of_find?_eq_some hm
  have queued : ∀ op ∈ headStart m.id, op.isQueued := by simp [headStart, Operation.isQueued]
  have onHeap : Operation.Along Jimple.knot none Operation.OnHeap (headStart m.id) {} := by
    refine ⟨trivial, ?_, trivial, trivial⟩
    change ∀ o ∈ (OrderedSet.ofList [0]).items, o < (Heap.objectOf ∅ ⟨.detached 0, "A"⟩).2.size
    decide
  have asked := Progress.eq_going (r := forEach (Operation.perform Jimple.knot none)
    (headStart m.id) {}) rfl
  rw [asked, Progress.going_andThen] at hruns
  have goes := Progress.eq_going hruns
  obtain ⟨settled, meets, served⟩ := session_meets_constraints Jimple.parsed_knot none ∅ ∅ #[]
    (headStart m.id) queued onHeap asked goes
  have prompt : ∀ v, v.method = m.signature → Operation.Along Jimple.knot none
      (Operation.Prompt Jimple.knot v) (headStart m.id ++ [.analyze]) {} :=
    fun v hv => prompt_headStart Jimple.parsed_knot.proper hmem hv
  refine ⟨m, _, _, hm, queued, onHeap, asked, goes, settled, ?_, fun v hv => served v (prompt v hv)⟩
  exact fun name hname hnot m' hm' x hx hbase =>
    meets name hname hnot m' hm' x hx fun v hv => prompt v (hbase v hv)

end Session

end PointsTo.Solver
