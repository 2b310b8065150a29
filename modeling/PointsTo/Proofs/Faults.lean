import PointsTo.Proofs.Leastness

/-!
Why a run stops. An action that goes on has bound its calls to bodies that they fit; one that stops
names a call site of its trigger, with a callee that the call does not fit or with an object for
which nothing can be dispatched. The trigger is allowed in a state all of whose calls fit, so that
the fault is about what every solution holds.
-/
namespace PointsTo.Solver

open Relation (ReflTransGen)

/-- An action ends in a good state or with a bad fault. -/
def Ends (good : State → Prop) (bad : AnalysisFault → Prop) : Progress → Prop
  | .going s => good s
  | .stopped _ fault => bad fault

namespace Ends

variable {good good' : State → Prop} {bad bad' : AnalysisFault → Prop} {r : Progress}

theorem mono (h : Ends good bad r) (hg : ∀ s, good s → good' s) (hb : ∀ f, bad f → bad' f) :
    Ends good' bad' r := by
  cases r with
  | going s => exact hg s h
  | stopped s fault => exact hb fault h

theorem andThen {next : State → Progress} (h : Ends good bad r)
    (hnext : ∀ s, r = .going s → good s → Ends good' bad (next s)) :
    Ends good' bad (r.andThen next) := by
  cases r with
  | going s => exact hnext s rfl h
  | stopped s fault => exact h

theorem and_state {kept : State → Prop} (h : Ends good bad r) (hk : kept r.state) :
    Ends (fun s => good s ∧ kept s) bad r := by
  cases r with
  | going s => exact ⟨h, hk⟩
  | stopped s fault => exact h

theorem forEach {α : Type} {action : α → State → Progress} {items : List α}
    (good : State → Prop) (bad : AnalysisFault → Prop)
    (step : ∀ a ∈ items, ∀ s, good s → Ends good bad (action a s)) {s : State} (h : good s) :
    Ends good bad (Solver.forEach action items s) := by
  induction items generalizing s with
  | nil => exact h
  | cons a rest ih =>
    rw [Solver.forEach]
    refine (step a (by simp) s h).andThen fun t _ ht => ?_
    exact ih (fun b hb => step b (by simp [hb])) ht

end Ends

/-- The fault names a call site of the trigger, with what is wrong there. -/
inductive Blames (p : Program) : Trigger → AnalysisFault → Prop
  | mismatch {c site callee body} (calls : Trigger.Calls p c site callee)
      (hasBody : callee.body = some body) (unfit : ¬ site.call.Fits body) :
      Blames p c (.argumentMismatch site.place callee.id site.call.args.length body.params.length)
  | missing {uses o type site receiverClass subsignature} (mem : site ∈ uses.calls)
      (dead : p.resolveCall (some type) site.call = .missing receiverClass subsignature) :
      Blames p (.object uses o type) (.noMethod receiverClass subsignature site.place)

section Actions

variable {p : Program} {c : Trigger} {s t : State}

theorem Fitting.of_callEdges (h : Fitting p s) (hedges : t.calls.edges = s.calls.edges) :
    Fitting p t := by
  intro site callee body hbad
  refine h site callee body ⟨?_, hbad.declared, hbad.hasBody, hbad.unfit⟩
  have hedge : (site, callee.id) ∈ t.calls.edges.keys := hbad.edge
  rw [hedges] at hedge
  exact hedge

theorem fitting_withCall (h : Fitting p s) {site : CallSite} {callee : Method}
    (declared : p.method? callee.id = some callee)
    (fits : ∀ body, callee.body = some body → site.call.Fits body) :
    Fitting p (s.withCall site callee.id) := by
  intro site' callee' body hbad
  rcases State.mem_edges_withCall.1 hbad.edge with hold | hnew
  · exact h site' callee' body ⟨hold, hbad.declared, hbad.hasBody, hbad.unfit⟩
  · obtain ⟨rfl, hid⟩ := Prod.mk.inj hnew
    have hsame := hbad.declared
    rw [hid, declared] at hsame
    obtain rfl : callee = callee' := Option.some.inj hsame
    exact hbad.unfit (fits body hbad.hasBody)

theorem calls_bindings (edges : List (Variable × Variable)) (s : State) :
    (edges.foldl (fun t e => t.flow (.var e.1) (.var e.2)) s).calls = s.calls := by
  induction edges generalizing s with
  | nil => rfl
  | cons e rest ih => exact (ih (s.flow (.var e.1) (.var e.2))).trans State.calls_flow

theorem ends_connect (hp : p.Proper) (h : Fitting p s) {site : CallSite} {callee : Method}
    {more : State → State} (calls : Trigger.Calls p c site callee)
    (hmore : ∀ t, (more t).calls = t.calls) :
    Ends (Fitting p) (Blames p c) (s.connect site callee more) := by
  have declared := calls.declared hp
  rw [State.connect_eq]
  split
  · exact h
  · split
    · next hnone =>
      have hlinked : Fitting p (s.withCall site callee.id) := by
        refine fitting_withCall h declared fun body hb => ?_
        rw [hnone] at hb
        cases hb
      exact hlinked.of_callEdges (by rw [hmore])
    · next body hbody =>
      rw [bind_eq]
      split
      · next fits =>
        have hlinked : Fitting p (s.withCall site callee.id) := by
          refine fitting_withCall h declared fun b hb => ?_
          rw [hbody] at hb
          exact Option.some.inj hb ▸ fits
        exact hlinked.of_callEdges (by rw [hmore, calls_bindings])
      · next unfit => exact .mismatch calls hbody unfit

theorem ends_linkCall (hp : p.Proper) (h : Fitting p s) {m : Method} {place : Place} {call : Call}
    (kind : call.kind.isLinked = true) :
    Ends (Fitting p) (Blames p (.statement m place (.call call))) (s.linkCall p ⟨place, call⟩) := by
  unfold State.linkCall
  split
  · next callee found =>
    exact ends_connect hp h (.linked kind found) fun t => t.calls_passReceiver _ _
  · exact h.of_callEdges rfl

theorem ends_dispatchCall (hp : p.Proper) (h : Fitting p s) {uses : Uses} {o : ObjectId}
    {site : CallSite} (hs : site ∈ uses.calls) :
    Ends (Fitting p) (Blames p (.object uses o (s.heap.typeOf o))) (s.dispatchCall p o site) := by
  unfold State.dispatchCall
  split
  · next callee found =>
    refine ends_connect hp (h.of_callEdges ?_) (.dispatched hs found) fun _ => rfl
    split <;> rfl
  · exact h
  · exact h.of_callEdges rfl
  · next dead => exact .missing hs dead

theorem ends_process (hp : p.Proper) (h : Fitting p s) (m : Method) (place : Place)
    (i : Instruction) :
    Ends (Fitting p) (Blames p (.statement m place i)) (s.process p m place i) := by
  cases i with
  | call call =>
    simp only [State.process]
    split
    · next kind => exact ends_linkCall hp h kind
    · split <;> exact h.of_callEdges rfl
  | ret value =>
    simp only [State.process]
    split
    · split
      · exact h
      · exact h.of_callEdges (by rw [State.calls_flow])
    · exact h
  | copy => exact h.of_callEdges (by rw [State.calls_flow])
  | loadStatic => exact h.of_callEdges (congrArg CallGraph.edges State.calls_flow)
  | storeStatic => exact h.of_callEdges (congrArg CallGraph.edges State.calls_flow)
  | _ => exact h.of_callEdges rfl

theorem callEdges_materialize (s : State) (uses : Uses) (o : ObjectId) :
    (s.materialize p uses o).calls.edges = s.calls.edges := by
  have key : ∀ (accesses : List Access) (t : State),
      (accesses.foldl (fun t a => (t.serve uses.base o (.access a)).access p o a) t).calls.edges =
        t.calls.edges := by
    intro accesses
    induction accesses with
    | nil => exact fun _ => rfl
    | cons a rest ih =>
      intro t
      obtain ⟨u, agrees, heq⟩ := State.access_eq (t.serve uses.base o (.access a)) p o a
      rw [List.foldl_cons, ih, heq, State.calls_flow]
      exact agrees.callEdges
  exact key uses.accesses s

theorem ends_discover (hp : p.Proper) (h : Fitting p s) (v : Variable) (o : ObjectId) :
    Ends (Fitting p) (Blames p (.object (s.usesOf v) o (s.heap.typeOf o)))
      (s.discover p v o) := by
  have hheap := (materialize_frame s p (s.usesOf v) o).1
  have hfit : Fitting p (s.materialize p (s.usesOf v) o) :=
    h.of_callEdges (callEdges_materialize ..)
  rw [discover_eq]
  refine (Ends.forEach (fun t => Fitting p t ∧ t.heap = s.heap)
    (Blames p (.object (s.usesOf v) o (s.heap.typeOf o))) ?_ ⟨hfit, hheap⟩).mono
    (fun _ => And.left) (fun _ => id)
  rintro site hsite t ⟨ht, hheap⟩
  have hserve : (t.serve v o (.call site)).heap = s.heap := hheap
  have ends := ends_dispatchCall hp (s := t.serve v o (.call site)) (ht.of_callEdges rfl) (o := o)
    hsite
  have frame := (acts_dispatch (p := p) (o := o) hsite (t.serve v o (.call site))).object_frame.1
  rw [hserve] at ends
  exact ends.and_state (frame.trans hserve)

end Actions

/-! ### The loops -/

/-- A run comes to a state all of whose calls fit, and the fault blames a trigger allowed there. -/
def Faulted (p : Program) (s : State) (fault : AnalysisFault) : Prop :=
  ∃ u c, ReflTransGen (Move p) s u ∧ Fitting p u ∧ Trigger.Allowed p u c ∧ Blames p c fault

section Loops

variable {p : Program} {s t : State}

theorem Faulted.behind {fault : AnalysisFault} (h : Faulted p t fault)
    (run : ReflTransGen (Move p) s t) : Faulted p s fault := by
  obtain ⟨u, c, more, hfit, allowed, blames⟩ := h
  exact ⟨u, c, run.trans more, hfit, allowed, blames⟩

theorem ends_processMethod (hp : p.Proper) (h : Fitting p s) {name : MethodName}
    (hname : name ∈ s.calls.reachable.items) :
    Ends (Fitting p) (Faulted p s) (s.processMethod p name) := by
  unfold State.processMethod
  split
  · exact h
  · next m hm =>
    refine (Ends.forEach (fun t => Fitting p t ∧ (ReflTransGen (Move p) s t ∧
      name ∈ t.calls.reachable.items)) (Faulted p s) ?_ ⟨h, .refl, hname⟩).mono
      (fun _ => And.left) (fun _ => id)
    rintro ⟨place, i⟩ hmem t ⟨hfit, run, hreach⟩
    have allowed : Trigger.Allowed p t (.statement m place i) := ⟨name, hreach, hm, hmem⟩
    have act := acts_process (p := p) t m place i
    have ends : Ends (Fitting p) (Faulted p s) (t.process p m place i) :=
      (ends_process hp hfit m place i).mono (fun _ => id)
        fun fault blames => ⟨t, _, run, hfit, allowed, blames⟩
    exact ends.and_state ⟨run.trans (act.moves allowed), act.extends.reachable name hreach⟩

theorem ends_settleWithin (hp : p.Proper) (limit : Nat) (ho : s.Orderly) (h : Fitting p s) :
    Ends (Fitting p) (Faulted p s) (State.settleWithin p limit s) := by
  induction limit generalizing s with
  | zero => exact h
  | succ limit ih =>
    unfold State.settleWithin
    split
    · exact h
    · next name rest hpending =>
      have first : ReflTransGen (Move p) s { s with pending := rest } := .single (.settle hpending)
      have hname : name ∈ s.calls.reachable.items := ho.reached name (by simp [hpending])
      have body := moves_processMethod (p := p) (s := { s with pending := rest }) hname
      have ends := ends_processMethod hp (s := { s with pending := rest })
        (h.of_callEdges rfl) hname
      refine (ends.mono (fun _ => id) fun fault hf => hf.behind first).andThen fun t ht hfit => ?_
      rw [ht] at body
      have run := first.trans body
      have ends' := ih (moves_keep (fun _ _ => Move.orderly) run ho) hfit
      exact ends'.mono (fun _ => id) fun fault hf => hf.behind run

theorem ends_accept (hp : p.Proper) (h : Fitting p s) {d : Delivery} {work : Queue Delivery}
    (next : s.work.pop? = some (d, work)) :
    Ends (Fitting p) (Faulted p s) (({ s with work } : State).accept p d) := by
  have hfit : Fitting p (s.take d work) :=
    h.of_callEdges (congrArg CallGraph.edges (take_frame s d work).2.1)
  rw [accept_eq]
  split
  · next v hv =>
    refine (Ends.forEach
      (fun t => Fitting p t ∧ Accepting p s v (s.fresh d.pointer d.objects) t)
      (Faulted p s) ?_ ⟨hfit, .take next hv⟩).mono (fun _ => And.left) (fun _ => id)
    rintro o ho t ⟨ht, serving⟩
    have ends : Ends (Fitting p) (Faulted p s) (t.discover p v o) :=
      (ends_discover hp ht v o).mono (fun _ => id) fun fault blames =>
        ⟨t, _, serving.run, ht, serving.allowed ho, blames⟩
    exact ends.and_state (serving.discover ho)
  · exact hfit

theorem ends_deliver (hp : p.Proper) (ho : s.Orderly) (h : Fitting p s) {d : Delivery}
    {work : Queue Delivery} (next : s.work.pop? = some (d, work)) :
    Ends (Fitting p) (Faulted p s) (({ s with work } : State).deliver p d) := by
  have accepted := moves_accept (p := p) next
  refine (ends_accept hp h next).andThen fun t ht hfit => ?_
  rw [ht] at accepted
  exact (ends_settleWithin hp _ (moves_keep (fun _ _ => Move.orderly) accepted ho) hfit).mono
    (fun _ => id) fun fault hf => hf.behind accepted

/-- **A run that stops blames what it has found.** -/
theorem ends_analyzeWithin (hp : p.Proper) (limit : Nat) (ho : s.Orderly) (h : Fitting p s) :
    Ends (Fitting p) (Faulted p s) (State.analyzeWithin p limit s) := by
  induction limit generalizing s with
  | zero => exact h
  | succ limit ih =>
    unfold State.analyzeWithin
    split
    · exact h
    · next d work next =>
      have run := moves_deliver (p := p) ho next
      refine (ends_deliver hp ho h next).andThen fun t ht hfit => ?_
      rw [ht] at run
      exact (ih (moves_keep (fun _ _ => Move.orderly) run ho) hfit).mono (fun _ => id)
        fun fault hf => hf.behind run

end Loops

end PointsTo.Solver
