import Mathlib.Logic.Relation
import PointsTo.Proofs.Actions
import PointsTo.Proofs.Constraints

/-!
Everything that the analysis can do, as a relation. A step has a trigger, a statement that is
processed or an object that has reached a variable, and the trigger says which edges, uses and calls
the step may add. Whatever the rules do for a trigger is a sequence of its steps, also when they end
with a fault, so that an invariant of the steps is an invariant of the analysis.
-/
namespace PointsTo.Solver

/-- Why the analysis acts: it processes a statement of a method, or an object of a type has reached
the variable whose uses are given. -/
inductive Trigger where
  | statement (m : Method) (place : Place) (i : Instruction)
  | object (uses : Uses) (o : ObjectId) (type : String)

/-- A use as the statement that it comes from. -/
def Uses.register (u : Uses) (place : Place) : Instruction → Uses
  | .loadField target _ f => { u with loads := u.loads ++ [(target, f)] }
  | .storeField _ f source => { u with stores := u.stores ++ [(f, source)] }
  | .loadElement target _ => { u with elementLoads := u.elementLoads ++ [target] }
  | .storeElement _ source => { u with elementStores := u.elementStores ++ [source] }
  | .call call => { u with calls := u.calls ++ [⟨place, call⟩] }
  | _ => u

/-- The variable through which an instruction acts once its objects are known. -/
def base? : Instruction → Option Variable
  | .loadField _ base _ => some base
  | .storeField base _ _ => some base
  | .loadElement _ base => some base
  | .storeElement base _ => some base
  | .call call => if call.kind.isLinked then none else call.receiver
  | _ => none

theorem base?_call {call : Call} {v : Variable} :
    base? (.call call) = some v ↔ ¬ call.kind.isLinked = true ∧ call.receiver = some v := by
  unfold base?
  split <;> simp_all

/-- The call sites at which a trigger calls a method. -/
inductive Trigger.Calls (p : Program) : Trigger → CallSite → Method → Prop
  | linked {m place call callee} (kind : call.kind.isLinked = true)
      (found : p.resolveCall none call = .found callee) :
      Calls p (.statement m place (.call call)) ⟨place, call⟩ callee
  | dispatched {uses o type site callee} (mem : site ∈ uses.calls)
      (found : p.resolveCall (some type) site.call = .found callee) :
      Calls p (.object uses o type) site callee

/-- The edges that a trigger asks for in a state. Those that bind a call are asked for once the call
edge is there and its callee is reachable. -/
inductive Demands (p : Program) (s : State) : Trigger → Pointer → Pointer → Prop
  | copy {m place target source} :
      Demands p s (.statement m place (.copy target source)) (.var source) (.var target)
  | loadStatic {m place target f} :
      Demands p s (.statement m place (.loadStatic target f)) (.static (p.fieldOf f)) (.var target)
  | storeStatic {m place f source} :
      Demands p s (.statement m place (.storeStatic f source)) (.var source)
        (.static (p.fieldOf f))
  | ret {m place v r} (returned : m.body.bind Body.returned = some r) :
      Demands p s (.statement m place (.ret (some v))) (.var v) (.var r.var)
  | store {uses o type f source} (mem : (f, source) ∈ uses.stores) :
      Demands p s (.object uses o type) (.var source) (.field o (p.fieldOf f))
  | load {uses o type target f} (mem : (target, f) ∈ uses.loads) :
      Demands p s (.object uses o type) (.field o (p.fieldOf f)) (.var target)
  | elementStore {uses o type source} (mem : source ∈ uses.elementStores) :
      Demands p s (.object uses o type) (.var source) (.element o)
  | elementLoad {uses o type target} (mem : target ∈ uses.elementLoads) :
      Demands p s (.object uses o type) (.element o) (.var target)
  | bind {c site callee body e} (calls : Trigger.Calls p c site callee)
      (edge : (site, callee.id) ∈ s.calls.edges.keys)
      (reachable : callee.id ∈ s.calls.reachable.items) (hasBody : callee.body = some body)
      (fits : site.call.Fits body) (mem : e ∈ site.call.bindings body) :
      Demands p s c (.var e.1) (.var e.2)
  | self {m place call callee body receiver self}
      (calls : Trigger.Calls p (.statement m place (.call call)) ⟨place, call⟩ callee)
      (edge : (⟨place, call⟩, callee.id) ∈ s.calls.edges.keys)
      (reachable : callee.id ∈ s.calls.reachable.items) (hasBody : callee.body = some body)
      (fits : call.Fits body) (isReceiver : call.receiver = some receiver)
      (isSelf : body.receiver = some self) :
      Demands p s (.statement m place (.call call)) (.var receiver) (.var self.var)

/-- An object that is the trigger of a call is sent to the receiver of the callee. -/
def State.greet (s : State) (callee : Method) : Trigger → State
  | .object _ o _ =>
    match State.receiverOf callee with
    | some self => (s.touch (.var self)).send (.var self) (OrderedSet.ofList [o])
    | none => s
  | .statement .. => s

/-- How many deliveries a call sends to the receiver of its callee for a trigger. -/
def Trigger.greetings : Trigger → Nat
  | .object .. => 1
  | .statement .. => 0

/-- What can happen to the state for a trigger. -/
inductive Step (p : Program) : Trigger → State → State → Prop
  | quiet {c s t} (agrees : s.Agrees t) : Step p c s t
  | touch {c s a b q} (demand : Demands p s c a b) (isEnd : q = a ∨ q = b) :
      Step p c s (s.touch q)
  | flow {c s a b} (demand : Demands p s c a b) : Step p c s (s.flow a b)
  | allocate {m place target type s} :
      Step p (.statement m place (.allocate target type)) s
        (((s.allocate ⟨place, type⟩).2.touch (.var target)).send (.var target)
          (OrderedSet.ofList [(s.allocate ⟨place, type⟩).1]))
  | use {m place i base s} (isBase : base? i = some base) :
      Step p (.statement m place i) s (s.addUse base fun u => u.register place i)
  | call {c s site callee} (calls : Trigger.Calls p c site callee) :
      Step p c s ((s.greet callee c).withCall site callee.id)

/-- The steps of a trigger lead from a state to another, and at most `n` deliveries are sent that no
new edge accounts for. -/
structure Acts (p : Program) (c : Trigger) (n : Nat) (s t : State) : Prop where
  steps : Relation.ReflTransGen (Step p c) s t
  sent : t.work.size + s.graph.edges.size ≤ s.work.size + t.graph.edges.size + n

namespace Acts

variable {p : Program} {c : Trigger} {m n : Nat} {s t u : State}

theorem refl (s : State) : Acts p c 0 s s := ⟨.refl, Nat.le_refl _⟩

theorem trans (h : Acts p c m s t) (h' : Acts p c n t u) : Acts p c (m + n) s u := by
  refine ⟨h.steps.trans h'.steps, ?_⟩
  have h₁ := h.sent
  have h₂ := h'.sent
  omega

theorem mono (h : Acts p c m s t) (hle : m ≤ n) : Acts p c n s t :=
  ⟨h.steps, by have h₁ := h.sent; omega⟩

theorem of_going {r : Progress} (h : Acts p c n s r.state) (goes : r = .going t) :
    Acts p c n s t := by
  rw [goes] at h
  exact h

theorem quiet (h : s.Agrees t) : Acts p c 0 s t :=
  ⟨.single (.quiet h), by rw [h.work, h.edges]; omega⟩

theorem touch {a b q : Pointer} (h : Demands p s c a b) (hq : q = a ∨ q = b) :
    Acts p c 0 s (s.touch q) :=
  ⟨.single (.touch h hq), Nat.le_refl _⟩

theorem flow {a b : Pointer} (h : Demands p s c a b) : Acts p c 0 s (s.flow a b) :=
  ⟨.single (.flow h), State.sent_flow s a b⟩

end Acts

/-- The edge that an access asks for. -/
def Access.edge (p : Program) (o : ObjectId) : Access → Pointer × Pointer
  | .store f source => (.var source, .field o (p.fieldOf f))
  | .load target f => (.field o (p.fieldOf f), .var target)
  | .storeElement source => (.var source, .element o)
  | .loadElement target => (.element o, .var target)

theorem State.access_eq (s : State) (p : Program) (o : ObjectId) (a : Access) :
    ∃ t, s.Agrees t ∧ s.access p o a = t.flow (a.edge p o).1 (a.edge p o).2 := by
  cases a with
  | store f source =>
    refine ⟨(s.resolve p f).2, agrees_resolve s p f, ?_⟩
    rw [Access.edge, ← s.id_resolve p f]
    rfl
  | load target f =>
    refine ⟨(s.resolve p f).2, agrees_resolve s p f, ?_⟩
    rw [Access.edge, ← s.id_resolve p f]
    rfl
  | storeElement source => exact ⟨s, .refl s, rfl⟩
  | loadElement target => exact ⟨s, .refl s, rfl⟩

theorem Uses.mem_accesses {u : Uses} {a : Access} :
    a ∈ u.accesses ↔ match a with
      | .store f source => (f, source) ∈ u.stores
      | .load target f => (target, f) ∈ u.loads
      | .storeElement source => source ∈ u.elementStores
      | .loadElement target => target ∈ u.elementLoads := by
  unfold Uses.accesses
  cases a <;> simp

section Decompose

variable {p : Program} {c : Trigger} {s : State}

/-- A fold whose steps keep an invariant acts if each of its steps does. -/
theorem acts_foldl {α : Type} {f : State → α → State} (inv : State → Prop) {items : List α}
    (step : ∀ a ∈ items, ∀ s, inv s → Acts p c 0 s (f s a) ∧ inv (f s a)) (h : inv s) :
    Acts p c 0 s (items.foldl f s) ∧ inv (items.foldl f s) := by
  induction items generalizing s with
  | nil => exact ⟨.refl s, h⟩
  | cons a rest ih =>
    obtain ⟨first, kept⟩ := step a (by simp) s h
    obtain ⟨more, kept⟩ := ih (fun b hb => step b (by simp [hb])) kept
    exact ⟨first.trans more, kept⟩

theorem Acts.foldl {α : Type} {f : State → α → State} {items : List α}
    (step : ∀ a ∈ items, ∀ s, Acts p c 0 s (f s a)) (s : State) :
    Acts p c 0 s (items.foldl f s) :=
  (acts_foldl (fun _ => True) (fun a ha t _ => ⟨step a ha t, trivial⟩) trivial).1

/-- The actions of a list, each of which keeps an invariant and sends at most `n` deliveries. -/
theorem acts_forEach {α : Type} (action : α → State → Progress) (inv : State → Prop)
    (items : List α) {n : Nat}
    (step : ∀ a ∈ items, ∀ s, inv s →
      Acts p c n s (action a s).state ∧ inv (action a s).state) (h : inv s) :
    Acts p c (items.length * n) s (forEach action items s).state := by
  induction items generalizing s with
  | nil => exact (Acts.refl s).mono (Nat.zero_le _)
  | cons a rest ih =>
    obtain ⟨first, kept⟩ := step a (by simp) s h
    rw [forEach, List.length_cons, Nat.succ_mul]
    cases hp : action a s with
    | going t =>
      rw [hp] at first kept
      have more := ih (fun b hb => step b (by simp [hb])) kept
      exact (first.trans more).mono (by omega)
    | stopped t fault =>
      rw [hp] at first
      exact first.mono (by omega)

/-- Binding a call adds an edge for each of its bindings, from the left. -/
theorem bind_eq (s : State) (site : CallSite) (callee : MethodName) (body : Body) :
    s.bind site callee body =
      if site.call.Fits body then
        .going ((site.call.bindings body).foldl (fun t e => t.flow (.var e.1) (.var e.2)) s)
      else
        .stopped s (.argumentMismatch site.place callee site.call.args.length
          body.params.length) := by
  unfold State.bind
  by_cases hfit : site.call.Fits body
  · have hlen : ¬ site.call.args.length ≠ body.params.length := fun h => h hfit
    -- a constant passes nothing, so that only the bindings count
    have hargs : (site.call.args.zip body.params).foldl (fun t x => t.pass x.1 x.2) s =
        ((site.call.args.zip body.params).filterMap fun x =>
          x.1.map fun a => (a, x.2.var)).foldl (fun t e => t.flow (.var e.1) (.var e.2)) s := by
      rw [List.foldl_filterMap]
      congr 1
      funext t x
      obtain ⟨arg, param⟩ := x
      cases arg <;> rfl
    rw [if_neg hlen, if_pos hfit, Call.bindings, List.foldl_append, ← hargs]
    cases body.returned with
    | none => rfl
    | some returned => cases site.call.result <;> rfl
  · rw [if_pos (show site.call.args.length ≠ body.params.length from hfit), if_neg hfit]

theorem acts_bind {site : CallSite} {callee : Method} {body : Body}
    (calls : c.Calls p site callee) (edge : (site, callee.id) ∈ s.calls.edges.keys)
    (reachable : callee.id ∈ s.calls.reachable.items) (hasBody : callee.body = some body) :
    Acts p c 0 s (s.bind site callee.id body).state ∧
      (s.bind site callee.id body).state.calls = s.calls := by
  rw [bind_eq]
  split
  · next fits =>
    refine acts_foldl (fun t => t.calls = s.calls) (fun e he t ht => ?_) rfl
    refine ⟨.flow (.bind calls ?_ ?_ hasBody fits he), by rw [State.calls_flow, ht]⟩
    · rw [ht]; exact edge
    · rw [ht]; exact reachable
  · exact ⟨.refl s, rfl⟩

theorem sent_greet (s : State) (callee : Method) (c : Trigger) :
    (s.greet callee c).work.size ≤ s.work.size + c.greetings ∧
      (s.greet callee c).graph.edges = s.graph.edges := by
  cases c with
  | statement => exact ⟨Nat.le_refl _, rfl⟩
  | object uses o type =>
    unfold State.greet
    cases State.receiverOf callee with
    | none => exact ⟨Nat.le_succ _, rfl⟩
    | some self => exact ⟨Nat.le_of_eq (State.size_work_send _ _ _), rfl⟩

/-- Connecting a call after its receiver has been greeted: the call edge, then the bindings, then
whatever more is asked for once the call is bound. -/
theorem acts_connect {site : CallSite} {callee : Method} {more : State → State}
    (calls : c.Calls p site callee)
    (hmore : ∀ t : State, (site, callee.id) ∈ t.calls.edges.keys →
      callee.id ∈ t.calls.reachable.items →
      (∀ body, callee.body = some body → site.call.Fits body) → Acts p c 0 t (more t)) :
    Acts p c c.greetings s ((s.greet callee c).connect site callee more).state := by
  have hframe := State.withCall_frame (s.greet callee c) site callee.id
  have first : Acts p c c.greetings s ((s.greet callee c).withCall site callee.id) := by
    refine ⟨.single (.call calls), ?_⟩
    have hsent := sent_greet s callee c
    rw [hframe.2.1, hframe.2.2.2, hsent.2]
    omega
  rw [State.connect_eq]
  split
  · next hold =>
    rw [State.withCall_of_mem hold] at first
    exact first
  · next hnew =>
    have edge : (site, callee.id) ∈
        ((s.greet callee c).withCall site callee.id).calls.edges.keys :=
      State.mem_edges_withCall.2 (.inr rfl)
    have reachable : callee.id ∈
        ((s.greet callee c).withCall site callee.id).calls.reachable.items :=
      State.mem_reachable_withCall.2 (.inr ⟨hnew, rfl⟩)
    split
    · next hb =>
      exact first.trans (hmore _ edge reachable fun body h => by simp [hb] at h)
    · next body hb =>
      obtain ⟨bound, hcalls⟩ := acts_bind (p := p) (c := c) calls edge reachable hb
      rw [bind_eq] at bound hcalls ⊢
      split
      · next fits =>
        rw [if_pos fits] at bound hcalls
        refine (first.trans bound).trans (hmore _ ?_ ?_ ?_)
        · exact hcalls ▸ edge
        · exact hcalls ▸ reachable
        · intro b h
          rw [hb] at h
          exact Option.some.inj h ▸ fits
      · exact first

theorem exists_of_receiverOf {m : Method} {v : Variable} (h : State.receiverOf m = some v) :
    ∃ b l, m.body = some b ∧ b.receiver = some l ∧ l.var = v := by
  obtain ⟨l, hl, hv⟩ := Option.map_eq_some_iff.1 h
  obtain ⟨b, hb, hreceiver⟩ := Option.bind_eq_some_iff.1 hl
  exact ⟨b, l, hb, hreceiver, hv⟩

/-- What `linkCall` asks for behind the bindings. -/
theorem acts_link {m : Method} {place : Place} {call : Call}
    (kind : call.kind.isLinked = true) (s : State) :
    Acts p (.statement m place (.call call)) 0 s (s.linkCall p ⟨place, call⟩).state := by
  unfold State.linkCall
  split
  · next callee hfound =>
    have calls : Trigger.Calls p (.statement m place (.call call)) ⟨place, call⟩ callee :=
      .linked kind hfound
    refine acts_connect (s := s) calls fun t edge reachable fits => ?_
    unfold State.passReceiver
    split
    · next receiver self hr hself =>
      obtain ⟨body, l, hb, hbody, rfl⟩ := exists_of_receiverOf hself
      exact .flow (.self calls edge reachable hb (fits body hb) hr hbody)
    · exact .refl t
  · exact .quiet (State.agrees_record s _)

theorem acts_dispatch {uses : Uses} {o : ObjectId} {site : CallSite} (hs : site ∈ uses.calls)
    (s : State) :
    Acts p (.object uses o (s.heap.typeOf o)) 1 s (s.dispatchCall p o site).state := by
  unfold State.dispatchCall
  split
  · next callee hfound =>
    exact acts_connect (.dispatched hs hfound) fun t _ _ _ => .refl t
  · exact (Acts.refl s).mono (Nat.zero_le _)
  · exact (Acts.quiet (State.agrees_record s _)).mono (Nat.zero_le _)
  · exact (Acts.refl s).mono (Nat.zero_le _)

/-- An object that has reached a variable changes neither the heap nor the uses. -/
theorem Step.object_frame {uses : Uses} {o : ObjectId} {type : String} {t : State}
    (h : Step p (.object uses o type) s t) : t.heap = s.heap ∧ t.uses = s.uses := by
  generalize hc : Trigger.object uses o type = c at h
  cases h with
  | quiet agrees => exact ⟨agrees.heap, agrees.uses⟩
  | touch => exact ⟨rfl, rfl⟩
  | flow => exact ⟨State.heap_flow, State.uses_flow⟩
  | allocate | use => cases hc
  | @call _ _ site callee =>
    obtain ⟨hheap, -, huses, -⟩ := State.withCall_frame (s.greet callee c) site callee.id
    rw [hheap, huses, ← hc]
    unfold State.greet
    cases State.receiverOf callee <;> exact ⟨rfl, rfl⟩

theorem Acts.object_frame {uses : Uses} {o : ObjectId} {type : String} {n : Nat} {t : State}
    (h : Acts p (.object uses o type) n s t) : t.heap = s.heap ∧ t.uses = s.uses := by
  obtain ⟨steps, -⟩ := h
  induction steps with
  | refl => exact ⟨rfl, rfl⟩
  | tail _ step ih =>
    obtain ⟨hheap, huses⟩ := step.object_frame
    exact ⟨hheap.trans ih.1, huses.trans ih.2⟩

theorem Acts.of_serve {n : Nat} {v : Variable} {o : ObjectId} {use : Use} {t : State}
    (h : Acts p c n (s.serve v o use) t) : Acts p c n s t :=
  ((Acts.quiet (State.agrees_serve s v o use)).trans h).mono (by omega)

theorem acts_access {uses : Uses} {a : Access} (h : a ∈ uses.accesses) (o : ObjectId)
    (type : String) (s : State) : Acts p (.object uses o type) 0 s (s.access p o a) := by
  obtain ⟨t, agrees, heq⟩ := State.access_eq s p o a
  have demand : Demands p t (.object uses o type) (a.edge p o).1 (a.edge p o).2 := by
    have hmem := Uses.mem_accesses.1 h
    cases a with
    | store => exact .store hmem
    | load => exact .load hmem
    | storeElement => exact .elementStore hmem
    | loadElement => exact .elementLoad hmem
  rw [heq]
  exact (Acts.quiet agrees).trans (.flow demand)

theorem acts_materialize (uses : Uses) (o : ObjectId) (type : String) (s : State) :
    Acts p (.object uses o type) 0 s (s.materialize p uses o) :=
  Acts.foldl (fun _ ha _ => .of_serve (acts_access ha o type _)) s

theorem materialize_frame (s : State) (p : Program) (uses : Uses) (o : ObjectId) :
    (s.materialize p uses o).heap = s.heap ∧
      ∀ v, (s.materialize p uses o).usesOf v = s.usesOf v := by
  obtain ⟨hheap, huses⟩ := (acts_materialize (p := p) uses o "" s).object_frame
  refine ⟨hheap, fun v => ?_⟩
  unfold State.usesOf
  rw [huses]

/-- The accesses change no use, so that the calls are those that the object began with. -/
theorem discover_eq (s : State) (p : Program) (v : Variable) (o : ObjectId) :
    s.discover p v o =
      forEach (fun site t => (State.serve t v o (.call site)).dispatchCall p o site)
        (s.usesOf v).calls (s.materialize p (s.usesOf v) o) := by
  unfold State.discover State.processCalls
  rw [(materialize_frame s p (s.usesOf v) o).2]

theorem acts_processCalls (s : State) (v : Variable) (o : ObjectId) :
    Acts p (.object (s.usesOf v) o (s.heap.typeOf o)) (s.usesOf v).calls.length s
      (s.processCalls p v o).state := by
  -- the heap stays, so that the object keeps the type that the trigger has
  have acts := acts_forEach (p := p) (c := .object (s.usesOf v) o (s.heap.typeOf o))
    (fun site t => (State.serve t v o (.call site)).dispatchCall p o site)
    (fun t => t.heap = s.heap)
    (s.usesOf v).calls (n := 1) (by
      intro site hsite t ht
      have act := acts_dispatch (p := p) (o := o) hsite (t.serve v o (.call site))
      have hsame : (t.serve v o (.call site)).heap = s.heap := ht
      rw [hsame] at act
      exact ⟨.of_serve act, act.object_frame.1.trans hsame⟩) rfl
  rwa [Nat.mul_one] at acts

theorem acts_discover (s : State) (v : Variable) (o : ObjectId) :
    Acts p (.object (s.usesOf v) o (s.heap.typeOf o)) (s.usesOf v).calls.length s
      (s.discover p v o).state := by
  have first := acts_materialize (p := p) (s.usesOf v) o (s.heap.typeOf o) s
  have more := acts_processCalls (p := p) (s.materialize p (s.usesOf v) o) v o
  obtain ⟨hheap, huses⟩ := materialize_frame s p (s.usesOf v) o
  rw [hheap, huses] at more
  exact (first.trans more).mono (Nat.le_of_eq (Nat.zero_add _))

/-- How many deliveries a statement sends for itself. -/
def sends : Instruction → Nat
  | .allocate .. => 1
  | _ => 0

/-- Everything that happens when a statement is processed. -/
theorem acts_process (s : State) (m : Method) (place : Place) (i : Instruction) :
    Acts p (.statement m place i) (sends i) s (s.process p m place i).state := by
  cases i with
  | allocate target type =>
    refine ⟨.single .allocate, ?_⟩
    have hsend := State.size_work_send ((s.allocate ⟨place, type⟩).2.touch (.var target))
      (.var target) (OrderedSet.ofList [(s.allocate ⟨place, type⟩).1])
    have hwork : ((s.allocate ⟨place, type⟩).2.touch (.var target)).work = s.work := rfl
    rw [hwork] at hsend
    have hle := Nat.le_of_eq (congrArg (· + s.graph.edges.size) hsend)
    exact hle.trans (Nat.le_of_eq (Nat.add_right_comm ..))
  | copy target source => exact .flow .copy
  | loadStatic target f =>
    have hid := s.id_resolve p f
    have demand : ∀ t, Demands p t (.statement m place (.loadStatic target f))
        (.static (s.resolve p f).1.id) (.var target) := fun t => by
      rw [hid]
      exact .loadStatic
    have found := Acts.quiet (p := p) (c := .statement m place (.loadStatic target f))
      (State.agrees_resolve s p f)
    have asked := (Acts.touch (demand (s.resolve p f).2) (.inl rfl)).trans
      (.quiet (State.agrees_touchStatic (s.resolve p f).2 (s.resolve p f).1))
    exact (found.trans asked).trans (.flow (demand _))
  | storeStatic f source =>
    have hid := s.id_resolve p f
    have demand : ∀ t, Demands p t (.statement m place (.storeStatic f source)) (.var source)
        (.static (s.resolve p f).1.id) := fun t => by
      rw [hid]
      exact .storeStatic
    have found := (Acts.quiet (State.agrees_resolve s p f)).trans
      (.touch (demand (s.resolve p f).2) (.inl rfl))
    have asked := (Acts.touch (demand ((s.resolve p f).2.touch (.var source))) (.inr rfl)).trans
      (.quiet (State.agrees_touchStatic ((s.resolve p f).2.touch (.var source)) (s.resolve p f).1))
    exact (found.trans asked).trans (.flow (demand _))
  | loadField target base f => exact ⟨.single (.use rfl), Nat.le_refl _⟩
  | storeField base f source => exact ⟨.single (.use rfl), Nat.le_refl _⟩
  | loadElement target base => exact ⟨.single (.use rfl), Nat.le_refl _⟩
  | storeElement base source => exact ⟨.single (.use rfl), Nat.le_refl _⟩
  | call call =>
    simp only [State.process]
    split
    · next kind => exact acts_link kind s
    · next kind =>
      split
      · next receiver hr =>
        have hbase : base? (.call call) = some receiver := (if_neg kind).trans hr
        exact ⟨.single (.use hbase), Nat.le_refl _⟩
      · exact .quiet (State.agrees_record s _)
  | ret value =>
    simp only [State.process]
    split
    · next v returned hr =>
      split
      · exact .refl s
      · exact .flow (.ret hr)
    · exact .refl s
  | other text => exact .refl s

end Decompose

end PointsTo.Solver
