import Mathlib.Data.Set.Lattice
import Mathlib.Order.Bounds.Basic
import PointsTo.Analysis

/-!
The inclusion constraints of a program. A fact says that a method is reachable, that a call site
calls a method, or that an object may be at a location; objects are named by their allocations, so
that facts do not depend on the order in which an analysis meets them. A set of facts solves the
constraints of a program when it agrees with every statement of every method that it holds to be
reachable. The least solution always exists.
-/
namespace PointsTo

/-- A pointer whose object, if it has one, is named by its allocation. -/
inductive Location where
  | var (v : Variable)
  | static (f : FieldName)
  | field (base : Allocation) (f : FieldName)
  | element (array : Allocation)

/-- What an analysis may find. -/
inductive Fact where
  | reachable (m : MethodName)
  | calls (site : CallSite) (callee : MethodName)
  | pointsTo (l : Location) (a : Allocation)

/-- The field that a reference stands for, whatever was referred to before. -/
def Program.fieldOf (p : Program) (ref : FieldRef) : FieldName :=
  ((p.declaredField? ref).map Field.id).getD ref.target

theorem Program.id_resolveField (p : Program) (phantoms : PhantomFields) (ref : FieldRef) :
    (p.resolveField phantoms ref).1.id = p.fieldOf ref := by
  unfold resolveField fieldOf
  cases p.declaredField? ref with
  | some f => rfl
  | none =>
    cases h : phantoms.get? ref.target with
    | some f => exact Roster.key_of_get? h
    | none => rfl

theorem Solver.State.id_resolve (s : State) (p : Program) (ref : FieldRef) :
    (s.resolve p ref).1.id = p.fieldOf ref :=
  p.id_resolveField s.phantoms ref

/-- The call passes one argument for each parameter of the body. -/
def Call.Fits (c : Call) (b : Body) : Prop := c.args.length = b.params.length

instance (c : Call) (b : Body) : Decidable (c.Fits b) :=
  inferInstanceAs (Decidable (c.args.length = b.params.length))

/-- The variables that a call connects when it runs a body: each argument that is a variable with
its parameter, and the returned variable with the result of the call. -/
def Call.bindings (c : Call) (b : Body) : List (Variable × Variable) :=
  ((c.args.zip b.params).filterMap fun x => x.1.map fun a => (a, x.2.var)) ++
    match b.returned, c.result with
    | some returned, some result => [(returned.var, result)]
    | _, _ => []

theorem Body.mem_bound_receiver {b : Body} {l : Local} (h : b.receiver = some l) :
    l.var ∈ b.bound := by
  simp [Body.bound, h]

theorem Body.mem_bound_returned {b : Body} {l : Local} (h : b.returned = some l) :
    l.var ∈ b.bound := by
  simp [Body.bound, h]

theorem Call.mem_bindings {call : Call} {b : Body} {e : Variable × Variable}
    (h : e ∈ call.bindings b) :
    (some e.1 ∈ call.args ∧ e.2 ∈ b.bound) ∨ (e.1 ∈ b.bound ∧ call.result = some e.2) := by
  rcases List.mem_append.1 h with h | h
  · obtain ⟨⟨arg, param⟩, hzip, hsome⟩ := List.mem_filterMap.1 h
    obtain ⟨a, ha, rfl⟩ := Option.map_eq_some_iff.1 hsome
    dsimp only at ha
    obtain ⟨harg, hparam⟩ := List.of_mem_zip hzip
    rw [ha] at harg
    refine .inl ⟨harg, List.mem_map.2 ⟨param, ?_, rfl⟩⟩
    exact List.mem_append_left _ (List.mem_append_left _ hparam)
  · split at h
    · next returned result hret hres =>
      obtain rfl := List.mem_singleton.1 h
      exact .inr ⟨Body.mem_bound_returned hret, hres⟩
    · cases h

namespace Solver

/-- All that the source may point to, the target may point to. -/
def Includes (facts : Set Fact) (source target : Location) : Prop :=
  ∀ a, .pointsTo source a ∈ facts → .pointsTo target a ∈ facts

/-- The facts agree with a call that runs a method. `passes` says which calls are bound to a
body. -/
structure Binds (passes : Call → Body → Prop) (facts : Set Fact) (site : CallSite)
    (callee : Method) : Prop where
  edge : .calls site callee.id ∈ facts
  reachable : .reachable callee.id ∈ facts
  flow : ∀ body, callee.body = some body → passes site.call body →
    ∀ e ∈ site.call.bindings body, Includes facts (.var e.1) (.var e.2)

/-- The receiver of a method whose body the call is bound to. -/
def Receives (passes : Call → Body → Prop) (call : Call) (callee : Method) (self : Variable) :
    Prop :=
  ∃ body l, callee.body = some body ∧ passes call body ∧ body.receiver = some l ∧ l.var = self

/-- The facts agree with a call site. A call that is linked runs the method of its reference, and
its receiver flows as a whole to that of the method. Any other call on a variable runs the method
that each object of the variable is dispatched to, and that object alone flows to its receiver. -/
def MeetsCall (p : Program) (passes : Call → Body → Prop) (facts : Set Fact) (site : CallSite) :
    Prop :=
  if site.call.kind.isLinked then
    ∀ callee, p.resolveCall none site.call = .found callee →
      Binds passes facts site callee ∧
      ∀ receiver self, site.call.receiver = some receiver →
        Receives passes site.call callee self → Includes facts (.var receiver) (.var self)
  else
    ∀ receiver, site.call.receiver = some receiver → ∀ o, .pointsTo (.var receiver) o ∈ facts →
      ∀ callee, p.resolveCall (some o.type) site.call = .found callee →
        Binds passes facts site callee ∧
        ∀ self, Receives passes site.call callee self → .pointsTo (.var self) o ∈ facts

section Call

variable {p : Program} {passes : Call → Body → Prop} {facts : Set Fact} {site : CallSite}
  {callee : Method}

theorem MeetsCall.linked (h : MeetsCall p passes facts site)
    (kind : site.call.kind.isLinked = true) (found : p.resolveCall none site.call = .found callee) :
    Binds passes facts site callee ∧
      ∀ receiver self, site.call.receiver = some receiver →
        Receives passes site.call callee self → Includes facts (.var receiver) (.var self) := by
  unfold MeetsCall at h
  rw [if_pos kind] at h
  exact h callee found

theorem MeetsCall.dispatched (h : MeetsCall p passes facts site)
    (kind : ¬ site.call.kind.isLinked = true) {receiver : Variable}
    (isReceiver : site.call.receiver = some receiver) {o : Allocation}
    (ho : .pointsTo (.var receiver) o ∈ facts)
    (found : p.resolveCall (some o.type) site.call = .found callee) :
    Binds passes facts site callee ∧
      ∀ self, Receives passes site.call callee self → .pointsTo (.var self) o ∈ facts := by
  unfold MeetsCall at h
  rw [if_neg kind] at h
  exact h receiver isReceiver o ho callee found

end Call

/-- The facts agree with an instruction at its place in a method. -/
def Meets (p : Program) (passes : Call → Body → Prop) (facts : Set Fact) (m : Method)
    (place : Place) : Instruction → Prop
  | .allocate target type => .pointsTo (.var target) ⟨place, type⟩ ∈ facts
  | .copy target source => Includes facts (.var source) (.var target)
  | .loadStatic target f => Includes facts (.static (p.fieldOf f)) (.var target)
  | .storeStatic f source => Includes facts (.var source) (.static (p.fieldOf f))
  | .loadField target base f => ∀ o, .pointsTo (.var base) o ∈ facts →
      Includes facts (.field o (p.fieldOf f)) (.var target)
  | .storeField base f source => ∀ o, .pointsTo (.var base) o ∈ facts →
      Includes facts (.var source) (.field o (p.fieldOf f))
  | .loadElement target base => ∀ o, .pointsTo (.var base) o ∈ facts →
      Includes facts (.element o) (.var target)
  | .storeElement base source => ∀ o, .pointsTo (.var base) o ∈ facts →
      Includes facts (.var source) (.element o)
  | .call call => MeetsCall p passes facts ⟨place, call⟩
  | .ret value => ∀ v r, value = some v → m.body.bind Body.returned = some r →
      Includes facts (.var v) (.var r.var)
  | .other _ => True

/-- The facts solve the constraints of a program that starts from a method. -/
structure Solves (p : Program) (passes : Call → Body → Prop) (entry : MethodName)
    (facts : Set Fact) : Prop where
  entry : .reachable entry ∈ facts
  statements : ∀ name m, .reachable name ∈ facts → p.method? name = some m →
    ∀ s ∈ m.placed, Meets p passes facts m s.1 s.2

section Weaken

variable {p : Program} {passes passes' : Call → Body → Prop} {facts : Set Fact}
  (hle : ∀ c b, passes' c b → passes c b)

include hle

theorem Binds.weaken {site : CallSite} {callee : Method} (h : Binds passes facts site callee) :
    Binds passes' facts site callee :=
  ⟨h.edge, h.reachable, fun body hb hp => h.flow body hb (hle _ _ hp)⟩

theorem Receives.strengthen {call : Call} {callee : Method} {self : Variable}
    (h : Receives passes' call callee self) : Receives passes call callee self := by
  obtain ⟨body, l, hb, hp, hl⟩ := h
  exact ⟨body, l, hb, hle _ _ hp, hl⟩

theorem MeetsCall.weaken {site : CallSite} (h : MeetsCall p passes facts site) :
    MeetsCall p passes' facts site := by
  unfold MeetsCall
  split
  · next kind =>
    intro callee found
    obtain ⟨hbinds, hself⟩ := h.linked kind found
    exact ⟨hbinds.weaken hle, fun r v hr hv => hself r v hr (hv.strengthen hle)⟩
  · next kind =>
    intro receiver hr o ho callee found
    obtain ⟨hbinds, hself⟩ := h.dispatched kind hr ho found
    exact ⟨hbinds.weaken hle, fun v hv => hself v (hv.strengthen hle)⟩

theorem Solves.weaken {entry : MethodName} (h : Solves p passes entry facts) :
    Solves p passes' entry facts := by
  refine ⟨h.entry, fun name m hname hm x hx => ?_⟩
  have hmeets := h.statements name m hname hm x hx
  obtain ⟨place, i⟩ := x
  cases i with
  | call call => exact MeetsCall.weaken hle hmeets
  | _ => exact hmeets

end Weaken

/-- What every solution holds. -/
def leastSolution (p : Program) (passes : Call → Body → Prop) (entry : MethodName) : Set Fact :=
  ⋂₀ {facts | Solves p passes entry facts}

section Least

variable {p : Program} {passes : Call → Body → Prop} {S : Set (Set Fact)}

theorem includes_sInter {source target : Location}
    (h : ∀ facts ∈ S, Includes facts source target) : Includes (⋂₀ S) source target :=
  fun a ha facts hf => h facts hf a (ha facts hf)

theorem binds_sInter {site : CallSite} {callee : Method}
    (h : ∀ facts ∈ S, Binds passes facts site callee) : Binds passes (⋂₀ S) site callee where
  edge facts hf := (h facts hf).edge
  reachable facts hf := (h facts hf).reachable
  flow body hb hp e he := includes_sInter fun facts hf => (h facts hf).flow body hb hp e he

theorem meetsCall_sInter {site : CallSite} (h : ∀ facts ∈ S, MeetsCall p passes facts site) :
    MeetsCall p passes (⋂₀ S) site := by
  unfold MeetsCall at h ⊢
  split
  · next hk =>
    simp only [if_pos hk] at h
    intro callee hfound
    refine ⟨binds_sInter fun facts hf => (h facts hf callee hfound).1, ?_⟩
    intro receiver self hr hself
    exact includes_sInter fun facts hf => (h facts hf callee hfound).2 receiver self hr hself
  · next hk =>
    simp only [if_neg hk] at h
    intro receiver hr o ho callee hfound
    refine ⟨binds_sInter fun facts hf => (h facts hf receiver hr o (ho facts hf) callee hfound).1,
      ?_⟩
    intro self hself facts hf
    exact (h facts hf receiver hr o (ho facts hf) callee hfound).2 self hself

theorem meets_sInter {m : Method} {place : Place} {i : Instruction}
    (h : ∀ facts ∈ S, Meets p passes facts m place i) : Meets p passes (⋂₀ S) m place i := by
  cases i with
  | allocate target type => exact h
  | copy | loadStatic | storeStatic => exact includes_sInter h
  | loadField | storeField | loadElement | storeElement =>
    intro o ho
    exact includes_sInter fun facts hf => h facts hf o (ho facts hf)
  | call call => exact meetsCall_sInter h
  | ret value =>
    intro v r hv hr
    exact includes_sInter fun facts hf => h facts hf v r hv hr
  | other => trivial

/-- **There is a least solution.** -/
theorem isLeast_leastSolution (p : Program) (passes : Call → Body → Prop) (entry : MethodName) :
    IsLeast {facts | Solves p passes entry facts} (leastSolution p passes entry) := by
  constructor
  · constructor
    · exact fun facts hf => hf.entry
    · intro name m hname hm s hs
      exact meets_sInter fun facts hf => hf.statements name m (hname facts hf) hm s hs
  · exact fun facts hf => Set.sInter_subset_of_mem hf

end Least

/-! ### The facts of a state -/

end Solver

/-- The location of a pointer, if its object is on the heap. -/
def Heap.locate? (h : Heap) : Pointer → Option Location
  | .var v => some (.var v)
  | .static f => some (.static f)
  | .field base f => (h.allocation? base).map fun a => .field a f
  | .element array => (h.allocation? array).map .element

theorem Heap.locate?_field {h : Heap} {o : ObjectId} {a : Allocation} (f : FieldName)
    (ho : h.allocation? o = some a) : h.locate? (.field o f) = some (.field a f) :=
  Option.map_eq_some_iff.2 ⟨a, ho, rfl⟩

theorem Heap.locate?_element {h : Heap} {o : ObjectId} {a : Allocation}
    (ho : h.allocation? o = some a) : h.locate? (.element o) = some (.element a) :=
  Option.map_eq_some_iff.2 ⟨a, ho, rfl⟩

theorem Heap.locate?_injective (h : Heap) {q q' : Pointer} {l : Location}
    (hq : h.locate? q = some l) (hq' : h.locate? q' = some l) : q = q' := by
  have field : ∀ {o a f q'}, h.allocation? o = some a → h.locate? q' = some (.field a f) →
      .field o f = q' := by
    intro o a f q' ho hq'
    cases q' with
    | field o' f' =>
      obtain ⟨a', ho', heq⟩ := Option.map_eq_some_iff.1 hq'
      obtain ⟨rfl, rfl⟩ := Location.field.inj heq
      rw [h.allocation?_injective ho ho']
    | element o' =>
      obtain ⟨a', -, heq⟩ := Option.map_eq_some_iff.1 hq'
      cases heq
    | var | static => cases hq'
  have element : ∀ {o a q'}, h.allocation? o = some a → h.locate? q' = some (.element a) →
      .element o = q' := by
    intro o a q' ho hq'
    cases q' with
    | element o' =>
      obtain ⟨a', ho', heq⟩ := Option.map_eq_some_iff.1 hq'
      obtain rfl := Location.element.inj heq
      rw [h.allocation?_injective ho ho']
    | field o' f' =>
      obtain ⟨a', -, heq⟩ := Option.map_eq_some_iff.1 hq'
      cases heq
    | var | static => cases hq'
  cases q with
  | field o f =>
    obtain ⟨a, ho, rfl⟩ := Option.map_eq_some_iff.1 hq
    exact field ho hq'
  | element o =>
    obtain ⟨a, ho, rfl⟩ := Option.map_eq_some_iff.1 hq
    exact element ho hq'
  | var v | static f =>
    cases hq
    cases q' <;> simp_all [locate?]

namespace Solver.State

/-- The facts that a state has found. A pointer without a node points to nothing. -/
def facts (s : State) : Set Fact :=
  {fact | match fact with
    | .reachable m => m ∈ s.calls.reachable.items
    | .calls site callee => (site, callee) ∈ s.calls.edges.keys
    | .pointsTo l a => ∃ q o, o ∈ (s.pointsTo q).items ∧ s.heap.locate? q = some l ∧
        s.heap.allocation? o = some a}

end Solver.State

end PointsTo
