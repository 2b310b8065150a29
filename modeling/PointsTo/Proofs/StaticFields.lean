import PointsTo.Proofs.Signatures
import PointsTo.Proofs.Steps

/-!
The declarations of static fields. A static field has its type from the declaration that was found
when its node came into being, or from the first reference where none was found. Whatever the
analysis does, no static field is spoken of without such a declaration, and the type and the name in
it are words, as they were read.
-/
namespace PointsTo.Solver

open Jimple (SpelledField)

/-- The fields that are used through a variable are words. -/
structure Uses.Spelled (u : Uses) : Prop where
  stores : ∀ x ∈ u.stores, SpelledField x.1.type x.1.name
  loads : ∀ x ∈ u.loads, SpelledField x.2.type x.2.name

theorem Uses.Spelled.register {u : Uses} (hu : u.Spelled) (place : Place) {i : Instruction}
    (hi : Jimple.SpelledInstruction i) : (u.register place i).Spelled := by
  cases i with
  | loadField target base field =>
    refine ⟨hu.stores, fun x hx => ?_⟩
    rcases List.mem_append.1 hx with hx | hx
    · exact hu.loads x hx
    · obtain rfl := List.mem_singleton.1 hx
      exact hi.field field rfl
  | storeField base field source =>
    refine ⟨fun x hx => ?_, hu.loads⟩
    rcases List.mem_append.1 hx with hx | hx
    · exact hu.stores x hx
    · obtain rfl := List.mem_singleton.1 hx
      exact hi.field field rfl
  | _ => exact ⟨hu.stores, hu.loads⟩

/-- The pointer has a node, an edge to it or a delivery on its way. -/
def State.Mentions (s : State) (q : Pointer) : Prop :=
  q ∈ s.graph.nodes.keys ∨ (∃ e ∈ s.graph.edges.items, e.2 = q) ∨
    ∃ d ∈ s.work.toList, d.pointer = q

/-- If the pointer is a static field, its declaration is known. -/
def State.Permits (s : State) (q : Pointer) : Prop :=
  ∀ f, q = .static f → f ∈ s.graph.statics.keys

theorem State.permits_var (s : State) (v : Variable) : s.Permits (.var v) :=
  fun _ h => nomatch h

/-- The declarations of static fields are complete, and all fields are words. -/
structure Annotated (s : State) : Prop where
  permits : ∀ q, s.Mentions q → s.Permits q
  statics : ∀ f ∈ s.graph.statics.items, SpelledField f.type f.name
  phantoms : ∀ f ∈ s.phantoms.items, SpelledField f.type f.name
  uses : ∀ u ∈ s.uses.items, u.Spelled

namespace Annotated

variable {p : Program} {s t : State}

/-! ### Actions -/

section Actions

variable (h : Annotated s)

include h

theorem usesOf (v : Variable) : (s.usesOf v).Spelled := by
  unfold State.usesOf
  cases hv : s.uses.get? v with
  | none => exact ⟨nofun, nofun⟩
  | some u => exact h.uses u (Roster.mem_of_get? hv)

theorem touch {q : Pointer} (hq : s.Permits q) : Annotated (s.touch q) := by
  refine ⟨fun r hr => ?_, h.statics, h.phantoms, h.uses⟩
  rcases hr with hnode | hedge | hwork
  · rcases Roster.mem_keys_add.1 hnode with hnode | rfl
    · exact h.permits r (.inl hnode)
    · exact hq
  · exact h.permits r (.inr (.inl hedge))
  · exact h.permits r (.inr (.inr hwork))

theorem send {q : Pointer} (hq : s.Permits q) (objects : ObjectSet) :
    Annotated (s.send q objects) := by
  refine ⟨fun r hr => ?_, h.statics, h.phantoms, h.uses⟩
  rcases hr with hnode | hedge | ⟨d, hd, rfl⟩
  · exact h.permits r (.inl hnode)
  · exact h.permits r (.inr (.inl hedge))
  · rcases List.mem_append.1 (Queue.toList_push s.work ⟨q, objects⟩ ▸ hd) with hd | hd
    · exact h.permits _ (.inr (.inr ⟨d, hd, rfl⟩))
    · obtain rfl := List.mem_singleton.1 hd
      exact hq

theorem serve (v : Variable) (o : ObjectId) (use : Use) : Annotated (s.serve v o use) :=
  ⟨h.permits, h.statics, h.phantoms, h.uses⟩

theorem withEdge (a : Pointer) {b : Pointer} (hb : s.Permits b) : Annotated (s.withEdge a b) := by
  refine ⟨fun r hr => ?_, h.statics, h.phantoms, h.uses⟩
  rcases hr with hnode | ⟨e, he, rfl⟩ | hwork
  · exact h.permits r (.inl hnode)
  · rcases State.mem_edges_withEdge.1 he with he | rfl
    · exact h.permits _ (.inr (.inl ⟨e, he, rfl⟩))
    · exact hb
  · exact h.permits r (.inr (.inr hwork))

theorem flow {a b : Pointer} (ha : s.Permits a) (hb : s.Permits b) : Annotated (s.flow a b) := by
  have touched : Annotated ((s.touch a).touch b) := (h.touch ha).touch hb
  unfold State.flow
  by_cases hmem : (a, b) ∈ ((s.touch a).touch b).graph.edges.items
  · rw [State.addFlow_of_mem hmem]
    exact touched
  · rw [State.addFlow_of_not_mem hmem]
    split
    · exact touched.withEdge a hb
    · exact (touched.withEdge a hb).send hb _

theorem flow_vars (a b : Variable) : Annotated (s.flow (.var a) (.var b)) :=
  h.flow (s.permits_var a) (s.permits_var b)

theorem touchStatic {f : Field} (hf : SpelledField f.type f.name) :
    Annotated (s.touchStatic f) ∧ (s.touchStatic f).Permits (.static f.id) := by
  have more : ∀ g, g ∈ s.graph.statics.keys → g ∈ (s.touchStatic f).graph.statics.keys :=
    fun g hg => Roster.mem_keys_add.2 (.inl hg)
  have here : (s.touchStatic f).Permits (.static f.id) := by
    rintro g hg
    obtain rfl := Pointer.static.inj hg
    exact Roster.mem_keys_add.2 (.inr rfl)
  refine ⟨⟨fun r hr => ?_, fun g hg => ?_, h.phantoms, h.uses⟩, here⟩
  · rcases hr with hnode | hedge | hwork
    · rcases Roster.mem_keys_add.1 hnode with hnode | rfl
      · exact fun g hg => more g (h.permits r (.inl hnode) g hg)
      · exact here
    · exact fun g hg => more g (h.permits r (.inr (.inl hedge)) g hg)
    · exact fun g hg => more g (h.permits r (.inr (.inr hwork)) g hg)
  · rcases Roster.mem_of_mem_add hg with hg | rfl
    · exact h.statics g hg
    · exact hf

theorem addUse (v : Variable) {change : Uses → Uses}
    (hchange : ∀ u : Uses, u.Spelled → (change u).Spelled) : Annotated (s.addUse v change) := by
  refine ⟨h.permits, h.statics, h.phantoms, fun u hu => ?_⟩
  rcases Roster.mem_of_mem_put hu with hu | rfl
  · exact h.uses u hu
  · have changed := hchange _ (h.usesOf v)
    exact ⟨changed.stores, changed.loads⟩

theorem reach (m : MethodName) : Annotated (s.reach m) := by
  by_cases hm : m ∈ s.calls.reachable.items
  · rw [State.reach_of_mem hm]
    exact h
  · rw [State.reach_of_not_mem hm]
    exact ⟨h.permits, h.statics, h.phantoms, h.uses⟩

theorem withCall (site : CallSite) (callee : MethodName) :
    Annotated (s.withCall site callee) := by
  by_cases hmem : (site, callee) ∈ s.calls.edges.keys
  · rw [State.withCall_of_mem hmem]
    exact h
  · rw [State.withCall_of_not_mem hmem]
    have linked : Annotated (s.linked site callee) :=
      ⟨h.permits, h.statics, h.phantoms, h.uses⟩
    exact linked.reach callee

theorem propagate {q : Pointer} (hq : s.Permits q) (objects : ObjectSet) :
    Annotated (s.propagate q objects).2 := by
  have noted : Annotated (s.noted q objects) := ⟨h.permits, h.statics, h.phantoms, h.uses⟩
  rw [State.propagate_eq]
  dsimp only
  split
  · exact noted
  · have received : Annotated (s.received q objects) := by
      refine ⟨fun r hr => ?_, h.statics, h.phantoms, h.uses⟩
      rcases hr with hnode | hedge | hwork
      · rcases Roster.mem_keys_put.1 hnode with hnode | rfl
        · exact h.permits r (.inl hnode)
        · exact hq
      · exact h.permits r (.inr (.inl hedge))
      · exact h.permits r (.inr (.inr hwork))
    -- the objects go on along edges, to pointers that are spoken of
    have targets : ∀ r ∈ s.graph.successors q, s.Permits r := fun r hr =>
      h.permits r (.inr (.inl ⟨(q, r), FlowGraph.mem_successors.1 hr, rfl⟩))
    have all : ∀ (rs : List Pointer) (t : State), Annotated t → (∀ r ∈ rs, t.Permits r) →
        Annotated (rs.foldl (fun t r => t.send r (s.fresh q objects)) t) := by
      intro rs
      induction rs with
      | nil => exact fun t ht _ => ht
      | cons r rs ih =>
        exact fun t ht hrs => ih _ (ht.send (hrs r List.mem_cons_self) _)
          fun r' hr' => hrs r' (List.mem_cons_of_mem _ hr')
    exact all _ _ received targets

end Actions

/-! ### Rules -/

theorem resolve (hp : Jimple.Parsed p) (h : Annotated s) {ref : FieldRef}
    (href : SpelledField ref.type ref.name) :
    Annotated (s.resolve p ref).2 ∧
      SpelledField (s.resolve p ref).1.type (s.resolve p ref).1.name := by
  unfold State.resolve Program.resolveField
  cases hdeclared : p.declaredField? ref with
  | some f =>
    refine ⟨h, ?_⟩
    obtain ⟨c, hc, hf⟩ := List.exists_of_findSome?_eq_some hdeclared
    obtain ⟨line, read⟩ :=
      (hp.classRead c (Program.mem_ancestryWithin hc)).fields f (Roster.mem_of_get? hf)
    exact Jimple.spelled_readField read
  | none =>
    dsimp only
    cases hphantom : s.phantoms.get? ref.target with
    | some f => exact ⟨h, h.phantoms f (Roster.mem_of_get? hphantom)⟩
    | none =>
      refine ⟨⟨h.permits, h.statics, fun f hf => ?_, h.uses⟩, href⟩
      rcases Roster.mem_of_mem_add hf with hf | rfl
      · exact h.phantoms f hf
      · exact href

theorem bind (h : Annotated s) (site : CallSite) (callee : MethodName) (body : Body) :
    Annotated (s.bind site callee body).state := by
  rw [bind_eq]
  split
  · exact List.foldlRecOn _ _ h fun t ht e _ => ht.flow_vars e.1 e.2
  · exact h

theorem connect (h : Annotated s) (site : CallSite) (callee : Method) {more : State → State}
    (hmore : ∀ t, Annotated t → Annotated (more t)) :
    Annotated (s.connect site callee more).state := by
  have called := h.withCall site callee.id
  rw [State.connect_eq]
  split
  · exact h
  · split
    · exact hmore _ called
    · next body _ =>
      exact andThen_keeps Annotated (called.bind site callee.id body) hmore

theorem linkCall (h : Annotated s) (site : CallSite) : Annotated (s.linkCall p site).state := by
  unfold State.linkCall
  split
  · refine h.connect site _ fun t ht => ?_
    unfold State.passReceiver
    split
    · exact ht.flow_vars _ _
    · exact ht
  · exact ⟨h.permits, h.statics, h.phantoms, h.uses⟩

theorem dispatchCall (h : Annotated s) (o : ObjectId) (site : CallSite) :
    Annotated (s.dispatchCall p o site).state := by
  unfold State.dispatchCall
  split
  · refine connect ?_ site _ fun t ht => ht
    split
    · exact (h.touch (s.permits_var _)).send (State.permits_var _ _) _
    · exact h
  · exact h
  · exact ⟨h.permits, h.statics, h.phantoms, h.uses⟩
  · exact h

theorem process (hp : Jimple.Parsed p) (h : Annotated s) (m : Method) (place : Place)
    {i : Instruction} (hi : Jimple.SpelledInstruction i) :
    Annotated (s.process p m place i).state := by
  cases i with
  | allocate target type =>
    have allocated : Annotated (s.allocate ⟨place, type⟩).2 :=
      ⟨h.permits, h.statics, h.phantoms, h.uses⟩
    exact (allocated.touch (State.permits_var _ _)).send (State.permits_var _ _) _
  | copy target source => exact h.flow_vars _ _
  | loadStatic target field =>
    obtain ⟨resolved, hf⟩ := h.resolve hp (hi.field field rfl)
    obtain ⟨touched, here⟩ := resolved.touchStatic hf
    exact touched.flow here (State.permits_var _ _)
  | storeStatic field source =>
    obtain ⟨resolved, hf⟩ := h.resolve hp (hi.field field rfl)
    obtain ⟨touched, here⟩ := (resolved.touch (State.permits_var _ source)).touchStatic hf
    exact touched.flow (State.permits_var _ _) here
  | loadField target base => exact h.addUse base fun u hu => hu.register place hi
  | storeField base => exact h.addUse base fun u hu => hu.register place hi
  | loadElement target base => exact h.addUse base fun u hu => hu.register place hi
  | storeElement base => exact h.addUse base fun u hu => hu.register place hi
  | call call =>
    simp only [State.process]
    split
    · exact h.linkCall ⟨place, call⟩
    · split
      · exact h.addUse _ fun u hu => hu.register place hi
      · exact ⟨h.permits, h.statics, h.phantoms, h.uses⟩
  | ret value =>
    simp only [State.process]
    split
    · split
      · exact h
      · exact h.flow_vars _ _
    · exact h
  | other text => exact h

theorem access (hp : Jimple.Parsed p) (h : Annotated s) {u : Uses} (hu : u.Spelled) (o : ObjectId)
    {a : Access} (ha : a ∈ u.accesses) : Annotated (s.access p o a) := by
  have hmem := Uses.mem_accesses.1 ha
  cases a with
  | store field source =>
    exact (h.resolve hp (hu.stores _ hmem)).1.flow nofun nofun
  | load target field =>
    exact (h.resolve hp (hu.loads _ hmem)).1.flow nofun nofun
  | storeElement source => exact h.flow nofun nofun
  | loadElement target => exact h.flow nofun nofun

theorem discover (hp : Jimple.Parsed p) (h : Annotated s) (v : Variable) (o : ObjectId) :
    Annotated (s.discover p v o).state := by
  have materialized : Annotated (s.materialize p (s.usesOf v) o) := by
    refine List.foldlRecOn _ _ h fun t ht a ha => ?_
    exact (ht.serve _ o (.access a)).access hp (h.usesOf v) o ha
  exact forEach_keeps Annotated
    (fun site _ t ht => (ht.serve v o (.call site)).dispatchCall o site) materialized

/-! ### The run -/

theorem settleWithin (hp : Jimple.Parsed p) (limit : Nat) (h : Annotated s) :
    Annotated (State.settleWithin p limit s).state := by
  induction limit generalizing s with
  | zero => exact h
  | succ limit ih =>
    unfold State.settleWithin
    split
    · exact h
    · next name rest _ =>
      refine andThen_keeps Annotated ?_ fun t ht => ih ht
      have popped : Annotated { s with pending := rest } :=
        ⟨h.permits, h.statics, h.phantoms, h.uses⟩
      unfold State.processMethod
      split
      · exact popped
      · next m hm =>
        refine forEach_keeps Annotated (fun x hx t ht => ?_) popped
        exact ht.process hp m x.1 (hp.spelled_placed (Program.mem_methods_of_method? hm) hx)

theorem deliver (hp : Jimple.Parsed p) (h : Annotated s) {d : Delivery}
    (hd : s.Permits d.pointer) : Annotated (s.deliver p d).state := by
  have counted : Annotated { s with iterations := s.iterations + 1 } :=
    ⟨h.permits, h.statics, h.phantoms, h.uses⟩
  have propagated := counted.propagate hd d.objects
  refine andThen_keeps Annotated ?_ fun t ht => ht.settleWithin hp _
  unfold State.accept
  dsimp only
  split
  · exact forEach_keeps Annotated (fun o _ t ht => ht.discover hp _ o) propagated
  · exact propagated

theorem analyzeWithin (hp : Jimple.Parsed p) (limit : Nat) (h : Annotated s) :
    Annotated (State.analyzeWithin p limit s).state := by
  induction limit generalizing s with
  | zero => exact h
  | succ limit ih =>
    unfold State.analyzeWithin
    split
    · exact h
    · next d work next =>
      have hlist := Queue.toList_of_pop? next
      have popped : Annotated { s with work } := by
        refine ⟨fun q hq => h.permits q ?_, h.statics, h.phantoms, h.uses⟩
        rcases hq with hnode | hedge | ⟨e, he, rfl⟩
        · exact .inl hnode
        · exact .inr (.inl hedge)
        · exact .inr (.inr ⟨e, hlist ▸ List.mem_cons_of_mem _ he, rfl⟩)
      have permitted : s.Permits d.pointer :=
        h.permits _ (.inr (.inr ⟨d, hlist ▸ List.mem_cons_self, rfl⟩))
      exact andThen_keeps Annotated (popped.deliver hp permitted) fun t ht => ih ht

theorem initial : Annotated {} := by
  refine ⟨fun q hq => ?_, nofun, nofun, nofun⟩
  rcases hq with hnode | ⟨e, he, -⟩ | ⟨d, hd, -⟩
  · cases hnode
  · cases he
  · cases hd

end Annotated

/-- **In whatever way the analysis ends, the declarations of static fields are complete.** -/
theorem annotated_analyzeFrom {p : Program} (hp : Jimple.Parsed p) (entry : Method) :
    Annotated (analyzeFrom p entry).state := by
  have start := Annotated.initial
  refine andThen_keeps Annotated (andThen_keeps Annotated ?_ fun t ht => ?_) fun t ht => ?_
  · unfold State.start
    dsimp only
    split
    · exact ⟨start.permits, start.statics, start.phantoms, start.uses⟩
    · refine Annotated.settleWithin hp _ (Annotated.reach ?_ _)
      exact ⟨start.permits, start.statics, start.phantoms, start.uses⟩
  · exact ht.analyzeWithin hp _
  · exact ⟨ht.permits, ht.statics, ht.phantoms, ht.uses⟩

end PointsTo.Solver
