import PointsTo.Proofs.Deliveries
import PointsTo.Proofs.Solution

/-!
How often things are done. In a run that finds its end, every delivery that was put on the work list
has been taken, and each use of a variable in a reachable method has served each object of the
variable once and left its edges: the deliveries to a variable bring each object once, and no use is
registered with a variable that has an object already.
-/
namespace PointsTo.Solver

/-! ### Uses -/

/-- Everything that is done through a variable, the accesses first. -/
def Uses.all (u : Uses) : List Use := u.accesses.map .access ++ u.calls.map .call

/-- What an instruction does through the variable through which it acts. -/
def useOf? (place : Place) : Instruction → Option Use
  | .loadField target _ f => some (.access (.load target f))
  | .storeField _ f source => some (.access (.store f source))
  | .loadElement target _ => some (.access (.loadElement target))
  | .storeElement _ source => some (.access (.storeElement source))
  | .call call => some (.call ⟨place, call⟩)
  | _ => none

/-- What a statement does through a variable. -/
def useThrough (v : Variable) (x : Place × Instruction) : Option Use :=
  if base? x.2 = some v then useOf? x.1 x.2 else none

/-- What the statements of a method do through a variable, in their order. -/
def usesIn (p : Program) (v : Variable) (name : MethodName) : List Use :=
  match p.method? name with
  | none => []
  | some m => m.placed.filterMap (useThrough v)

namespace State

/-- The methods whose statements have been processed. -/
def processed (s : State) : List MethodName :=
  s.calls.reachable.items.filter fun m => m ∉ s.pending

/-- The uses of a variable that have served an object, in the order in which they did. -/
def servicesOf (s : State) (v : Variable) (o : ObjectId) : List Use :=
  (s.services.toList.filter fun x => x.base = v ∧ x.object = o).map Service.use

end State

/-- What a use leaves when it serves an object: the edge between a variable and a field or the
elements of the object, or a call that has been dispatched for the object. -/
def Use.Leaves (p : Program) (s : State) (o : ObjectId) : Use → Prop
  | .access (.store f source) => (.var source, .field o (p.fieldOf f)) ∈ s.graph.edges.items
  | .access (.load target f) => (.field o (p.fieldOf f), .var target) ∈ s.graph.edges.items
  | .access (.storeElement source) => (.var source, .element o) ∈ s.graph.edges.items
  | .access (.loadElement target) => (.element o, .var target) ∈ s.graph.edges.items
  | .call site => Dispatched p s o (s.heap.typeOf o) site

/-- Uses that have been turned into edges for an object have each left what they leave. -/
theorem Served.leaves {p : Program} {s : State} {u : Uses} {o : ObjectId} {use : Use}
    (h : Served p s u o (s.heap.typeOf o)) (huse : use ∈ u.all) : use.Leaves p s o := by
  simp only [Uses.all, Uses.accesses, List.map_append, List.map_map, List.mem_append,
    List.mem_map, Function.comp_apply] at huse
  cases use with
  | access a =>
    cases a with
    | store f source => exact h.stores (f, source) (by simpa using huse)
    | load target f => exact h.loads (target, f) (by simpa using huse)
    | storeElement source => exact h.elementStores source (by simpa using huse)
    | loadElement target => exact h.elementLoads target (by simpa using huse)
  | call site => exact h.calls site (by simpa using huse)

section Register

variable {p : Program} {s t : State} {m : Method} {place : Place} {i : Instruction} {v : Variable}

/-- A registration adds the use of its statement to those of the variable. -/
theorem perm_register (u : Uses) (h : base? i = some v) :
    ({ u.register place i with base := v } : Uses).all.Perm (u.all ++ (useOf? place i).toList) := by
  rw [List.perm_iff_count]
  intro use
  cases i with
  | loadField | storeField | loadElement | storeElement | call =>
    simp only [Uses.all, Uses.accesses, Uses.register, useOf?, Option.toList_some, List.map_append,
      List.map_cons, List.map_nil, List.count_append]
    omega
  | _ => cases h

theorem perm_process (goes : s.process p m place i = .going t) (v : Variable) :
    (t.usesOf v).all.Perm ((s.usesOf v).all ++ (useThrough v (place, i)).toList) := by
  unfold useThrough
  cases hbase : base? i with
  | none =>
    rw [((acts_process s m place i).of_going goes).usesOf_eq hbase]
    simp
  | some w =>
    obtain rfl := eq_addUse_of_process hbase goes
    rw [State.usesOf_addUse]
    by_cases hw : w = v
    · subst hw
      rw [if_pos rfl, if_pos rfl]
      exact perm_register _ hbase
    · rw [if_neg hw, if_neg (by simpa using hw)]
      simp

/-- The statements of a list register their uses and serve none. -/
theorem registered_statements (m : Method) (items : List (Place × Instruction)) :
    ∀ s t, forEach (fun x u => State.process u p m x.1 x.2) items s = .going t →
      Acted s t ∧ t.services = s.services ∧
        ∀ v, (t.usesOf v).all.Perm ((s.usesOf v).all ++ items.filterMap (useThrough v)) := by
  induction items with
  | nil =>
    intro s t goes
    cases goes
    exact ⟨.refl s, rfl, fun v => by simp⟩
  | cons x rest ih =>
    intro s t goes
    obtain ⟨u, hx, goes⟩ := forEach_cons_eq_going.1 goes
    obtain ⟨hacted, hservices, hperm⟩ := ih u t goes
    have posts := posts_process s p m x.1 x.2
    rw [hx] at posts
    refine ⟨((acts_process s m x.1 x.2).of_going hx).acted.trans hacted,
      hservices.trans posts.services, fun v => ?_⟩
    have hfilter : (x :: rest).filterMap (useThrough v) =
        (useThrough v x).toList ++ rest.filterMap (useThrough v) := by
      cases hu : useThrough v x <;> simp [hu]
    rw [hfilter, ← List.append_assoc]
    exact (hperm v).trans ((perm_process hx v).append_right _)

theorem registered_processMethod {name : MethodName} (goes : s.processMethod p name = .going t) :
    Acted s t ∧ t.services = s.services ∧
      ∀ v, (t.usesOf v).all.Perm ((s.usesOf v).all ++ usesIn p v name) := by
  unfold usesIn
  cases hm : p.method? name with
  | none =>
    unfold State.processMethod at goes
    rw [hm] at goes
    cases goes
    exact ⟨.refl s, rfl, fun v => by simp⟩
  | some m =>
    rw [processMethod_of_found hm] at goes
    exact registered_statements m m.placed s t goes

end Register

/-! ### Services -/

section Serve

variable {p : Program} {s t : State} {v : Variable} {o : ObjectId}

theorem services_materialize (s : State) (p : Program) (u : Uses) (o : ObjectId) :
    (s.materialize p u o).services.toList =
      s.services.toList ++ u.accesses.map fun a => ⟨u.base, o, .access a⟩ := by
  have fold : ∀ (items : List Access) (s : State),
      (items.foldl (fun s a => (s.serve u.base o (.access a)).access p o a) s).services.toList =
        s.services.toList ++ items.map fun a => ⟨u.base, o, .access a⟩ := by
    intro items
    induction items with
    | nil => exact fun s => (List.append_nil _).symm
    | cons a rest ih =>
      intro s
      have posts := posts_access (s.serve u.base o (.access a)) p o a
      rw [List.foldl_cons, ih, posts.services, State.serve, Array.toList_push]
      simp
  exact fold u.accesses s

theorem services_processCalls {sites : List CallSite}
    (goes : forEach (fun site t => (State.serve t v o (.call site)).dispatchCall p o site) sites s =
      .going t) :
    t.services.toList = s.services.toList ++ sites.map fun site => ⟨v, o, .call site⟩ := by
  induction sites generalizing s with
  | nil =>
    cases goes
    exact (List.append_nil _).symm
  | cons site rest ih =>
    obtain ⟨u, hsite, goes⟩ := forEach_cons_eq_going.1 goes
    have posts := posts_dispatchCall (s.serve v o (.call site)) p o site
    rw [hsite] at posts
    have hservices : u.services = (s.serve v o (.call site)).services := posts.services
    rw [ih goes, hservices, State.serve, Array.toList_push]
    simp

theorem services_discover (goes : s.discover p v o = .going t) :
    t.services.toList = s.services.toList ++ (s.usesOf v).all.map fun use => ⟨v, o, use⟩ := by
  rw [discover_eq] at goes
  rw [services_processCalls goes, services_materialize, State.base_usesOf, Uses.all,
    List.map_append, List.map_map, List.map_map, List.append_assoc]
  rfl

/-- Each use of the variable serves the object, and no other use and no other object is served. -/
theorem servicesOf_discover (goes : s.discover p v o = .going t) (w : Variable) (x : ObjectId) :
    t.servicesOf w x = s.servicesOf w x ++ if w = v ∧ x = o then (s.usesOf v).all else [] := by
  have hserves : (((s.usesOf v).all.map fun use => (⟨v, o, use⟩ : Service)).filter
      fun y => y.base = w ∧ y.object = x).map Service.use =
        if w = v ∧ x = o then (s.usesOf v).all else [] := by
    rw [List.filter_map, List.map_map]
    split
    · next h =>
      obtain ⟨rfl, rfl⟩ := h
      rw [List.filter_eq_self.2 fun use _ => by simp]
      exact List.map_id _
    · next h =>
      rw [List.filter_eq_nil_iff.2 fun use _ => ?_]
      · rfl
      · simp only [Function.comp_apply, decide_eq_true_eq]
        exact fun hv => h ⟨hv.1.symm, hv.2.symm⟩
  unfold State.servicesOf
  rw [services_discover goes, List.filter_append, List.map_append, hserves]

/-- The objects of a list are served one after the other, each once. -/
theorem servicesOf_objects {items : List ObjectId} (nodup : items.Nodup)
    (goes : forEach (fun o t => State.discover t p v o) items s = .going t) :
    Acted s t ∧ t.uses = s.uses ∧ ∀ w x, t.servicesOf w x =
      s.servicesOf w x ++ if w = v ∧ x ∈ items then (s.usesOf v).all else [] := by
  induction items generalizing s with
  | nil =>
    cases goes
    exact ⟨.refl _, rfl, fun w x => by simp⟩
  | cons o rest ih =>
    obtain ⟨u, ho, goes⟩ := forEach_cons_eq_going.1 goes
    obtain ⟨hnot, hrest⟩ := List.nodup_cons.1 nodup
    obtain ⟨hacted, huses, hserves⟩ := ih hrest goes
    have act := (acts_discover s v o).of_going ho
    have hsame := State.usesOf_congr act.object_frame.2 v
    refine ⟨act.acted.trans hacted, huses.trans act.object_frame.2, fun w x => ?_⟩
    rw [hserves, servicesOf_discover ho, hsame, List.append_assoc]
    congr 1
    by_cases hw : w = v
    · by_cases hx : x = o
      · simp [hw, hx, hnot]
      · simp [hw, hx]
    · simp [hw]

/-- The new objects of a delivery are served by the uses of its variable, each once. -/
theorem servicesOf_accept {d : Delivery} {work : Queue Delivery}
    (goes : State.accept { s with work } p d = .going t) :
    Acted (s.take d work) t ∧ t.uses = s.uses ∧ ∀ w x, t.servicesOf w x = s.servicesOf w x ++
      if .var w = d.pointer ∧ x ∈ (s.fresh d.pointer d.objects).items then (s.usesOf w).all
      else [] := by
  have huses : (s.take d work).uses = s.uses := (take_frame s d work).2.2.1
  have hservices : (s.take d work).services = s.services := (take_record s d work).2.2.2
  rw [accept_eq] at goes
  split at goes
  · next v hv =>
    have nodup := (s.fresh d.pointer d.objects).keys_nodup
    rw [OrderedSet.keys_eq_items] at nodup
    obtain ⟨hacted, hsame, hserves⟩ := servicesOf_objects nodup goes
    refine ⟨hacted, hsame.trans huses, fun w x => ?_⟩
    have hof := State.usesOf_congr huses v
    have hbefore : (s.take d work).servicesOf w x = s.servicesOf w x := by
      unfold State.servicesOf
      rw [hservices]
    rw [hserves, hbefore, hof, hv]
    by_cases hw : w = v
    · simp [hw]
    · simp [hw]
  · next hnot =>
    cases goes
    refine ⟨.refl _, huses, fun w x => ?_⟩
    rw [if_neg fun h => hnot w h.1.symm, List.append_nil]
    unfold State.servicesOf
    rw [hservices]

end Serve

/-! ### Once -/

section Processed

variable {s t : State}

/-- What is put down is not processed yet. -/
theorem Acted.processed_eq (h : Acted s t) : t.processed = s.processed := by
  obtain ⟨new, hpending, hreachable, -, hnew⟩ := h.put_down
  unfold State.processed
  have hnone : (new.filter fun m => m ∉ s.pending ++ new) = [] := by
    rw [List.filter_eq_nil_iff]
    intro m hm
    simp [hm]
  rw [hpending, hreachable, List.filter_append, hnone, List.append_nil]
  refine List.filter_congr fun m hm => ?_
  have hold : m ∉ new := fun h => hnew m h hm
  simp [hold]

/-- A method that is taken to be processed comes to those that have been. -/
theorem processed_settle (h : s.Orderly) {name : MethodName} {rest : List MethodName}
    (next : s.pending = name :: rest) :
    (State.processed { s with pending := rest }).Perm (s.processed ++ [name]) := by
  have hkeys := s.calls.reachable.keys_nodup
  rw [OrderedSet.keys_eq_items] at hkeys
  have hpending := h.nodup
  rw [next, List.nodup_cons] at hpending
  have hname : name ∈ s.calls.reachable.items := h.reached name (by simp [next])
  have hnot : name ∉ s.processed := by simp [State.processed, next]
  refine (List.perm_ext_iff_of_nodup (hkeys.filter _) ?_).2 fun m => ?_
  · rw [List.nodup_append]
    refine ⟨hkeys.filter _, List.nodup_singleton _, ?_⟩
    rintro m hm n hn rfl
    rw [List.mem_singleton] at hn
    exact hnot (hn ▸ hm)
  · simp only [State.processed, next, List.mem_append, List.mem_filter,
      List.mem_cons, decide_eq_true_eq, not_or]
    by_cases hm : m = name
    · subst hm
      simp [hname, hpending.1]
    · simp [hm]

end Processed

/-- The uses that are registered are those of the methods that have been processed, and those of a
variable have served each object of the variable once. -/
structure Recorded (p : Program) (s : State) : Prop where
  uses : ∀ v, (s.usesOf v).all.Perm (s.processed.flatMap (usesIn p v))
  services : ∀ v o, (s.servicesOf v o).Perm
    (if o ∈ (s.pointsTo (.var v)).items then (s.usesOf v).all else [])

section Recorded

variable {p : Program} {s t : State}

theorem usesIn_eq_nil (hp : p.Proper) {v : Variable} (hd : Dry p s v) {name : MethodName}
    (hname : name ∈ s.pending) (hv : (s.pointsTo (.var v)).items ≠ []) :
    usesIn p v name = [] := by
  unfold usesIn
  cases hm : p.method? name with
  | none => rfl
  | some m =>
    refine List.filterMap_eq_nil_iff.2 fun x hx => if_neg fun hbase => hv ?_
    exact hd name hname m hm (hp.owned_of_placed hm hx (base?_mem_vars hbase))

/-- **A use is registered before any object reaches its variable.** -/
theorem Recorded.processMethod (hp : p.Proper) (h : Recorded p s) (ho : s.Orderly)
    (dry : ∀ v, Dry p s v) {name : MethodName} {rest : List MethodName}
    (next : s.pending = name :: rest)
    (goes : State.processMethod { s with pending := rest } p name = .going t) : Recorded p t := by
  obtain ⟨hacted, hservices, hperm⟩ := registered_processMethod goes
  have hset : ∀ q, t.pointsTo q = s.pointsTo q := hacted.objects
  refine ⟨fun v => ?_, fun v o => ?_⟩
  · have hprocessed := (processed_settle ho next).flatMap_right (usesIn p v)
    rw [List.flatMap_append, List.flatMap_singleton] at hprocessed
    rw [hacted.processed_eq]
    exact (hperm v).trans (((h.uses v).append_right _).trans hprocessed.symm)
  · have hsame : t.servicesOf v o = s.servicesOf v o := by
      unfold State.servicesOf
      rw [hservices]
    have hserved := h.services v o
    rw [hsame, hset]
    split
    · next ho =>
      rw [if_pos ho] at hserved
      have hnil := usesIn_eq_nil hp (dry v) (next ▸ List.mem_cons_self : name ∈ s.pending)
        (List.ne_nil_of_mem ho)
      have huses := hperm v
      rw [hnil, List.append_nil] at huses
      exact hserved.trans huses.symm
    · next ho => rwa [if_neg ho] at hserved

/-- **A delivery serves its new objects only, so that no object is served twice.** -/
theorem Recorded.accept {d : Delivery} {work : Queue Delivery} (h : Recorded p s)
    (goes : State.accept { s with work } p d = .going t) : Recorded p t := by
  obtain ⟨hacted, huses, hserves⟩ := servicesOf_accept goes
  obtain ⟨-, hcalls, -, hpending, -⟩ := take_frame s d work
  have hof := State.usesOf_congr huses
  refine ⟨fun v => ?_, fun v o => ?_⟩
  · have hprocessed : t.processed = s.processed := by
      rw [hacted.processed_eq]
      unfold State.processed
      rw [hcalls, hpending]
    rw [hof, hprocessed]
    exact h.uses v
  · have hserved := h.services v o
    have hmem : o ∈ (t.pointsTo (.var v)).items ↔ o ∈ (s.pointsTo (.var v)).items ∨
        (.var v = d.pointer ∧ o ∈ d.objects.items) := by
      rw [hacted.objects]
      exact mem_pointsTo_take
    rw [hserves, hof]
    by_cases hold : o ∈ (s.pointsTo (.var v)).items
    · have hnot : ¬ (.var v = d.pointer ∧ o ∈ (s.fresh d.pointer d.objects).items) := by
        rintro ⟨hv, hfresh⟩
        rw [← hv] at hfresh
        exact (State.mem_fresh.1 hfresh).2 hold
      rw [if_neg hnot, List.append_nil, if_pos (hmem.2 (.inl hold))]
      rwa [if_pos hold] at hserved
    · rw [if_neg hold, List.perm_nil] at hserved
      have hiff : (.var v = d.pointer ∧ o ∈ (s.fresh d.pointer d.objects).items) ↔
          o ∈ (t.pointsTo (.var v)).items := by
        rw [hmem, State.mem_fresh]
        constructor
        · exact fun ⟨hv, ho, _⟩ => .inr ⟨hv, ho⟩
        · intro hor
          obtain ⟨hv, ho⟩ := hor.resolve_left hold
          exact ⟨hv, ho, hv ▸ hold⟩
      rw [hserved, List.nil_append]
      simp only [hiff]
      exact .refl _

theorem Recorded.settles (hp : p.Proper) (h : Recorded p s) (hc : Coherent p s)
    (attended : ∀ v, Attended p s v) {r : Progress} (hs : Settles p s r) (goes : r = .going t) :
    Recorded p t := by
  have kept := hs.keep (fun u => Coherent p u ∧ (∀ v, Attended p u v) ∧ Recorded p u)
    (fun hu next goes => by
      obtain ⟨hcoherent, hattended⟩ := hu.1.processMethod hp next goes
      exact ⟨hcoherent, fun v => hattended v (hu.2.1 v), hu.2.2.processMethod hp
        hu.1.faithful.orderly (fun v => (hu.2.1 v).dry) next goes⟩) ⟨hc, attended, h⟩ goes
  exact kept.2.2

theorem Recorded.delivers (hp : p.Proper) (h : Recorded p s) (hs : Steady p Set.univ s)
    {d : Delivery} {work : Queue Delivery} (next : s.work.pop? = some (d, work))
    (delivers : Delivers p { s with work } d (.going t)) : Recorded p t := by
  cases delivers with
  | settle goes settles =>
    obtain ⟨hcoherent, hattended⟩ := hs.coherent.accept hp next goes
    exact (h.accept goes).settles hp hcoherent
      (fun v => hattended v (hs.attended v trivial) (hs.inTime trivial next)) settles rfl

theorem State.Fresh.recorded_opened (h : s.Fresh) (m : MethodName) : Recorded p (s.opened m) := by
  have asked := Asked.opened s m
  have hof : ∀ v, (s.opened m).usesOf v = { base := v } :=
    usesOf_of_unused (asked.uses.trans h.uses)
  refine ⟨fun v => ?_, fun v o => ?_⟩
  · have hprocessed : (s.opened m).processed = [] := by
      rw [asked.toActed.processed_eq]
      unfold State.processed
      rw [h.calls]
      rfl
    rw [hof, hprocessed]
    exact .refl _
  · have hservices : (s.opened m).servicesOf v o = [] := by
      unfold State.servicesOf
      rw [(posts_opened s m).services, h.services]
      rfl
    have hnone : ({ base := v } : Uses).all = [] := rfl
    rw [hservices, hof, hnone, ite_self]

end Recorded

section Once

variable {p : Program}

/-- An analysis that finds its end has served every object of every variable, and left nothing to
do. -/
theorem recorded_solve (hp : p.Proper) {heap : Heap} {phantoms : PhantomFields}
    {log : Array Event} {entry : Option Method} {s : State}
    (goes : State.solve { heap, phantoms, log } p entry = .going s) :
    Recorded p s ∧ (∀ v, ∀ o ∈ (s.pointsTo (.var v)).items,
      Served p s (s.usesOf v) o (s.heap.typeOf o)) ∧ s.pending = [] ∧ s.work.pop? = none := by
  have fresh := State.fresh_initial heap phantoms log
  cases entry with
  | none => cases goes
  | some m =>
    by_cases hasBody : m.body.isSome
    · rw [solve_eq_explore hasBody] at goes
      obtain ⟨t, he, goes⟩ := Progress.andThen_eq_going.1 goes
      cases goes
      obtain ⟨hsteady, hidle, hrecorded⟩ := explore_keep hp (Recorded p)
        (fun hc attended h next goes =>
          h.processMethod hp hc.faithful.orderly (fun v => (attended v).dry) next goes)
        (fun hs h next delivers => h.delivers hp hs next delivers)
        (fresh.recorded_opened m.id) he
      have ext := (State.agrees_record t (.finished t.summary)).extends
      exact ⟨⟨hrecorded.uses, hrecorded.services⟩,
        fun v o ho => ((hsteady.attended v trivial).served o ho).mono ext, hsteady.settled, hidle⟩
    · unfold State.solve at goes
      rw [start_of_bodyless hasBody] at goes
      cases goes

/-- **Everything is done once.** Whatever the end of an analysis, the deliveries to a pointer have
brought each of its objects once, in the order of its set. At an end without a fault, each delivery
that was put on the work list has been taken once, and each use of a variable in a reachable method
has served each object of the variable once and no other object, and has left its edge or the
bindings of its call. -/
theorem solve_does_everything_once (h : Jimple.Parsed p) (heap : Heap) (phantoms : PhantomFields)
    (log : Array Event) (entry : Option Method) :
    (∀ q, ((State.solve { heap, phantoms, log } p entry).state.news q).Pairwise List.Disjoint ∧
      ((State.solve { heap, phantoms, log } p entry).state.news q).flatten =
        ((State.solve { heap, phantoms, log } p entry).state.pointsTo q).items) ∧
    ∀ s, State.solve { heap, phantoms, log } p entry = .going s →
      s.taken = s.sent.toList ∧ s.iterations = s.sent.size ∧
      ∀ v o, (s.servicesOf v o).Perm (if o ∈ (s.pointsTo (.var v)).items
        then s.calls.reachable.items.flatMap (usesIn p v) else []) ∧
        ∀ use ∈ s.servicesOf v o, use.Leaves p s o := by
  have ledger := ledger_solve (State.fresh_initial heap phantoms log) p entry
  refine ⟨fun q => ⟨ledger.disjoint q, ledger.news q⟩, fun s goes => ?_⟩
  obtain ⟨recorded, served, settled, idle⟩ := recorded_solve h.proper goes
  rw [goes, Progress.state_going] at ledger
  have hsent : s.sent.toList = s.taken := by
    rw [ledger.sent, Queue.pop?_eq_none_iff.1 idle, List.append_nil]
  refine ⟨hsent.symm, ?_, fun v o => ⟨?_, fun use huse => ?_⟩⟩
  · have hlength := congrArg List.length hsent
    rw [State.taken, List.length_map, Array.length_toList, Array.length_toList] at hlength
    rw [ledger.iterations, hlength]
  · have hprocessed : s.processed = s.calls.reachable.items := by
      unfold State.processed
      rw [settled]
      simp
    have huses := recorded.uses v
    rw [hprocessed] at huses
    refine (recorded.services v o).trans ?_
    split
    · exact huses
    · exact .refl _
  · have hmem := (recorded.services v o).mem_iff.1 huse
    split at hmem
    · next ho => exact (served v o ho).leaves hmem
    · cases hmem

/-- The store in the method of the knot that calls itself, and the call behind it, of one object. -/
theorem knot_services : (Jimple.knot.main?.all fun m =>
    let s := (analyzeFrom Jimple.knot m).state
    s.iterations = 4 ∧ s.servicesOf ⟨"<A: void m()>", "r"⟩ 0 =
      [.access (.store ⟨"A", "f", "A"⟩ ⟨"<A: void m()>", "r"⟩),
        .call ⟨.within ⟨"A", "void m()"⟩ 2 12,
          ⟨.virtual, ⟨"A", "m", [], "void"⟩, some ⟨"<A: void m()>", "r"⟩, [], none⟩⟩]) = true := by
  decide +kernel

theorem solve_does_everything_once_knot :
    Jimple.Parsed Jimple.knot ∧ ∃ m s, Jimple.knot.main? = some m ∧
      State.solve { log := #[.asked Jimple.knot.classes.size m.id] } Jimple.knot (some m) =
        .going s ∧
      s.taken = s.sent.toList ∧ s.sent.size = 4 ∧
      (∀ v o, (s.servicesOf v o).Perm (if o ∈ (s.pointsTo (.var v)).items
        then s.calls.reachable.items.flatMap (usesIn Jimple.knot v) else [])) ∧
      (s.servicesOf ⟨"<A: void m()>", "r"⟩ 0).length = 2 ∧
      (.var ⟨"<A: void m()>", "r"⟩, .field 0 ⟨"A", "f"⟩) ∈ s.graph.edges.items := by
  obtain ⟨m, hm, hfault⟩ := (Option.any_eq_true _ _).1 Jimple.knot_runs.1
  have goes := Progress.eq_going hfault
  obtain ⟨htaken, hcount, honce⟩ :=
    (solve_does_everything_once Jimple.parsed_knot ∅ ∅ _ (some m)).2 _ goes
  have hservices := knot_services
  rw [hm] at hservices
  obtain ⟨hiterations, hserved⟩ := of_decide_eq_true hservices
  refine ⟨Jimple.parsed_knot, m, _, hm, goes, htaken, hcount.symm.trans hiterations,
    fun v o => (honce v o).1, by rw [hserved]; rfl, ?_⟩
  have hfield : Jimple.knot.fieldOf ⟨"A", "f", "A"⟩ = ⟨"A", "f"⟩ := by decide +kernel
  rw [← hfield]
  -- the store is the first of what has served the object
  exact (honce _ 0).2 (.access (.store ⟨"A", "f", "A"⟩ ⟨"<A: void m()>", "r"⟩))
    (hserved ▸ List.mem_cons_self)

end Once

end PointsTo.Solver
