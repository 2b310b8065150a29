import Mathlib.Data.List.Nodup
import Mathlib.Data.List.Sort
import PointsTo.Proofs.Restart
import PointsTo.Proofs.Rosters
import PointsTo.Proofs.StaticFields
import PointsTo.Proofs.WrittenForms
import PointsTo.Report.Data

/-!
What the report as data keeps of a pointer analysis. Its points-to sets are told apart by the
written forms of their pointers. Those of variables, static fields and arrays are all different, and
so are those of objects; but a field of an object is written without the class that declares it, so
that fields that hide each other in one object have one entry, that of the last. Nothing else is
lost: where no field is hidden, the readable report can be made of the data.
-/
namespace PointsTo

/-- The fields are those of one object and have one name, but two classes declare them. -/
def Pointer.Hides : Pointer → Pointer → Prop
  | .field base f, .field base' f' =>
    base = base' ∧ f.name = f'.name ∧ f.declaringClass ≠ f'.declaringClass
  | _, _ => False

instance (q q' : Pointer) : Decidable (q.Hides q') := by
  cases q <;> cases q' <;> unfold Pointer.Hides <;> infer_instance

/-- No pointer hides itself. -/
theorem Pointer.not_hides_self (q : Pointer) : ¬ q.Hides q := by
  cases q with
  | field base f => exact fun hides => hides.2.2 rfl
  | var | static | element => exact id

/-- Only fields hide each other. -/
theorem Pointer.Hides.kind_eq {q q' : Pointer} (hides : q.Hides q') : q.kind = .field := by
  cases q with
  | field base f => rfl
  | var | static | element => cases hides

theorem Pointer.Hides.text_eq {q q' : Pointer} (hides : q.Hides q') {g : FlowGraph} {heap : Heap} :
    g.text heap q = g.text heap q' := by
  cases q with
  | field base f =>
    cases q' with
    | field base' f' =>
      obtain ⟨rfl, hname, -⟩ := hides
      unfold FlowGraph.text
      dsimp only
      rw [hname]
    | var | static | element => cases hides
  | var | static | element => cases hides

namespace Report

open Solver

/-- The entry of a node in the report as data. -/
def entry (s : State) (n : Node) : NamedSet :=
  ⟨s.graph.text s.heap n.pointer, s.texts n.objects⟩

/-- No two fields that point to something hide each other. -/
def Unhidden (s : State) : Prop :=
  ∀ n ∈ filledNodes s .field, ∀ n' ∈ filledNodes s .field, ¬ n.pointer.Hides n'.pointer

instance (s : State) : Decidable (Unhidden s) :=
  inferInstanceAs (Decidable (∀ n ∈ filledNodes s .field, ∀ n' ∈ filledNodes s .field,
    ¬ n.pointer.Hides n'.pointer))

/-- The line of an entry in the readable report. -/
def setLine (set : NamedSet) : String :=
  "  " ++ set.name ++ " -> \x7b" ++ ", ".intercalate set.objects ++ "\x7d"

/-- The readable report, made of the data alone. -/
def Data.text (d : Data) : String :=
  let titled (title : String) (sets : List NamedSet) : List String :=
    if sets.isEmpty then [] else [lines (title :: sets.map setLine)]
  "\n\n".intercalate (
    [lines (["Reachable methods (" ++ toString d.reachable.length ++ "):"] ++
        d.reachable.map (fun m => "  " ++ m) ++
        ["Call edges (" ++ toString d.calls.length ++ "):"] ++
        d.calls.map fun e => "  " ++ e.text),
      lines (("Variables (" ++ toString d.vars.length ++ "):") :: d.vars.map setLine)] ++
    titled "Static fields:" d.statics ++ titled "Heap:" (d.fields ++ d.elements)) ++ "\n"

/-- What the report as data keeps of a state. -/
structure Keeps (s : State) : Prop where
  /-- Distinct objects have distinct texts. -/
  objects : ∀ o o', o < s.heap.size → o' < s.heap.size → s.heap.text o = s.heap.text o' → o = o'
  /-- An entry has the texts of exactly the objects of its node, by their numbers. -/
  listed : ∀ kind, ∀ n ∈ filledNodes s kind, ∃ ids : List ObjectId, ids.Pairwise (· < ·) ∧
    (∀ o, o ∈ ids ↔ o ∈ n.objects.items) ∧ (∀ o ∈ ids, o < s.heap.size) ∧
      (entry s n).objects = ids.map s.heap.text
  /-- Two nodes have one key just where one field hides the other. -/
  names : ∀ kind, ∀ n ∈ filledNodes s kind, ∀ n' ∈ filledNodes s kind,
    (entry s n).name = (entry s n').name ↔ n = n' ∨ n.pointer.Hides n'.pointer
  vars : (resultData s).vars = (filledNodes s .var).map (entry s)
  statics : (resultData s).statics = (filledNodes s .static).map (entry s)
  elements : (resultData s).elements = (filledNodes s .element).map (entry s)
  /-- Every field has its entry just where no field is hidden. -/
  fields : (resultData s).fields = (filledNodes s .field).map (entry s) ↔ Unhidden s
  /-- Of fields that hide each other the last has its entry. -/
  last : ∀ before n after, filledNodes s .field = before ++ n :: after →
    (∀ n' ∈ after, ¬ n.pointer.Hides n'.pointer) → entry s n ∈ (resultData s).fields
  /-- Where no field is hidden, the data has all that the readable report has. -/
  text : Unhidden s → resultText s = (resultData s).text

theorem mem_filledNodes {s : State} {kind : PointerKind} {n : Node} :
    n ∈ filledNodes s kind ↔
      n ∈ s.graph.nodes.items ∧ n.pointer.kind = kind ∧ n.objects.isEmpty = false := by
  simp [filledNodes, FlowGraph.nodesOf, and_comm]

/-- A node that points to something has objects that its pointer points to. -/
theorem exists_object {s : State} {n : Node} (hn : n ∈ s.graph.nodes.items)
    (filled : n.objects.isEmpty = false) :
    s.pointsTo n.pointer = n.objects ∧ ∃ o, o ∈ (s.pointsTo n.pointer).items := by
  have hset : s.pointsTo n.pointer = n.objects := by
    have hfound := Roster.get?_key hn
    unfold State.pointsTo FlowGraph.pointsTo
    rw [hfound]
    rfl
  refine ⟨hset, ?_⟩
  rw [hset]
  exact List.exists_mem_of_ne_nil _ fun hnil => by simp [Roster.isEmpty, hnil] at filled

/-! ### Finished analyses -/

/-- What can be read in a finished analysis: the objects come from allocations of the program, the
variables are those of methods of the program, and what is on the heap or static has a text. -/
structure Legible (p : Program) (s : State) : Prop where
  allocations : ∀ a ∈ s.heap.items, a ∈ p.allocations
  vars : ∀ v, ∀ o ∈ (s.pointsTo (.var v)).items, ∃ m ∈ p.methods, v.method = m.signature
  located : s.Located
  annotated : Annotated s

end Report

/-- The variables of a program are those of its methods. -/
theorem Program.Proper.exists_method {p : Program} (hp : p.Proper) {v : Variable}
    (hv : v ∈ p.vars) : ∃ m ∈ p.methods, v.method = m.signature := by
  rcases List.mem_append.1 hv with hv | hv
  · obtain ⟨⟨place, i⟩, hmem, hv⟩ := List.mem_flatMap.1 hv
    obtain ⟨m, hm, hmem⟩ := List.mem_flatMap.1 hmem
    exact ⟨m, hm, hp.owned_of_placed (hp.method?_id hm) hmem hv⟩
  · obtain ⟨b, hb, hv⟩ := List.mem_flatMap.1 hv
    obtain ⟨m, hm, hb⟩ := List.mem_filterMap.1 hb
    exact ⟨m, hm, (hp.owned hm).bound b hb v hv⟩

namespace Report

open Solver

theorem legible_of_going {p : Program} (h : Jimple.Parsed p) {m : Method} {s : State}
    (goes : analyzeFrom p m = .going s) : Legible p s := by
  have annotated := annotated_analyzeFrom h m
  have located := located_of_going h.proper goes
  rw [goes] at annotated
  obtain ⟨t, he, rfl⟩ := explore_of_going goes
  have fresh := State.fresh_initial ∅ ∅ #[.asked p.classes.size m.id]
  have ready := fresh.ready_opened p m.id
  have run := moves_explore p ready.orderly
  rw [he] at run
  have confined := (moves_confined run ready.uses ready.rooted.confined).2
  obtain ⟨-, -, -, hgraph, -⟩ := fresh.opened_frame m.id
  have hheap : (State.opened { log := #[.asked p.classes.size m.id] } m.id).heap = ∅ :=
    (State.reach_frame _ _).1
  refine ⟨fun a ha => ?_, fun v o ho => ?_, located, annotated⟩
  · rcases List.mem_append.1 (confined.heap a ha) with hmem | hmem
    · rw [hheap] at hmem
      cases hmem
    · exact hmem
  · rcases Universe.var_mem_from.1 (confined.arrives (.var v) o (.inl ho)).1 with hmem | hmem
    · rw [hgraph] at hmem
      cases hmem
    · exact h.proper.exists_method hmem

/-! ### Written forms -/

section Keys

variable {p : Program} {s : State} (h : Jimple.Parsed p) (legible : Legible p s)

include h legible

/-- **An object can be read off its text**, whatever stands behind it. -/
theorem object_of_append {o o' : ObjectId} (ho : o < s.heap.size) (ho' : o' < s.heap.size)
    {x y : List Char}
    (heq : (s.heap.text o).toList ++ x = (s.heap.text o').toList ++ y) : o = o' ∧ x = y := by
  have text : ∀ {k}, k < s.heap.size → ∃ a ∈ p.allocations,
      s.heap.allocation? k = some a ∧ s.heap.text k = a.text := by
    intro k hk
    have hget : s.heap.allocation? k = some s.heap.items[k] := List.getElem?_eq_getElem hk
    refine ⟨_, legible.allocations _ (List.getElem_mem hk), hget, ?_⟩
    unfold Heap.text
    rw [hget]
    rfl
  obtain ⟨a, ha, hfound, htext⟩ := text ho
  obtain ⟨b, hb, hfound', htext'⟩ := text ho'
  rw [htext, htext'] at heq
  obtain ⟨rfl, hrest⟩ := h.allocation_of_append ha hb heq
  exact ⟨s.heap.allocation?_injective hfound hfound', hrest⟩

omit h in
theorem text_static {f : FieldName} (hf : .static f ∈ s.graph.nodes.keys) :
    ∃ type, Jimple.SpelledField type f.name ∧
      s.graph.text s.heap (.static f) = f.text type := by
  have hmem := legible.annotated.permits _ (.inl hf) f rfl
  obtain ⟨d, hd, rfl⟩ := List.mem_map.1 hmem
  refine ⟨d.type, legible.annotated.statics d hd, ?_⟩
  change ((s.graph.statics.get? d.id).map Field.text).getD "" = _
  rw [Roster.get?_key hd]
  rfl

omit h in
/-- The object of a field or of elements that point to something is on the heap. -/
theorem base_lt {q : Pointer} (hq : ∃ o, o ∈ (s.pointsTo q).items) :
    (∀ base f, q = .field base f → base < s.heap.size) ∧
      ∀ array, q = .element array → array < s.heap.size := by
  obtain ⟨o, ho⟩ := hq
  obtain ⟨l, -, hl, -⟩ := legible.located q o ho
  refine ⟨fun base f heq => ?_, fun array heq => ?_⟩
  · subst heq
    obtain ⟨a, ha, -⟩ := Option.map_eq_some_iff.1 hl
    exact (List.getElem?_eq_some_iff.1 ha).1
  · subst heq
    obtain ⟨a, ha, -⟩ := Option.map_eq_some_iff.1 hl
    exact (List.getElem?_eq_some_iff.1 ha).1

/-- The fields of objects that have one text are one field of one object, or hide each other. -/
theorem hides_of_text_eq {base base' : ObjectId} {f f' : FieldName} (hbase : base < s.heap.size)
    (hbase' : base' < s.heap.size)
    (htext : s.graph.text s.heap (.field base f) = s.graph.text s.heap (.field base' f')) :
    Pointer.field base f = .field base' f' ∨ (Pointer.field base f).Hides (.field base' f') := by
  have hlist := congrArg String.toList htext
  simp only [FlowGraph.text, String.toList_append, List.append_assoc] at hlist
  obtain ⟨rfl, hrest⟩ := object_of_append h legible hbase hbase' hlist
  have hname : f.name = f'.name := String.toList_inj.1 (List.append_cancel_left hrest)
  by_cases howner : f.declaringClass = f'.declaringClass
  · obtain ⟨owner, name⟩ := f
    obtain ⟨owner', name'⟩ := f'
    obtain rfl : owner = owner' := howner
    obtain rfl : name = name' := hname
    exact .inl rfl
  · exact .inr ⟨rfl, hname, howner⟩

/-- **Two pointers of a kind that point to something have one text only if they are one pointer, or
fields that hide each other.** -/
theorem text_eq_iff {q q' : Pointer} (kind : q.kind = q'.kind)
    (node : q ∈ s.graph.nodes.keys) (node' : q' ∈ s.graph.nodes.keys)
    (filled : ∃ o, o ∈ (s.pointsTo q).items) (filled' : ∃ o, o ∈ (s.pointsTo q').items) :
    s.graph.text s.heap q = s.graph.text s.heap q' ↔ q = q' ∨ q.Hides q' := by
  obtain ⟨hfield, helement⟩ := base_lt legible filled
  obtain ⟨hfield', helement'⟩ := base_lt legible filled'
  refine ⟨fun htext => ?_, fun hq => hq.elim (fun heq => heq ▸ rfl) fun hides => hides.text_eq⟩
  cases q with
  | var v =>
    cases q' with
    | var w =>
      obtain ⟨o, ho⟩ := filled
      obtain ⟨o', ho'⟩ := filled'
      obtain ⟨m, hm, hv⟩ := legible.vars v o ho
      obtain ⟨n, hn, hw⟩ := legible.vars w o' ho'
      exact .inl (congrArg _ ((h.spelled hm).variable_of_text (h.spelled hn) hv hw htext))
    | static | field | element => cases kind
  | static f =>
    cases q' with
    | static g =>
      obtain ⟨type, hspelled, hf⟩ := text_static legible node
      obtain ⟨type', hspelled', hg⟩ := text_static legible node'
      rw [hf, hg] at htext
      exact .inl (congrArg _ (FieldName.eq_of_text hspelled hspelled' htext))
    | var | field | element => cases kind
  | field base f =>
    cases q' with
    | field base' f' =>
      exact hides_of_text_eq h legible (hfield _ _ rfl) (hfield' _ _ rfl) htext
    | var | static | element => cases kind
  | element array =>
    cases q' with
    | element array' =>
      have hlist := congrArg String.toList htext
      simp only [FlowGraph.text, String.toList_append] at hlist
      obtain ⟨rfl, -⟩ := object_of_append h legible (helement _ rfl) (helement' _ rfl) hlist
      exact .inl rfl
    | var | static | field => cases kind

theorem entry_name_iff {kind : PointerKind} {n n' : Node} (hn : n ∈ filledNodes s kind)
    (hn' : n' ∈ filledNodes s kind) :
    (entry s n).name = (entry s n').name ↔ n = n' ∨ n.pointer.Hides n'.pointer := by
  obtain ⟨hnode, hkind, hfilled⟩ := mem_filledNodes.1 hn
  obtain ⟨hnode', hkind', hfilled'⟩ := mem_filledNodes.1 hn'
  have same : n.pointer = n'.pointer ↔ n = n' := by
    refine ⟨fun heq => ?_, fun heq => heq ▸ rfl⟩
    have hfound := Roster.get?_key hnode
    rw [heq, Roster.get?_key hnode'] at hfound
    exact (Option.some.inj hfound).symm
  rw [← same]
  exact text_eq_iff h legible (hkind.trans hkind'.symm) (List.mem_map_of_mem hnode)
    (List.mem_map_of_mem hnode') (exists_object hnode hfilled).2 (exists_object hnode' hfilled').2

omit h legible in
theorem nodup_filledNodes (s : State) (kind : PointerKind) : (filledNodes s kind).Nodup :=
  ((List.Nodup.of_map _ s.graph.nodes.nodup).filter _).filter _

/-- Every node of a kind has its entry just where none hides another. -/
theorem pointsToMap_eq_iff (kind : PointerKind) :
    pointsToMap s kind = (filledNodes s kind).map (entry s) ↔
      ∀ n ∈ filledNodes s kind, ∀ n' ∈ filledNodes s kind, ¬ n.pointer.Hides n'.pointer := by
  have hmap : pointsToMap s kind =
      (Roster.ofList ((filledNodes s kind).map (entry s)) : Roster NamedSet.name).items := rfl
  rw [hmap, Roster.items_ofList_eq_iff, List.map_map,
    List.nodup_map_iff_inj_on (nodup_filledNodes s kind)]
  constructor
  · intro hinj n hn n' hn' hides
    have hname := (entry_name_iff h legible hn hn').2 (.inr hides)
    obtain rfl := hinj n hn n' hn' hname
    exact n.pointer.not_hides_self hides
  · intro hnone n hn n' hn' hname
    exact ((entry_name_iff h legible hn hn').1 hname).resolve_right (hnone n hn n' hn')

/-- What is no field is never hidden. -/
theorem pointsToMap_eq {kind : PointerKind} (hkind : kind ≠ .field) :
    pointsToMap s kind = (filledNodes s kind).map (entry s) := by
  refine (pointsToMap_eq_iff h legible kind).2 fun n hn n' _ hides => ?_
  obtain ⟨-, rfl, -⟩ := mem_filledNodes.1 hn
  exact hkind hides.kind_eq

theorem last_mem_pointsToMap {kind : PointerKind} {before after : List Node} {n : Node}
    (hsplit : filledNodes s kind = before ++ n :: after)
    (hlast : ∀ n' ∈ after, ¬ n.pointer.Hides n'.pointer) : entry s n ∈ pointsToMap s kind := by
  have hmap : pointsToMap s kind = (Roster.ofList (before.map (entry s) ++ entry s n ::
      after.map (entry s)) : Roster NamedSet.name).items := by
    rw [← List.map_cons, ← List.map_append, ← hsplit]
    rfl
  have hnodup := nodup_filledNodes s kind
  rw [hsplit, List.nodup_append] at hnodup
  rw [hmap]
  refine Roster.mem_ofList_of_last fun set hset hname => ?_
  obtain ⟨n', hn', rfl⟩ := List.mem_map.1 hset
  have hn : n ∈ filledNodes s kind := by simp [hsplit]
  have hmem : n' ∈ filledNodes s kind := by simp [hsplit, hn']
  rcases (entry_name_iff h legible hn hmem).1 hname.symm with rfl | hides
  · exact (List.nodup_cons.1 hnodup.2.1).1 hn'
  · exact hlast n' hn' hides

omit h in
theorem listed_objects {kind : PointerKind} {n : Node} (hn : n ∈ filledNodes s kind) :
    ∃ ids : List ObjectId, ids.Pairwise (· < ·) ∧ (∀ o, o ∈ ids ↔ o ∈ n.objects.items) ∧
      (∀ o ∈ ids, o < s.heap.size) ∧ (entry s n).objects = ids.map s.heap.text := by
  obtain ⟨hnode, -, hfilled⟩ := mem_filledNodes.1 hn
  obtain ⟨hset, -⟩ := exists_object hnode hfilled
  have hperm : (ObjectSet.sorted n.objects).Perm n.objects.items := List.mergeSort_perm _ _
  have hnodup : (ObjectSet.sorted n.objects).Nodup :=
    hperm.nodup_iff.2 (OrderedSet.keys_eq_items n.objects ▸ n.objects.keys_nodup)
  have hsorted : (ObjectSet.sorted n.objects).Pairwise (· ≤ ·) :=
    List.pairwise_mergeSort' (· ≤ ·) n.objects.items
  refine ⟨ObjectSet.sorted n.objects, ?_, fun o => hperm.mem_iff, fun o ho => ?_, rfl⟩
  · exact (hsorted.and hnodup).imp fun hab => Nat.lt_of_le_of_ne hab.1 hab.2
  · rw [hperm.mem_iff, ← hset] at ho
    obtain ⟨-, a, -, ha⟩ := legible.located n.pointer o ho
    exact (List.getElem?_eq_some_iff.1 ha).1

omit h legible in
/-- Where every node has its entry, the readable report can be made of the data. -/
theorem resultText_eq (vars : pointsToMap s .var = (filledNodes s .var).map (entry s))
    (statics : pointsToMap s .static = (filledNodes s .static).map (entry s))
    (fields : pointsToMap s .field = (filledNodes s .field).map (entry s))
    (elements : pointsToMap s .element = (filledNodes s .element).map (entry s)) :
    resultText s = (resultData s).text := by
  have hline : ∀ n, setLine (entry s n) = nodeLine s n := fun n => rfl
  have htitled : ∀ (title : String) (nodes : List Node),
      (if (nodes.map (entry s)).isEmpty then []
        else [lines (title :: (nodes.map (entry s)).map setLine)]) = titled s title nodes := by
    intro title nodes
    unfold titled
    rw [List.isEmpty_map, List.map_map]
    rfl
  unfold resultText Data.text resultData callGraphText
  dsimp only
  rw [vars, statics, fields, elements, ← List.map_append, htitled, htitled, List.length_map,
    List.map_map, List.length_map, List.map_map]
  rfl

end Keys

/-- **The report as data of a finished analysis loses nothing but hidden fields.** -/
theorem keeps_of_going {p : Program} (h : Jimple.Parsed p) {m : Method} {s : State}
    (goes : analyzeFrom p m = .going s) : Keeps s := by
  have legible := legible_of_going h goes
  have listed : ∀ kind ≠ .field, pointsToMap s kind = (filledNodes s kind).map (Report.entry s) :=
    fun _ => pointsToMap_eq h legible
  have vars := listed .var (by decide)
  have statics := listed .static (by decide)
  have elements := listed .element (by decide)
  have fields := pointsToMap_eq_iff h legible .field
  refine ⟨fun o o' ho ho' htext => ?_, fun _ _ => listed_objects legible,
    fun _ _ hn _ hn' => entry_name_iff h legible hn hn', vars, statics, elements, fields,
    fun _ _ _ => last_mem_pointsToMap h legible, fun unhidden => ?_⟩
  · exact (object_of_append h legible ho ho' (x := []) (y := []) (by rw [htext])).1
  · exact resultText_eq vars statics (fields.2 unhidden) elements

/-- A class with a field that hides one of its superclass. -/
def shadowText : String :=
  "class A\n\x7b\nA f;\n\x7d\nclass B extends A\n\x7b\nB f;\n" ++
  "static void main(java.lang.String[])\n\x7b\nA a;\nB b;\na = new A;\nb = new B;\n" ++
  "b.<A: A f> = a;\nb.<B: B f> = b;\n\x7d\n\x7d\n"

def shadow : Program := Jimple.programOf shadowText

theorem shadow_runs :
    (shadow.main?.any fun m => (analyzeFrom shadow m).fault?.isNone) = true ∧
      ∀ m ∈ shadow.main?, (filledNodes (analyzeFrom shadow m).state .field).length = 2 ∧
        (resultData (analyzeFrom shadow m).state).fields.length = 1 := by
  decide +kernel

theorem keeps_of_going_shadow : ∃ m s, shadow.main? = some m ∧ analyzeFrom shadow m = .going s ∧
    (filledNodes s .field).length = 2 ∧ (resultData s).fields.length = 1 ∧ Keeps s := by
  obtain ⟨hruns, hfields⟩ := shadow_runs
  obtain ⟨m, s, hmain, -, goes⟩ := Jimple.exists_going hruns
  have hlost := hfields m hmain
  rw [goes] at hlost
  exact ⟨m, s, hmain, goes, hlost.1, hlost.2, keeps_of_going (.programOf shadowText) goes⟩

end Report

end PointsTo
