import Mathlib.Data.String.Basic
import PointsTo.Proofs.Reports

/-!
The groups of variables that point to the same objects, and the points-to sets by the names of
variables. Variables are grouped by their sets, but a group lists names and is kept under the least
of them. In a finished analysis of a program that was read the names tell the variables apart, so
that the groups are a partition of them and none is lost.
-/
namespace PointsTo

/-! ### Leaders -/

/-- The least of the names, from one of them on. -/
theorem foldl_least (names : List String) (name : String) :
    names.foldl (fun least n => if n < least then n else least) name ∈ name :: names ∧
      ∀ n ∈ name :: names,
        names.foldl (fun least n => if n < least then n else least) name ≤ n := by
  induction names generalizing name with
  | nil => exact ⟨List.mem_singleton.2 rfl, fun n hn => (List.mem_singleton.1 hn).ge⟩
  | cons next names ih =>
    rw [List.foldl_cons]
    by_cases hless : next < name
    · rw [if_pos hless]
      obtain ⟨hmem, hle⟩ := ih next
      refine ⟨List.mem_cons_of_mem _ hmem, fun n hn => ?_⟩
      rcases List.mem_cons.1 hn with rfl | hn
      · exact (hle next List.mem_cons_self).trans hless.le
      · exact hle n hn
    · rw [if_neg hless]
      obtain ⟨hmem, hle⟩ := ih name
      refine ⟨?_, fun n hn => ?_⟩
      · rcases List.mem_cons.1 hmem with heq | hmem
        · exact List.mem_cons.2 (.inl heq)
        · exact List.mem_cons_of_mem _ (List.mem_cons_of_mem _ hmem)
      · rcases List.mem_cons.1 hn with rfl | hn
        · exact hle n List.mem_cons_self
        · rcases List.mem_cons.1 hn with rfl | hn
          · exact (hle name List.mem_cons_self).trans (not_lt.1 hless)
          · exact hle n (List.mem_cons_of_mem _ hn)

/-- A group with names is led by the least of them. -/
theorem AliasGroup.leader_least {g : AliasGroup} (h : g.names.items ≠ []) :
    g.leader ∈ g.names.items ∧ ∀ name ∈ g.names.items, g.leader ≤ name := by
  unfold leader
  cases hnames : g.names.items with
  | nil => exact absurd hnames h
  | cons name names => exact foldl_least names name

/-! ### Gathering names -/

/-- The names that are gathered for a set of objects. -/
def namesUnder (groups : Roster AliasGroup.objects) (objects : List ObjectId) : OrderedSet String :=
  ((groups.get? objects).map AliasGroup.names).getD ∅

/-- The names of variables, gathered by the objects that the variables point to. -/
def gatherNames (sets : List (Variable × List ObjectId)) : Roster AliasGroup.objects :=
  sets.foldl (fun groups (v, objects) =>
    groups.put ⟨objects, (namesUnder groups objects).add v.text⟩) ∅

/-- The alias groups are those gathered, as far as their leaders are different. -/
theorem Solver.State.aliasGroups_eq (s : Solver.State) :
    s.aliasGroups =
      (Roster.ofList (gatherNames s.variableSets).items : Roster AliasGroup.leader).items := rfl

theorem gatherNames_concat (sets : List (Variable × List ObjectId)) (v : Variable)
    (objects : List ObjectId) :
    gatherNames (sets ++ [(v, objects)]) = (gatherNames sets).put
      ⟨objects, (namesUnder (gatherNames sets) objects).add v.text⟩ := List.foldl_concat _ _ _ _

/-- One more variable adds its name to the names for its objects and to no others. -/
theorem namesUnder_put (groups : Roster AliasGroup.objects) (name : String)
    (objects k : List ObjectId) :
    namesUnder (groups.put ⟨objects, (namesUnder groups objects).add name⟩) k =
      if objects = k then (namesUnder groups k).add name else namesUnder groups k := by
  have hput := groups.get?_put ⟨objects, (namesUnder groups objects).add name⟩ k
  by_cases hk : objects = k
  · subst hk
    rw [if_pos rfl] at hput ⊢
    rw [namesUnder, hput]
    rfl
  · rw [if_neg hk] at hput ⊢
    rw [namesUnder, hput]
    rfl

/-- What is gathered for a set of objects are the names of the variables that have it. -/
theorem mem_namesUnder {sets : List (Variable × List ObjectId)} {name : String}
    {objects : List ObjectId} :
    name ∈ (namesUnder (gatherNames sets) objects).items ↔
      ∃ v, (v, objects) ∈ sets ∧ v.text = name := by
  induction sets using List.reverseRecOn with
  | nil =>
    have hnone : (namesUnder (gatherNames []) objects).items = [] := rfl
    rw [hnone]
    simp
  | append_singleton sets last ih =>
    obtain ⟨w, others⟩ := last
    rw [gatherNames_concat, namesUnder_put]
    by_cases hothers : others = objects
    · subst hothers
      rw [if_pos rfl, OrderedSet.mem_add, ih]
      constructor
      · intro hname
        rcases hname with ⟨v, hv, htext⟩ | rfl
        · exact ⟨v, List.mem_append_left _ hv, htext⟩
        · exact ⟨w, List.mem_append_right _ List.mem_cons_self, rfl⟩
      · intro hname
        obtain ⟨v, hv, rfl⟩ := hname
        rcases List.mem_append.1 hv with hv | hv
        · exact .inl ⟨v, hv, rfl⟩
        · cases List.mem_singleton.1 hv
          exact .inr rfl
    · rw [if_neg hothers, ih]
      have hlast : ∀ v, (v, objects) ∉ [(w, others)] := by
        intro v hv
        cases List.mem_singleton.1 hv
        exact hothers rfl
      simp only [List.mem_append, hlast, or_false]

/-- Only what some variable has is gathered. -/
theorem exists_of_mem_gatherNames {sets : List (Variable × List ObjectId)} {g : AliasGroup}
    (hg : g ∈ (gatherNames sets).items) : ∃ v, (v, g.objects) ∈ sets := by
  induction sets using List.reverseRecOn with
  | nil => cases hg
  | append_singleton sets last ih =>
    rw [gatherNames_concat] at hg
    rcases Roster.mem_of_mem_put hg with hg | rfl
    · obtain ⟨v, hv⟩ := ih hg
      exact ⟨v, List.mem_append_left _ hv⟩
    · exact ⟨last.1, List.mem_append_right _ List.mem_cons_self⟩

/-- A group has the names of exactly the variables with its objects. -/
theorem mem_names {sets : List (Variable × List ObjectId)} {g : AliasGroup}
    (hg : g ∈ (gatherNames sets).items) {name : String} :
    name ∈ g.names.items ↔ ∃ v, (v, g.objects) ∈ sets ∧ v.text = name := by
  have hunder : namesUnder (gatherNames sets) g.objects = g.names := by
    rw [namesUnder, Roster.get?_key hg]
    rfl
  rw [← hunder]
  exact mem_namesUnder

/-- Every variable has the group of its objects. -/
theorem exists_group {sets : List (Variable × List ObjectId)} {v : Variable}
    {objects : List ObjectId} (hv : (v, objects) ∈ sets) :
    ∃ g ∈ (gatherNames sets).items, g.objects = objects := by
  have hname : v.text ∈ (namesUnder (gatherNames sets) objects).items :=
    mem_namesUnder.2 ⟨v, hv, rfl⟩
  unfold namesUnder at hname
  cases hfound : (gatherNames sets).get? objects with
  | none =>
    rw [hfound] at hname
    cases hname
  | some g => exact ⟨g, Roster.mem_of_get? hfound, Roster.key_of_get? hfound⟩

/-! ### Sorted sets -/

theorem ObjectSet.sorted_perm (s : ObjectSet) : s.sorted.Perm s.items := List.mergeSort_perm _ _

theorem ObjectSet.mem_sorted {s : ObjectSet} {o : ObjectId} : o ∈ s.sorted ↔ o ∈ s.items :=
  s.sorted_perm.mem_iff

/-- Two sets are sorted alike where they have the same objects. -/
theorem ObjectSet.sorted_eq_iff {s t : ObjectSet} :
    s.sorted = t.sorted ↔ ∀ o, o ∈ s.items ↔ o ∈ t.items := by
  constructor
  · intro h o
    rw [← mem_sorted, h, mem_sorted]
  · intro h
    have hs : s.items.Nodup := OrderedSet.keys_eq_items s ▸ s.keys_nodup
    have ht : t.items.Nodup := OrderedSet.keys_eq_items t ▸ t.keys_nodup
    have hperm : s.sorted.Perm t.sorted :=
      s.sorted_perm.trans (((List.perm_ext_iff_of_nodup hs ht).2 h).trans t.sorted_perm.symm)
    exact hperm.eq_of_pairwise' (List.pairwise_mergeSort' (· ≤ ·) s.items)
      (List.pairwise_mergeSort' (· ≤ ·) t.items)

/-! ### Variables that point to something -/

namespace Solver.State

/-- The variable points to something. -/
def IsFilled (s : State) (v : Variable) : Prop := (s.pointsTo (.var v)).isEmpty = false

theorem IsFilled.exists_object {s : State} {v : Variable} (h : s.IsFilled v) :
    ∃ o, o ∈ (s.pointsTo (.var v)).items := by
  refine List.exists_mem_of_ne_nil _ fun hnil => ?_
  rw [IsFilled, Roster.isEmpty, hnil] at h
  cases h

/-- Exactly the variables that point to something are listed, each with its objects. -/
theorem mem_variableSets {s : State} {v : Variable} {objects : List ObjectId} :
    (v, objects) ∈ s.variableSets ↔
      s.IsFilled v ∧ objects = ObjectSet.sorted (s.pointsTo (.var v)) := by
  unfold variableSets
  rw [List.mem_filterMap]
  constructor
  · intro h
    obtain ⟨n, hn, heq⟩ := h
    obtain ⟨hnode, -⟩ := List.mem_filter.1 hn
    have hset : s.pointsTo n.pointer = n.objects := by
      rw [pointsTo, FlowGraph.pointsTo, Roster.get?_key hnode]
      rfl
    cases hvar : n.pointer with
    | var w =>
      rw [hvar] at heq hset
      cases hempty : n.objects.isEmpty with
      | true => simp [hempty] at heq
      | false =>
        simp only [hempty, Bool.false_eq_true, if_false, Option.some.injEq, Prod.mk.injEq] at heq
        obtain ⟨rfl, rfl⟩ := heq
        rw [IsFilled, hset]
        exact ⟨hempty, rfl⟩
    | static | field | element =>
      rw [hvar] at heq
      cases heq
  · intro h
    obtain ⟨hfilled, rfl⟩ := h
    unfold IsFilled at hfilled
    cases hfound : s.graph.nodes.get? (.var v) with
    | none =>
      rw [pointsTo, FlowGraph.pointsTo, hfound] at hfilled
      cases hfilled
    | some n =>
      have hset : s.pointsTo (.var v) = n.objects := by
        rw [pointsTo, FlowGraph.pointsTo, hfound]
        rfl
      obtain ⟨hnode, hvar⟩ := Roster.get?_eq_some.1 hfound
      refine ⟨n, List.mem_filter.2 ⟨hnode, by rw [hvar]; rfl⟩, ?_⟩
      rw [hset] at hfilled ⊢
      rw [hvar]
      simp [hfilled]

/-- No variable is listed twice. -/
theorem nodup_variableSets (s : State) : (s.variableSets.map Prod.fst).Nodup := by
  have hnodes : s.graph.nodes.items.Pairwise fun n n' => n.pointer ≠ n'.pointer :=
    List.pairwise_map.1 s.graph.nodes.nodup
  unfold variableSets
  rw [List.Nodup, List.pairwise_map, List.pairwise_filterMap]
  refine (hnodes.sublist List.filter_sublist).imp
    fun {n n'} hne entry hentry entry' hentry' heq => ?_
  apply hne
  split at hentry
  · next v hv =>
    split at hentry'
    · next v' hv' =>
      obtain ⟨-, hentry⟩ := Option.ite_none_left_eq_some.1 hentry
      obtain ⟨-, hentry'⟩ := Option.ite_none_left_eq_some.1 hentry'
      obtain rfl := Option.some.inj hentry
      obtain rfl := Option.some.inj hentry'
      rw [hv, hv']
      exact congrArg Pointer.var heq
    · cases hentry'
  · cases hentry

/-- What the groups and the points-to sets by name say in a state. -/
structure Partitioned (s : State) : Prop where
  /-- The variables that point to something have names of their own. -/
  names : ∀ v w, s.IsFilled v → s.IsFilled w → v.text = w.text → v = w
  /-- Each of them is in exactly one group. -/
  covered : ∀ v, s.IsFilled v → ∃! g, g ∈ s.aliasGroups ∧ v.text ∈ g.names.items
  /-- Nothing else is in a group. -/
  filled : ∀ g ∈ s.aliasGroups, ∀ name ∈ g.names.items, ∃ v, s.IsFilled v ∧ v.text = name
  /-- Two of them share a group just where they point to the same objects. -/
  shared : ∀ v w, s.IsFilled v → s.IsFilled w →
    ((∃ g ∈ s.aliasGroups, v.text ∈ g.names.items ∧ w.text ∈ g.names.items) ↔
      ∀ o, o ∈ (s.pointsTo (.var v)).items ↔ o ∈ (s.pointsTo (.var w)).items)
  /-- A group is kept under the least of its names. -/
  led : ∀ g ∈ s.aliasGroups,
    g.leader ∈ g.names.items ∧ ∀ name ∈ g.names.items, g.leader ≤ name
  /-- No two groups are kept under one name. -/
  leaders : (s.aliasGroups.map AliasGroup.leader).Nodup
  /-- No group that was gathered is lost. -/
  kept : s.aliasGroups = (gatherNames s.variableSets).items
  /-- The variables of a group may alias. -/
  aliased : ∀ g ∈ s.aliasGroups, ∀ v w, s.IsFilled v → s.IsFilled w →
    v.text ∈ g.names.items → w.text ∈ g.names.items → s.mayAlias v w = true
  /-- No two sets by name have one name. -/
  keys : (s.setsByName.map NamedSet.name).Nodup
  /-- Their names are those of the variables that point to something. -/
  listed : ∀ name, name ∈ s.setsByName.map NamedSet.name ↔ ∃ v, s.IsFilled v ∧ v.text = name
  /-- A set by name has the texts of the objects of its variable, all different. -/
  counted : ∀ v, s.IsFilled v → ∃ set ∈ s.setsByName, set.name = v.text ∧ set.objects.Nodup ∧
    set.objects.length = (s.pointsTo (.var v)).size ∧
      ∀ text, text ∈ set.objects ↔ ∃ o ∈ (s.pointsTo (.var v)).items, s.heap.text o = text

end Solver.State

/-! ### Finished analyses -/

namespace Report

open Solver

section Names

variable {p : Program} {s : State} (h : Jimple.Parsed p) (legible : Legible p s)

include h legible

theorem eq_of_filled {v w : Variable} (hv : s.IsFilled v) (hw : s.IsFilled w)
    (htext : v.text = w.text) : v = w := by
  obtain ⟨o, ho⟩ := hv.exists_object
  obtain ⟨o', ho'⟩ := hw.exists_object
  obtain ⟨m, hm, hmethod⟩ := legible.vars v o ho
  obtain ⟨n, hn, hmethod'⟩ := legible.vars w o' ho'
  exact (h.spelled hm).variable_of_text (h.spelled hn) hmethod hmethod' htext

/-- A variable that points to something is in a group just where the group has its objects. -/
theorem text_mem_names {g : AliasGroup} (hg : g ∈ (gatherNames s.variableSets).items)
    {v : Variable} (hv : s.IsFilled v) :
    v.text ∈ g.names.items ↔ g.objects = ObjectSet.sorted (s.pointsTo (.var v)) := by
  rw [mem_names hg]
  constructor
  · intro hname
    obtain ⟨w, hw, htext⟩ := hname
    obtain ⟨hfilled, hobjects⟩ := State.mem_variableSets.1 hw
    rw [hobjects, eq_of_filled h legible hfilled hv htext]
  · intro hobjects
    exact ⟨v, State.mem_variableSets.2 ⟨hv, hobjects⟩, rfl⟩

/-- Two groups that have a name in common are one. -/
theorem group_unique {g g' : AliasGroup} (hg : g ∈ (gatherNames s.variableSets).items)
    (hg' : g' ∈ (gatherNames s.variableSets).items) {name : String}
    (hname : name ∈ g.names.items) (hname' : name ∈ g'.names.items) : g = g' := by
  obtain ⟨v, hv, rfl⟩ := (mem_names hg).1 hname
  have hfilled := (State.mem_variableSets.1 hv).1
  have hobjects : g.objects = g'.objects :=
    ((text_mem_names h legible hg hfilled).1 hname).trans
      ((text_mem_names h legible hg' hfilled).1 hname').symm
  have hfound := Roster.get?_key hg
  rw [hobjects, Roster.get?_key hg'] at hfound
  exact (Option.some.inj hfound).symm

omit h legible in
theorem names_ne_nil {g : AliasGroup} (hg : g ∈ (gatherNames s.variableSets).items) :
    g.names.items ≠ [] := by
  obtain ⟨v, hv⟩ := exists_of_mem_gatherNames hg
  exact List.ne_nil_of_mem ((mem_names hg).2 ⟨v, hv, rfl⟩)

/-- The leaders of the groups are different, since the groups are disjoint. -/
theorem nodup_leaders : ((gatherNames s.variableSets).items.map AliasGroup.leader).Nodup := by
  have hitems : (gatherNames s.variableSets).items.Nodup :=
    List.Nodup.of_map _ (gatherNames s.variableSets).nodup
  rw [List.nodup_map_iff_inj_on hitems]
  intro g hg g' hg' hleader
  have hmem := (AliasGroup.leader_least (names_ne_nil hg)).1
  have hmem' := (AliasGroup.leader_least (names_ne_nil hg')).1
  exact group_unique h legible hg hg' hmem (hleader ▸ hmem')

theorem aliasGroups_eq_gathered : s.aliasGroups = (gatherNames s.variableSets).items := by
  rw [State.aliasGroups_eq, Roster.items_ofList_eq_iff]
  exact nodup_leaders h legible

/-- The objects of a variable have texts of their own. -/
theorem nodup_texts (v : Variable) :
    ((ObjectSet.sorted (s.pointsTo (.var v))).map s.heap.text).Nodup := by
  have hsorted : (ObjectSet.sorted (s.pointsTo (.var v))).Nodup :=
    (ObjectSet.sorted_perm _).nodup_iff.2 (OrderedSet.keys_eq_items (s.pointsTo (.var v)) ▸
      (s.pointsTo (.var v)).keys_nodup)
  have hsize : ∀ o ∈ ObjectSet.sorted (s.pointsTo (.var v)), o < s.heap.size := by
    intro o ho
    obtain ⟨-, a, -, ha⟩ := legible.located _ o (ObjectSet.mem_sorted.1 ho)
    exact (List.getElem?_eq_some_iff.1 ha).1
  rw [List.nodup_map_iff_inj_on hsorted]
  intro o ho o' ho' htext
  exact (object_of_append h legible (hsize o ho) (hsize o' ho') (x := []) (y := [])
    (by rw [htext])).1

/-- The names of the variables that point to something are all different. -/
theorem nodup_variableNames : (s.variableSets.map fun entry => entry.1.text).Nodup := by
  have hentries : s.variableSets.Nodup := List.Nodup.of_map _ s.nodup_variableSets
  refine (List.nodup_map_iff_inj_on hentries).2 fun entry hentry entry' hentry' htext => ?_
  have hfilled := (State.mem_variableSets.1 hentry).1
  have hfilled' := (State.mem_variableSets.1 hentry').1
  have hvar : entry.1 = entry'.1 := eq_of_filled h legible hfilled hfilled' htext
  exact (List.nodup_map_iff_inj_on hentries).1 s.nodup_variableSets _ hentry _ hentry' hvar

/-- No name and no text of an object is lost among the sets by name. -/
theorem setsByName_eq : s.setsByName = s.variableSets.map fun (v, objects) =>
    ⟨v.text, objects.map s.heap.text⟩ := by
  have hobjects : ∀ entry ∈ s.variableSets,
      (OrderedSet.ofList (entry.2.map s.heap.text)).items = entry.2.map s.heap.text := by
    intro entry hentry
    obtain ⟨-, heq⟩ := State.mem_variableSets.1 hentry
    have hnodup := nodup_texts h legible entry.1
    rw [← heq] at hnodup
    exact OrderedSet.items_addAll_of_disjoint hnodup fun _ _ => List.not_mem_nil
  have hsets : (s.variableSets.map fun (v, objects) =>
      (⟨v.text, (OrderedSet.ofList (objects.map s.heap.text)).items⟩ : NamedSet)) =
        s.variableSets.map fun (v, objects) => ⟨v.text, objects.map s.heap.text⟩ :=
    List.map_congr_left fun entry hentry => congrArg (NamedSet.mk _) (hobjects entry hentry)
  unfold State.setsByName
  rw [hsets, Roster.items_ofList_eq_iff, List.map_map]
  exact nodup_variableNames h legible

/-- Variables share a group just where they point to the same objects. -/
theorem shared_iff {v w : Variable} (hv : s.IsFilled v) (hw : s.IsFilled w) :
    (∃ g ∈ (gatherNames s.variableSets).items, v.text ∈ g.names.items ∧ w.text ∈ g.names.items) ↔
      ∀ o, o ∈ (s.pointsTo (.var v)).items ↔ o ∈ (s.pointsTo (.var w)).items := by
  rw [← ObjectSet.sorted_eq_iff]
  constructor
  · intro hshared
    obtain ⟨g, hg, hname, hname'⟩ := hshared
    have hobjects := (text_mem_names h legible hg hv).1 hname
    exact hobjects.symm.trans ((text_mem_names h legible hg hw).1 hname')
  · intro hsame
    obtain ⟨g, hg, hobjects⟩ := exists_group (State.mem_variableSets.2 ⟨hv, rfl⟩)
    refine ⟨g, hg, (text_mem_names h legible hg hv).2 hobjects, ?_⟩
    exact (text_mem_names h legible hg hw).2 (hobjects.trans hsame)

omit h legible in
theorem mayAlias_of_same {v w : Variable} (hv : s.IsFilled v)
    (same : ∀ o, o ∈ (s.pointsTo (.var v)).items ↔ o ∈ (s.pointsTo (.var w)).items) :
    s.mayAlias v w = true := by
  obtain ⟨o, ho⟩ := hv.exists_object
  refine List.any_eq_true.2 ⟨o, ho, Roster.contains_iff.2 ?_⟩
  rw [OrderedSet.keys_eq_items]
  exact (same o).1 ho

end Names

/-- **The alias groups of a finished analysis are a partition of the variables that point to
something** by what they point to, and the sets by name have every one of these variables. -/
theorem partitioned_of_going {p : Program} (h : Jimple.Parsed p) {m : Method} {s : State}
    (goes : analyzeFrom p m = .going s) : s.Partitioned := by
  have legible := legible_of_going h goes
  have kept := aliasGroups_eq_gathered h legible
  have sets := setsByName_eq h legible
  have entries : s.setsByName.map NamedSet.name =
      s.variableSets.map fun entry => entry.1.text := by
    rw [sets, List.map_map]
    rfl
  refine
    { names := fun _ _ => eq_of_filled h legible
      covered := fun v hv => ?covered
      filled := fun g hg name hname => ?filled
      shared := fun v w hv hw => kept ▸ shared_iff h legible hv hw
      led := fun g hg => AliasGroup.leader_least (names_ne_nil (kept ▸ hg))
      leaders := kept ▸ nodup_leaders h legible
      kept := kept
      aliased := fun g hg v w hv hw hname hname' => ?aliased
      keys := entries ▸ nodup_variableNames h legible
      listed := fun name => ?listed
      counted := fun v hv => ?counted }
  case covered =>
    obtain ⟨g, hg, hobjects⟩ := exists_group (State.mem_variableSets.2 ⟨hv, rfl⟩)
    have hname := (text_mem_names h legible hg hv).2 hobjects
    refine ⟨g, ⟨kept ▸ hg, hname⟩, fun g' hg' => ?_⟩
    exact group_unique h legible (kept ▸ hg'.1) hg hg'.2 hname
  case filled =>
    obtain ⟨v, hv, rfl⟩ := (mem_names (kept ▸ hg)).1 hname
    exact ⟨v, (State.mem_variableSets.1 hv).1, rfl⟩
  case aliased =>
    have hshared := (shared_iff h legible hv hw).1 ⟨g, kept ▸ hg, hname, hname'⟩
    exact mayAlias_of_same hv hshared
  case listed =>
    rw [entries, List.mem_map]
    constructor
    · intro hname
      obtain ⟨entry, hentry, rfl⟩ := hname
      exact ⟨entry.1, (State.mem_variableSets.1 hentry).1, rfl⟩
    · intro hname
      obtain ⟨v, hv, rfl⟩ := hname
      exact ⟨_, State.mem_variableSets.2 ⟨hv, rfl⟩, rfl⟩
  case counted =>
    refine ⟨⟨v.text, (ObjectSet.sorted (s.pointsTo (.var v))).map s.heap.text⟩, ?_, rfl,
      nodup_texts h legible v, ?_, fun text => ?_⟩
    · rw [sets]
      exact List.mem_map.2 ⟨_, State.mem_variableSets.2 ⟨hv, rfl⟩, rfl⟩
    · rw [List.length_map]
      exact (ObjectSet.sorted_perm _).length_eq
    · simp only [List.mem_map, ObjectSet.mem_sorted]

/-- Two variables with one object and one with another. -/
def sharingText : String :=
  "class A\n\x7b\nstatic void main(java.lang.String[])\n\x7b\nA a;\nA b;\nA c;\n" ++
  "c = new A;\nb = new A;\na = b;\n\x7d\n\x7d\n"

def sharing : Program := Jimple.programOf sharingText

theorem sharing_runs :
    (sharing.main?.any fun m => (analyzeFrom sharing m).fault?.isNone) = true ∧
      ∀ m ∈ sharing.main?, (analyzeFrom sharing m).state.aliasGroups.map (·.names.items) =
        [["<A: void main(java.lang.String[])>/c"],
          ["<A: void main(java.lang.String[])>/b", "<A: void main(java.lang.String[])>/a"]] := by
  decide +kernel

theorem partitioned_sharing : ∃ m s, sharing.main? = some m ∧ analyzeFrom sharing m = .going s ∧
    s.aliasGroups.map (·.names.items) =
      [["<A: void main(java.lang.String[])>/c"],
        ["<A: void main(java.lang.String[])>/b", "<A: void main(java.lang.String[])>/a"]] ∧
      s.Partitioned := by
  obtain ⟨hruns, hgroups⟩ := sharing_runs
  obtain ⟨m, s, hmain, -, goes⟩ := Jimple.exists_going hruns
  have hnames := hgroups m hmain
  rw [goes] at hnames
  exact ⟨m, s, hmain, goes, hnames, partitioned_of_going (.programOf sharingText) goes⟩

end Report

end PointsTo
