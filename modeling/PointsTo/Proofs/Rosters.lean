import Mathlib.Data.List.Induction
import Mathlib.Data.Multiset.MapFold
import PointsTo.Roster

/-!
More on rosters: what becomes of them when their items change and their keys stay, when an item is
put twice, and when many are put or added at once.
-/
namespace PointsTo.Roster

variable {α κ : Type} {key : α → κ}

/-! ### Changed items -/

/-- Changes the items of a roster but not their keys. -/
def mapItems (f : α → α) (h : ∀ a, key (f a) = key a) (r : Roster key) : Roster key :=
  ⟨r.items.map f, by
    have hkeys : (r.items.map f).map key = r.items.map key := by
      rw [List.map_map]
      exact List.map_congr_left fun a _ => h a
    exact hkeys ▸ r.nodup⟩

@[simp] theorem items_mapItems {f : α → α} (h : ∀ a, key (f a) = key a) (r : Roster key) :
    (r.mapItems f h).items = r.items.map f := rfl

theorem mapItems_put [DecidableEq κ] {f : α → α} (h : ∀ a, key (f a) = key a) (r : Roster key)
    (a : α) : (r.put a).mapItems f h = (r.mapItems f h).put (f a) := by
  have hkeys : (r.mapItems f h).keys = r.keys := by
    rw [keys, mapItems, List.map_map]
    exact List.map_congr_left fun b _ => h b
  refine ext ?_
  rw [items_mapItems]
  by_cases hmem : key a ∈ r.keys
  · have hmem' : key (f a) ∈ (r.mapItems f h).keys := by rwa [hkeys, h]
    rw [items_put_of_mem hmem', items_mapItems, items_put_of_mem hmem, List.map_map, List.map_map]
    refine List.map_congr_left fun b _ => ?_
    simp only [Function.comp_apply, h]
    split <;> rfl
  · have hmem' : key (f a) ∉ (r.mapItems f h).keys := by rwa [hkeys, h]
    rw [items_put_of_not_mem hmem', items_mapItems, items_put_of_not_mem hmem, List.map_append]
    rfl

theorem mapItems_mapItems {f : α → α} (h : ∀ a, key (f a) = key a) (hf : ∀ a, f (f a) = f a)
    (r : Roster key) : (r.mapItems f h).mapItems f h = r.mapItems f h := by
  refine ext ?_
  simp only [mapItems, List.map_map]
  exact List.map_congr_left fun a _ => hf a

/-- Items that are related to what they change to make related rosters. -/
theorem rel_mapItems {R : α → α → Prop} {f : α → α} (h : ∀ a, key (f a) = key a) {r : Roster key}
    (hf : ∀ a ∈ r.items, R a (f a)) :
    Multiset.Rel R (r.items : Multiset α) (r.mapItems f h).items := by
  rw [items_mapItems, ← Multiset.map_coe, Multiset.rel_map_right]
  exact Multiset.rel_refl_of_refl_on hf

/-! ### Items put -/

variable [DecidableEq κ]

/-- What is put under a key that was just put takes its place. -/
theorem put_put (r : Roster key) {a b : α} (h : key b = key a) : (r.put a).put b = r.put b := by
  have hmem : key b ∈ (r.put a).keys := mem_keys_put.2 (.inr h)
  refine ext ?_
  rw [items_put_of_mem hmem]
  by_cases ha : key a ∈ r.keys
  · rw [items_put_of_mem ha, items_put_of_mem (h ▸ ha), List.map_map]
    refine List.map_congr_left fun c _ => ?_
    by_cases hc : key c = key a
    · simp [hc, h]
    · simp [hc, h]
  · have hb : key b ∉ r.keys := h ▸ ha
    have hne : ∀ c ∈ r.items, key c ≠ key b := fun c hc heq =>
      hb (heq ▸ List.mem_map_of_mem hc)
    have hsame : (r.items.map fun c => if key c = key b then b else c) = r.items := by
      conv_rhs => rw [← List.map_id r.items]
      exact List.map_congr_left fun c hc => if_neg (hne c hc)
    rw [items_put_of_not_mem ha, items_put_of_not_mem hb, List.map_append, hsame,
      List.map_singleton, if_pos h.symm]

/-- Items with keys of their own come behind those that are there. -/
theorem items_putAll {r : Roster key} {items : List α} (nodup : (items.map key).Nodup)
    (disjoint : ∀ a ∈ items, key a ∉ r.keys) : (r.putAll items).items = r.items ++ items := by
  induction items generalizing r with
  | nil => exact (List.append_nil _).symm
  | cons a items ih =>
    have hstep : r.putAll (a :: items) = (r.put a).putAll items := rfl
    rw [List.map_cons, List.nodup_cons] at nodup
    rw [hstep, ih nodup.2, items_put_of_not_mem (disjoint a List.mem_cons_self), List.append_assoc]
    · rfl
    · intro b hb hmem
      rcases mem_keys_put.1 hmem with hmem | heq
      · exact disjoint b (List.mem_cons_of_mem a hb) hmem
      · exact nodup.1 (heq ▸ List.mem_map_of_mem hb)

/-! ### Items added -/

theorem addAll_concat (r : Roster key) (items : List α) (a : α) :
    r.addAll (items ++ [a]) = (r.addAll items).add a :=
  List.foldl_concat ..

/-- Of the items with one key that are added the first stays. -/
theorem mem_addAll_iff_first {items : List α} {a : α} :
    a ∈ ((∅ : Roster key).addAll items).items ↔
      ∃ before after, items = before ++ a :: after ∧ ∀ b ∈ before, key b ≠ key a := by
  induction items using List.reverseRecOn with
  | nil => simp [addAll]
  | append_singleton items b ih =>
    have hkeys : key b ∈ ((∅ : Roster key).addAll items).keys ↔ ∃ c ∈ items, key c = key b := by
      rw [mem_keys_addAll, List.mem_map]
      simp
    rw [addAll_concat, items_add]
    constructor
    · intro h
      have hcases : a ∈ ((∅ : Roster key).addAll items).items ∨
          a = b ∧ key b ∉ ((∅ : Roster key).addAll items).keys := by
        split at h
        · exact .inl h
        · next hnew => simpa [hnew] using h
      rcases hcases with hold | ⟨rfl, hnew⟩
      · obtain ⟨before, after, rfl, hfirst⟩ := ih.1 hold
        exact ⟨before, after ++ [b], by simp, hfirst⟩
      · exact ⟨items, [], rfl, fun c hc heq => hnew (hkeys.2 ⟨c, hc, heq⟩)⟩
    · rintro ⟨before, after, hsplit, hfirst⟩
      rcases List.eq_nil_or_concat after with rfl | ⟨after, c, rfl⟩
      · obtain ⟨rfl, rfl⟩ := List.append_singleton_inj.1 hsplit
        rw [if_neg]
        · exact List.mem_append_right _ (List.mem_singleton.2 rfl)
        · intro hmem
          obtain ⟨c, hc, heq⟩ := hkeys.1 hmem
          exact hfirst c hc heq
      · have hsplit' : items ++ [b] = (before ++ a :: after) ++ [c] := by
          rw [hsplit]
          simp
        obtain ⟨hitems, -⟩ := List.append_singleton_inj.1 hsplit'
        have hold := ih.2 ⟨before, after, hitems, hfirst⟩
        split
        · exact hold
        · exact List.mem_append_left _ hold

/-! ### Lists as rosters -/

theorem get?_putAll_of_ne {r : Roster key} {items : List α} {k : κ}
    (h : ∀ a ∈ items, key a ≠ k) : (r.putAll items).get? k = r.get? k := by
  induction items generalizing r with
  | nil => rfl
  | cons a items ih =>
    have hstep : (r.put a).get? k = r.get? k := by
      rw [get?_put, if_neg (h a List.mem_cons_self)]
    exact (ih fun b hb => h b (List.mem_cons_of_mem a hb)).trans hstep

/-- A list whose items have keys of their own is the list of its roster. -/
theorem items_ofList_eq_iff {items : List α} :
    (ofList items : Roster key).items = items ↔ (items.map key).Nodup := by
  constructor
  · intro h
    have hnodup := (ofList items : Roster key).nodup
    rwa [h] at hnodup
  · intro h
    have hall : ((∅ : Roster key).putAll items).items = [] ++ items :=
      items_putAll h fun _ _ => List.not_mem_nil
    exact hall

/-- Of the items with one key the last is in the roster. -/
theorem mem_ofList_of_last {before after : List α} {a : α} (h : ∀ b ∈ after, key b ≠ key a) :
    a ∈ (ofList (before ++ a :: after) : Roster key).items := by
  have hsplit : (ofList (before ++ a :: after) : Roster key) =
      ((ofList before : Roster key).put a).putAll after := List.foldl_append
  rw [hsplit]
  refine mem_of_get? (k := key a) ?_
  rw [get?_putAll_of_ne h, get?_put, if_pos rfl]

end PointsTo.Roster
