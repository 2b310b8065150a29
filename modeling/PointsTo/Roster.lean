/-!
Rosters: lists in which every item answers to a key of its own. An item put under a key that is
taken replaces the old one where that stands, so the order is that of first arrival. That no two
items have one key is part of the type, since every operation keeps it.

Everything in the analysis that has an order which reports can show is a roster: the classes of a
program, the members of a class, the objects of a points-to set, the edges of both graphs.
-/
namespace PointsTo

/-- Items in order of first arrival, no two of one key. -/
structure Roster {α κ : Type} (key : α → κ) where
  items : List α
  nodup : (items.map key).Nodup

namespace Roster

variable {α κ : Type} {key : α → κ}

def empty : Roster key := ⟨[], by simp⟩

instance : EmptyCollection (Roster key) := ⟨empty⟩

instance : Inhabited (Roster key) := ⟨empty⟩

theorem ext {r s : Roster key} (h : r.items = s.items) : r = s := by
  cases r; cases s; simp_all

instance [DecidableEq α] : DecidableEq (Roster key) := fun r s =>
  if h : r.items = s.items then .isTrue (ext h) else .isFalse fun e => h (e ▸ rfl)

def keys (r : Roster key) : List κ := r.items.map key

def size (r : Roster key) : Nat := r.items.length

def isEmpty (r : Roster key) : Bool := r.items.isEmpty

@[simp] theorem items_empty : (∅ : Roster key).items = [] := rfl

@[simp] theorem keys_empty : (∅ : Roster key).keys = [] := rfl

theorem keys_nodup (r : Roster key) : r.keys.Nodup := r.nodup

def filter (test : α → Bool) (r : Roster key) : Roster key :=
  ⟨r.items.filter test, r.nodup.sublist (List.filter_sublist.map key)⟩

@[simp] theorem items_filter (test : α → Bool) (r : Roster key) :
    (r.filter test).items = r.items.filter test := rfl

variable [DecidableEq κ]

def get? (r : Roster key) (k : κ) : Option α := r.items.find? fun a => key a = k

def contains (r : Roster key) (k : κ) : Bool := decide (k ∈ r.keys)

def indexOf? (r : Roster key) (k : κ) : Option Nat := r.keys.idxOf? k

/-- Adds an item at the end unless its key is taken. -/
def add (r : Roster key) (a : α) : Roster key :=
  if h : key a ∈ r.keys then r
  else ⟨r.items ++ [a], by
    rw [List.map_append, List.nodup_append]
    refine ⟨r.nodup, by simp, ?_⟩
    rintro k hk _ (_ | ⟨_, ⟨⟩⟩) rfl
    exact h hk⟩

theorem items_add (r : Roster key) (a : α) :
    (r.add a).items = if key a ∈ r.keys then r.items else r.items ++ [a] := by
  unfold add; split <;> simp_all

theorem add_of_mem {r : Roster key} {a : α} (h : key a ∈ r.keys) : r.add a = r := dif_pos h

theorem keys_add (r : Roster key) (a : α) :
    (r.add a).keys = if key a ∈ r.keys then r.keys else r.keys ++ [key a] := by
  unfold add; split <;> simp_all [keys]

theorem size_add (r : Roster key) (a : α) :
    (r.add a).size = if key a ∈ r.keys then r.size else r.size + 1 := by
  unfold size
  rw [items_add]
  split <;> simp

/-- Adds an item and says whether it is new. -/
def tryAdd (r : Roster key) (a : α) : Bool × Roster key := (!r.contains (key a), r.add a)

/-- Puts an item: in place of the one that has its key, or else at the end. -/
def put (r : Roster key) (a : α) : Roster key :=
  if h : key a ∈ r.keys then
    ⟨r.items.map fun b => if key b = key a then a else b, by
      have same : (r.items.map fun b => if key b = key a then a else b).map key
          = r.items.map key := by
        rw [List.map_map]
        apply List.map_congr_left
        intro b _
        by_cases hb : key b = key a <;> simp [hb]
      rw [same]; exact r.nodup⟩
  else r.add a

theorem items_put_of_mem {r : Roster key} {a : α} (h : key a ∈ r.keys) :
    (r.put a).items = r.items.map fun b => if key b = key a then a else b := by
  simp [put, h]

theorem items_put_of_not_mem {r : Roster key} {a : α} (h : key a ∉ r.keys) :
    (r.put a).items = r.items ++ [a] := by
  simp [put, h, items_add]

/-- Putting keeps the keys in order and adds a new one at the end. -/
theorem keys_put (r : Roster key) (a : α) :
    (r.put a).keys = if key a ∈ r.keys then r.keys else r.keys ++ [key a] := by
  by_cases h : key a ∈ r.keys
  · rw [if_pos h, keys, items_put_of_mem h, List.map_map]
    apply List.map_congr_left
    intro b _
    by_cases hb : key b = key a <;> simp [hb]
  · rw [if_neg h, keys, items_put_of_not_mem h]; simp [keys]

theorem mem_of_mem_put {r : Roster key} {a b : α} (h : b ∈ (r.put a).items) :
    b ∈ r.items ∨ b = a := by
  by_cases hk : key a ∈ r.keys
  · rw [items_put_of_mem hk] at h
    obtain ⟨c, hc, rfl⟩ := List.mem_map.1 h
    split
    · exact .inr rfl
    · exact .inl hc
  · rw [items_put_of_not_mem hk] at h
    simpa using h

theorem mem_of_mem_add {r : Roster key} {a b : α} (h : b ∈ (r.add a).items) :
    b ∈ r.items ∨ b = a := by
  rw [items_add] at h
  split at h
  · exact .inl h
  · simpa using h

/-- Adds the items of a list from the left, each unless its key is taken by then. -/
def addAll (r : Roster key) (items : List α) : Roster key := items.foldl add r

def putAll (r : Roster key) (items : List α) : Roster key := items.foldl put r

/-- The roster of a list of items: the first place and the last value of each key. -/
def ofList (items : List α) : Roster key := putAll ∅ items

@[simp] theorem contains_iff {r : Roster key} {k : κ} : r.contains k = true ↔ k ∈ r.keys := by
  simp [contains]

theorem contains_eq_false {r : Roster key} {k : κ} : r.contains k = false ↔ k ∉ r.keys := by
  simp [contains]

theorem get?_isSome {r : Roster key} {k : κ} : (r.get? k).isSome = true ↔ k ∈ r.keys := by
  simp [get?, keys, List.find?_isSome]

theorem get?_eq_none {r : Roster key} {k : κ} : r.get? k = none ↔ k ∉ r.keys := by
  simp [get?, keys]

theorem key_of_get? {r : Roster key} {k : κ} {a : α} (h : r.get? k = some a) : key a = k := by
  simpa using List.find?_some h

theorem mem_of_get? {r : Roster key} {k : κ} {a : α} (h : r.get? k = some a) : a ∈ r.items :=
  List.mem_of_find?_eq_some h

theorem get?_key {r : Roster key} {a : α} (h : a ∈ r.items) : r.get? (key a) = some a := by
  obtain ⟨items, nodup⟩ := r
  simp only [get?] at *
  induction items with
  | nil => simp at h
  | cons b items ih =>
    rw [List.map_cons, List.nodup_cons] at nodup
    rcases List.mem_cons.1 h with rfl | h
    · simp
    · have hb : key b ≠ key a := fun e => nodup.1 (e ▸ List.mem_map_of_mem h)
      simp [hb, ih nodup.2 h]

theorem get?_eq_some {r : Roster key} {k : κ} {a : α} :
    r.get? k = some a ↔ a ∈ r.items ∧ key a = k :=
  ⟨fun h => ⟨mem_of_get? h, key_of_get? h⟩, fun ⟨h, e⟩ => e ▸ get?_key h⟩

/-- After putting an item, its key finds it and every other key finds what it found before. -/
theorem get?_put (r : Roster key) (a : α) (k : κ) :
    (r.put a).get? k = if key a = k then some a else r.get? k := by
  apply Option.ext
  intro b
  rw [get?_eq_some]
  by_cases hk : key a = k
  · subst hk
    simp only [if_pos, Option.some.injEq]
    constructor
    · rintro ⟨hb, he⟩
      by_cases h : key a ∈ r.keys
      · rw [items_put_of_mem h] at hb
        obtain ⟨c, -, rfl⟩ := List.mem_map.1 hb
        by_cases hc : key c = key a
        · simp [hc]
        · exact absurd he (by simp [hc])
      · rw [items_put_of_not_mem h] at hb
        rcases List.mem_append.1 hb with hb | hb
        · exact absurd (List.mem_map_of_mem hb : key b ∈ r.keys) (he ▸ h)
        · exact (List.mem_singleton.1 hb).symm
    · rintro rfl
      refine ⟨?_, rfl⟩
      by_cases h : key a ∈ r.keys
      · rw [items_put_of_mem h]
        obtain ⟨c, hc, he⟩ := List.mem_map.1 h
        exact List.mem_map.2 ⟨c, hc, by simp [he]⟩
      · rw [items_put_of_not_mem h]; simp
  · rw [if_neg hk, get?_eq_some]
    by_cases h : key a ∈ r.keys
    · rw [items_put_of_mem h, List.mem_map]
      constructor
      · rintro ⟨⟨c, hc, rfl⟩, he⟩
        by_cases hca : key c = key a
        · exact absurd (by simpa [hca] using he) hk
        · simpa [hca] using ⟨hc, by simpa [hca] using he⟩
      · rintro ⟨hb, rfl⟩
        exact ⟨⟨b, hb, by rw [if_neg (Ne.symm hk)]⟩, rfl⟩
    · rw [items_put_of_not_mem h, List.mem_append, List.mem_singleton]
      constructor
      · rintro ⟨hb | rfl, he⟩
        · exact ⟨hb, he⟩
        · exact absurd he hk
      · rintro ⟨hb, he⟩
        exact ⟨.inl hb, he⟩

/-- Adding an item changes what is found only under a key that was free. -/
theorem get?_add (r : Roster key) (a : α) (k : κ) :
    (r.add a).get? k = if key a = k ∧ k ∉ r.keys then some a else r.get? k := by
  apply Option.ext
  intro b
  have hadd := items_add r a
  by_cases hfree : key a = k ∧ k ∉ r.keys
  · obtain ⟨rfl, hnot⟩ := hfree
    rw [if_pos ⟨rfl, hnot⟩, get?_eq_some, hadd, if_neg hnot, List.mem_append, List.mem_singleton,
      Option.some.injEq]
    constructor
    · rintro ⟨hb | rfl, he⟩
      · exact absurd (he ▸ List.mem_map_of_mem hb : key a ∈ r.keys) hnot
      · rfl
    · rintro rfl
      exact ⟨.inr rfl, rfl⟩
  · rw [if_neg hfree, get?_eq_some, get?_eq_some, hadd]
    split
    · rfl
    · next hnot =>
      rw [List.mem_append, List.mem_singleton]
      constructor
      · rintro ⟨hb | rfl, he⟩
        · exact ⟨hb, he⟩
        · exact absurd ⟨he, he ▸ hnot⟩ hfree
      · rintro ⟨hb, he⟩
        exact ⟨.inl hb, he⟩

theorem mem_keys_add {r : Roster key} {a : α} {k : κ} :
    k ∈ (r.add a).keys ↔ k ∈ r.keys ∨ k = key a := by
  rw [keys_add]
  split
  · next h =>
    constructor
    · exact .inl
    · rintro (h' | rfl) <;> assumption
  · simp

theorem mem_keys_put {r : Roster key} {a : α} {k : κ} :
    k ∈ (r.put a).keys ↔ k ∈ r.keys ∨ k = key a := by
  rw [keys_put]
  split
  · next h =>
    constructor
    · exact .inl
    · rintro (h' | rfl) <;> assumption
  · simp

theorem mem_keys_addAll {r : Roster key} {items : List α} {k : κ} :
    k ∈ (r.addAll items).keys ↔ k ∈ r.keys ∨ k ∈ items.map key := by
  induction items generalizing r with
  | nil => simp [addAll]
  | cons a items ih =>
    have step : r.addAll (a :: items) = (r.add a).addAll items := rfl
    rw [step, ih, mem_keys_add, List.map_cons, List.mem_cons]
    exact or_assoc

theorem mem_of_mem_addAll {r : Roster key} {items : List α} {b : α}
    (h : b ∈ (r.addAll items).items) : b ∈ r.items ∨ b ∈ items := by
  induction items generalizing r with
  | nil => exact .inl h
  | cons a items ih =>
    rcases ih (r := r.add a) h with h | h
    · rcases mem_of_mem_add h with hb | rfl
      · exact .inl hb
      · exact .inr List.mem_cons_self
    · exact .inr (List.mem_cons_of_mem _ h)

end Roster

/-- A set in order of insertion: a roster of items that are their own keys. -/
abbrev OrderedSet (α : Type) := Roster (fun a : α => a)

namespace OrderedSet

@[simp] theorem keys_eq_items {α : Type} (s : OrderedSet α) : s.keys = s.items := by
  simp [Roster.keys]

variable {α : Type} [DecidableEq α]

def ofList (items : List α) : OrderedSet α := Roster.addAll ∅ items

/-- The items of the first set that the second lacks, in their order. -/
def diff (s t : OrderedSet α) : OrderedSet α := s.filter fun a => !t.contains a

/-- All items of the first set, then the new ones of the second in their order. -/
def union (s t : OrderedSet α) : OrderedSet α := s.addAll t.items

theorem mem_add {s : OrderedSet α} {a b : α} : b ∈ (s.add a).items ↔ b ∈ s.items ∨ b = a := by
  rw [Roster.items_add]
  split
  · next h =>
    rw [keys_eq_items] at h
    constructor
    · exact .inl
    · rintro (h | rfl) <;> assumption
  · simp

theorem mem_addAll {s : OrderedSet α} {items : List α} {b : α} :
    b ∈ (s.addAll items).items ↔ b ∈ s.items ∨ b ∈ items := by
  have h : b ∈ (s.addAll items).keys ↔ b ∈ s.keys ∨ b ∈ items.map fun a => a :=
    Roster.mem_keys_addAll
  rwa [keys_eq_items, keys_eq_items, List.map_id''] at h
  exact fun _ => rfl

theorem mem_union {s t : OrderedSet α} {b : α} :
    b ∈ (s.union t).items ↔ b ∈ s.items ∨ b ∈ t.items := mem_addAll

theorem mem_ofList {items : List α} {b : α} : b ∈ (ofList items).items ↔ b ∈ items := by
  rw [ofList, mem_addAll]; simp

theorem mem_diff {s t : OrderedSet α} {b : α} :
    b ∈ (s.diff t).items ↔ b ∈ s.items ∧ b ∉ t.items := by
  rw [diff, Roster.items_filter, List.mem_filter]
  simp [Roster.contains, Roster.keys]

/-- Items that are not there yet come behind those that are. -/
theorem items_addAll_of_disjoint {s : OrderedSet α} {items : List α} (nodup : items.Nodup)
    (disjoint : ∀ b ∈ items, b ∉ s.items) : (s.addAll items).items = s.items ++ items := by
  induction items generalizing s with
  | nil => exact (List.append_nil _).symm
  | cons a items ih =>
    have step : s.addAll (a :: items) = (s.add a).addAll items := rfl
    have hadd := Roster.items_add s a
    rw [keys_eq_items, if_neg (disjoint a List.mem_cons_self)] at hadd
    obtain ⟨hnot, hrest⟩ := List.nodup_cons.1 nodup
    rw [step, ih hrest, hadd, List.append_assoc]
    · rfl
    · intro b hb hmem
      rcases mem_add.1 hmem with hmem | rfl
      · exact disjoint b (List.mem_cons_of_mem a hb) hmem
      · exact hnot hb

theorem items_union_diff (s t : OrderedSet α) :
    (s.union (t.diff s)).items = s.items ++ (t.diff s).items := by
  refine items_addAll_of_disjoint ?_ fun b hb => (mem_diff.1 hb).2
  have hkeys := (t.diff s).keys_nodup
  rwa [keys_eq_items] at hkeys

end OrderedSet

end PointsTo
