import PointsTo.Program.Class

/-!
The heap: all objects that one allocation creates are one abstract object. Objects are numbered in
the order in which their allocations were first met.
-/
namespace PointsTo

/-- The number of an abstract object. -/
abbrev ObjectId := Nat

/-- A set of abstract objects in order of arrival. -/
abbrev ObjectSet := OrderedSet ObjectId

def ObjectSet.sorted (s : ObjectSet) : List ObjectId := s.items.mergeSort

/-- The allocations that were met; the place of each in the list is the number of its object. -/
abbrev Heap := OrderedSet Allocation

namespace Heap

/-- The object of an allocation, and the heap that has it. -/
def objectOf (h : Heap) (a : Allocation) : ObjectId × Heap :=
  match h.indexOf? a with
  | some o => (o, h)
  | none => (h.size, h.add a)

def allocation? (h : Heap) (o : ObjectId) : Option Allocation := h.items[o]?

/-- An allocation that was met before has its object, and another one gets the next number. -/
theorem objectOf_cases (h : Heap) (a : Allocation) :
    (∃ o, h.objectOf a = (o, h) ∧ h.allocation? o = some a) ∨
      (a ∉ h.items ∧ h.objectOf a = (h.size, h.add a) ∧ (h.add a).items = h.items ++ [a]) := by
  have hkeys := OrderedSet.keys_eq_items h
  cases hi : h.indexOf? a with
  | some o =>
    refine .inl ⟨o, by simp [objectOf, hi], ?_⟩
    have hget := List.idxOf?_eq_some_iff.1 hi
    rw [hkeys] at hget
    obtain ⟨hlt, heq, -⟩ := hget
    simp [allocation?, hlt, heq]
  | none =>
    have hnot : a ∉ h.items := by
      simpa [Roster.indexOf?, hkeys] using hi
    refine .inr ⟨hnot, by simp [objectOf, hi], ?_⟩
    rw [Roster.items_add, if_neg (by rw [hkeys]; exact hnot)]

theorem allocation?_objectOf (h : Heap) (a : Allocation) :
    (h.objectOf a).2.allocation? (h.objectOf a).1 = some a := by
  rcases h.objectOf_cases a with ⟨o, ho, ha⟩ | ⟨-, ho, ha⟩
  · rw [ho]
    exact ha
  · rw [ho]
    unfold allocation?
    rw [ha]
    exact List.getElem?_concat_length ..

/-- The objects that were there keep their numbers. -/
theorem prefix_objectOf (h : Heap) (a : Allocation) : h.items <+: (h.objectOf a).2.items := by
  rcases h.objectOf_cases a with ⟨o, ho, -⟩ | ⟨-, ho, ha⟩
  · have hsame : (h.objectOf a).2 = h := congrArg Prod.snd ho
    exact hsame.symm ▸ List.prefix_rfl
  · rw [ho]
    exact ⟨[a], ha.symm⟩

theorem mem_objectOf {h : Heap} {a b : Allocation} :
    b ∈ (h.objectOf a).2.items ↔ b ∈ h.items ∨ b = a := by
  rcases h.objectOf_cases a with ⟨o, ho, ha⟩ | ⟨-, ho, ha⟩
  · rw [ho]
    constructor
    · exact .inl
    · rintro (hb | rfl)
      · exact hb
      · exact List.mem_of_getElem? ha
  · rw [ho, ha]
    simp

/-- Two objects come from two allocations. -/
theorem allocation?_injective (h : Heap) {o o' : ObjectId} {a : Allocation}
    (ho : h.allocation? o = some a) (ho' : h.allocation? o' = some a) : o = o' := by
  have hnodup : h.items.Nodup := OrderedSet.keys_eq_items h ▸ h.keys_nodup
  obtain ⟨hlt, hget⟩ := List.getElem?_eq_some_iff.1 ho
  obtain ⟨hlt', hget'⟩ := List.getElem?_eq_some_iff.1 ho'
  exact (List.getElem_inj hnodup).1 (hget.trans hget'.symm)

def typeOf (h : Heap) (o : ObjectId) : String := ((h.allocation? o).map Allocation.type).getD ""

def text (h : Heap) (o : ObjectId) : String := ((h.allocation? o).map Allocation.text).getD ""

def textOfSet (h : Heap) (s : ObjectSet) : String :=
  "\x7b" ++ ", ".intercalate (s.items.map h.text) ++ "\x7d"

end Heap

end PointsTo
