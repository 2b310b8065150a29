/-!
A queue: what is put down first is taken first. Only the list of its items means anything, and
every operation is described by what it does to that list.
-/
namespace PointsTo

/-- A queue. New items are kept apart, the newest first, until all older ones have been taken, so
that an item is moved only once. -/
structure Queue (α : Type) where
  front : List α := []
  back : List α := []

namespace Queue

variable {α : Type}

instance : EmptyCollection (Queue α) := ⟨{}⟩

/-- The items, the one to be taken next at the head. -/
def toList (q : Queue α) : List α := q.front ++ q.back.reverse

def size (q : Queue α) : Nat := q.front.length + q.back.length

def isEmpty (q : Queue α) : Bool := q.front.isEmpty && q.back.isEmpty

def push (q : Queue α) (a : α) : Queue α := { q with back := a :: q.back }

def pop? (q : Queue α) : Option (α × Queue α) :=
  match q.front with
  | a :: rest => some (a, { q with front := rest })
  | [] =>
    match q.back.reverse with
    | a :: rest => some (a, { front := rest })
    | [] => none

@[simp] theorem toList_empty : (∅ : Queue α).toList = [] := rfl

@[simp] theorem toList_push (q : Queue α) (a : α) : (q.push a).toList = q.toList ++ [a] := by
  simp [toList, push]

@[simp] theorem length_toList (q : Queue α) : q.toList.length = q.size := by
  simp [toList, size]

@[simp] theorem isEmpty_iff {q : Queue α} : q.isEmpty ↔ q.toList = [] := by
  simp [isEmpty, toList]

@[simp] theorem pop?_eq_none_iff {q : Queue α} : q.pop? = none ↔ q.toList = [] := by
  obtain ⟨front, back⟩ := q
  cases front with
  | cons a rest => simp [pop?, toList]
  | nil => cases h : back.reverse <;> simp [pop?, toList, h]

/-- What is taken is the head of the items, and what stays is their tail. -/
theorem toList_of_pop? {q rest : Queue α} {a : α} (h : q.pop? = some (a, rest)) :
    q.toList = a :: rest.toList := by
  obtain ⟨front, back⟩ := q
  cases front with
  | cons b front =>
    obtain ⟨rfl, rfl⟩ : b = a ∧ ⟨front, back⟩ = rest := by simpa [pop?] using h
    rfl
  | nil =>
    cases hb : back.reverse with
    | nil => simp [pop?, hb] at h
    | cons b front =>
      obtain ⟨rfl, rfl⟩ : b = a ∧ ⟨front, []⟩ = rest := by simpa [pop?, hb] using h
      simp [toList, hb]

end Queue

end PointsTo
