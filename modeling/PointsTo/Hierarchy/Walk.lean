import PointsTo.Program.Class

/-!
Walks over the classes of a program. `ancestry` follows the superclass links from a class as far
as they stay in the program; `reach` collects, in breadth-first order, every name that can be
reached by given links, and `comesTo` looks for one of them and ends where it finds it. A class that
is named but not declared is the end of every walk.
-/
namespace PointsTo

/-- The classes on a superclass chain, from below, and the name at which the chain leaves the
program. -/
structure Ancestry where
  classes : List Class
  beyond : Option String

namespace Program

/-- The superclass chain from a name on, at most `limit` classes of it. -/
def ancestryWithin (p : Program) : (limit : Nat) → String → Ancestry
  | 0, _ => ⟨[], none⟩
  | limit + 1, name =>
    match p.class? name with
    | none => ⟨[], some name⟩
    | some c =>
      match c.superclass with
      | none => ⟨[c], none⟩
      | some superclass =>
        let above := p.ancestryWithin limit superclass
        ⟨c :: above.classes, above.beyond⟩

/-- The superclass chain from a name on. A chain without a cycle has no more classes than the
program, and one more step shows where it leaves the program. -/
def ancestry (p : Program) (name : String) : Ancestry :=
  p.ancestryWithin (p.classes.size + 1) name

/-- How many classes are not among the names. -/
def unseen (p : Program) (seen : List String) : Nat :=
  (p.classes.keys.filter fun name => !seen.contains name).length

theorem unseen_append_le (p : Program) (seen : List String) (name : String) :
    p.unseen (seen ++ [name]) ≤ p.unseen seen := by
  unfold unseen
  rw [← List.countP_eq_length_filter, ← List.countP_eq_length_filter]
  apply List.countP_mono_left
  intro n _ h
  simp only [List.contains_eq_mem, List.mem_append, Bool.not_eq_true', decide_eq_false_iff_not,
    not_or] at h ⊢
  exact h.1

theorem unseen_append_lt (p : Program) {seen : List String} {name : String} {c : Class}
    (hc : p.class? name = some c) (new : name ∉ seen) :
    p.unseen (seen ++ [name]) < p.unseen seen := by
  have hmem : name ∈ p.classes.keys := Roster.get?_isSome.1 (by simp [class?] at hc; simp [hc])
  unfold unseen
  rw [← List.countP_eq_length_filter, ← List.countP_eq_length_filter]
  obtain ⟨before, after, hkeys⟩ := List.append_of_mem hmem
  have mono : ∀ l : List String, l.countP (fun n => !(seen ++ [name]).contains n) ≤
      l.countP fun n => !seen.contains n := fun l => by
    apply List.countP_mono_left
    intro n _ h
    simp only [List.contains_eq_mem, List.mem_append, Bool.not_eq_true', decide_eq_false_iff_not,
      not_or] at h ⊢
    exact h.1
  rw [hkeys, List.countP_append, List.countP_append, List.countP_cons, List.countP_cons]
  have hb := mono before
  have ha := mono after
  simp only [List.contains_eq_mem, List.mem_append, List.mem_singleton, or_true, decide_true,
    Bool.not_true, Bool.false_eq_true, if_false, new, decide_false, Bool.not_false, if_true] at *
  omega

/-- The names that the links of classes lead to, breadth first: those of `pending` first, then what
each class among them links to. `seen` are the names that were reached before. -/
def reachFrom (p : Program) (links : Class → List String) (pending seen : List String) :
    List String :=
  match pending with
  | [] => seen
  | name :: rest =>
    if _hseen : name ∈ seen then p.reachFrom links rest seen
    else
      match _hclass : p.class? name with
      | none => p.reachFrom links rest (seen ++ [name])
      | some c => p.reachFrom links (rest ++ links c) (seen ++ [name])
termination_by (p.unseen seen, pending.length)
decreasing_by
  · exact Prod.Lex.right _ (by simp)
  · rcases Nat.lt_or_eq_of_le (p.unseen_append_le seen name) with h | h
    · exact Prod.Lex.left _ _ h
    · rw [h]; exact Prod.Lex.right _ (by simp)
  · exact Prod.Lex.left _ _ (p.unseen_append_lt _hclass _hseen)

/-- The names that can be reached from the given ones, those among them. -/
def reach (p : Program) (links : Class → List String) (start : List String) : List String :=
  p.reachFrom links start []

/-- Whether a search for a name comes to it. It looks at the top of a stack; the class of a name
that is not the one looked for, and was not seen before, puts the names it links to on top of the
others, the last one uppermost. A name can be on the stack several times. -/
def comesTo (p : Program) (links : Class → List String) (goal : String)
    (stack seen : List String) : Bool :=
  match stack with
  | [] => false
  | name :: rest =>
    if name = goal then true
    else if _hseen : name ∈ seen then p.comesTo links goal rest seen
    else
      match _hclass : p.class? name with
      | none => p.comesTo links goal rest (seen ++ [name])
      | some c => p.comesTo links goal ((links c).reverse ++ rest) (seen ++ [name])
termination_by (p.unseen seen, stack.length)
decreasing_by
  · exact Prod.Lex.right _ (by simp)
  · rcases Nat.lt_or_eq_of_le (p.unseen_append_le seen name) with h | h
    · exact Prod.Lex.left _ _ h
    · rw [h]; exact Prod.Lex.right _ (by simp)
  · exact Prod.Lex.left _ _ (p.unseen_append_lt _hclass _hseen)

/-- The classes that can be reached from the given names, in breadth-first order. -/
def reachClasses (p : Program) (links : Class → List String) (start : List String) : List Class :=
  (p.reach links start).filterMap p.class?

end Program

end PointsTo
