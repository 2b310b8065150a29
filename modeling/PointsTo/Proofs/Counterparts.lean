import Mathlib.Data.List.Forall2
import Mathlib.Data.Multiset.MapFold
import PointsTo.Proofs.Constraints
import PointsTo.Proofs.Proper

/-!
Programs that correspond method by method. Two programs may have other orders and other bodies; as
long as related methods answer to one name and are abstract together, whatever is looked up by name
in the one, be it a class, a method, a field or what a call resolves to, has its counterpart in the
other.
-/
namespace PointsTo

/-- A relation of methods that a look-up cannot tell apart. -/
structure Counterpart where
  Rel : Method → Method → Prop
  subsignature : ∀ {m m'}, Rel m m' → m'.subsignature = m.subsignature
  isAbstract : ∀ {m m'}, Rel m m' → m'.isAbstract = m.isAbstract

/-- The relation read from the other side. -/
def Counterpart.symm (R : Counterpart) : Counterpart where
  Rel m m' := R.Rel m' m
  subsignature h := (R.subsignature h).symm
  isAbstract h := (R.isAbstract h).symm

/-- The classes differ in their methods only, which are related one to one. -/
def Class.Matches (R : Counterpart) (c c' : Class) : Prop :=
  c' = { c with methods := c'.methods } ∧
    Multiset.Rel R.Rel (c.methods.items : Multiset Method) c'.methods.items

/-- The classes of the programs match one to one. -/
def Program.Matches (R : Counterpart) (p p' : Program) : Prop :=
  Multiset.Rel (Class.Matches R) (p.classes.items : Multiset Class) p'.classes.items

/-! ### Related items -/

section Related

variable {α β κ : Type} {R : α → α → Prop} {S : β → β → Prop}

theorem rel_cases {x y : Option α} (h : Option.Rel R x y) :
    (x = none ∧ y = none) ∨ ∃ a b, x = some a ∧ y = some b ∧ R a b := by
  cases h with
  | some hab => exact .inr ⟨_, _, rfl, rfl, hab⟩
  | none => exact .inl ⟨rfl, rfl⟩

theorem exists_of_rel {x y : Option α} (h : Option.Rel R x y) {a : α} (ha : x = some a) :
    ∃ b, y = some b ∧ R a b := by
  subst ha
  cases h with
  | some hab => exact ⟨_, rfl, hab⟩

/-- Rosters with related items find related items under each key. -/
theorem Roster.rel_get? [DecidableEq κ] {key : α → κ} {r r' : Roster key}
    (same : ∀ a b, R a b → key b = key a)
    (h : Multiset.Rel R (r.items : Multiset α) r'.items) (k : κ) :
    Option.Rel R (r.get? k) (r'.get? k) := by
  cases hk : r.get? k with
  | some a =>
    obtain ⟨b, hb, hab⟩ := Multiset.exists_mem_of_rel_of_mem h (mem_of_get? hk)
    rw [get?_eq_some.2 ⟨hb, (same a b hab).trans (key_of_get? hk)⟩]
    exact .some hab
  | none =>
    cases hk' : r'.get? k with
    | none => exact .none
    | some b =>
      obtain ⟨a, ha, hab⟩ := Multiset.exists_mem_of_rel_of_mem (Multiset.rel_flip.2 h)
        (mem_of_get? hk')
      have hfound := get?_eq_some.2 ⟨ha, (same a b hab).symm.trans (key_of_get? hk')⟩
      rw [hk] at hfound
      cases hfound

theorem rel_findSome? {f g : α → Option β} {l l' : List α} (h : List.Forall₂ R l l')
    (step : ∀ a b, R a b → Option.Rel S (f a) (g b)) :
    Option.Rel S (l.findSome? f) (l'.findSome? g) := by
  induction h with
  | nil => exact .none
  | @cons a b l l' hab _ ih =>
    rw [List.findSome?_cons, List.findSome?_cons]
    rcases rel_cases (step a b hab) with ⟨ha, hb⟩ | ⟨x, y, ha, hb, hxy⟩
    · rw [ha, hb]
      exact ih
    · rw [ha, hb]
      exact .some hxy

theorem forall₂_filterMap {f g : β → Option α} (step : ∀ x, Option.Rel R (f x) (g x))
    (l : List β) : List.Forall₂ R (l.filterMap f) (l.filterMap g) := by
  induction l with
  | nil => exact .nil
  | cons x l ih =>
    rcases rel_cases (step x) with ⟨hf, hg⟩ | ⟨a, b, hf, hg, hab⟩
    · rw [List.filterMap_cons_none hf, List.filterMap_cons_none hg]
      exact ih
    · rw [List.filterMap_cons_some hf, List.filterMap_cons_some hg]
      exact .cons hab ih

theorem flatMap_eq_of_forall₂ {f : α → List β} (same : ∀ a b, R a b → f b = f a) {l l' : List α}
    (h : List.Forall₂ R l l') : l'.flatMap f = l.flatMap f := by
  induction h with
  | nil => rfl
  | cons hab _ ih => rw [List.flatMap_cons, List.flatMap_cons, ih, same _ _ hab]

theorem rel_filter {test : α → Bool} (same : ∀ a b, R a b → test b = test a) {x y : Option α}
    (h : Option.Rel R x y) : Option.Rel R (x.filter test) (y.filter test) := by
  cases h with
  | none => exact .none
  | @some a b hab =>
    rw [Option.filter_some, Option.filter_some, same a b hab]
    split
    · exact .some hab
    · exact .none

end Related

namespace Class.Matches

variable {R : Counterpart} {c c' : Class} (h : c.Matches R c')

include h

theorem name : c'.name = c.name := by rw [h.1]

theorem superclass : c'.superclass = c.superclass := by rw [h.1]

theorem interfaces : c'.interfaces = c.interfaces := by rw [h.1]

theorem fields : c'.fields = c.fields := by rw [h.1]

theorem get? (subsignature : String) : Option.Rel R.Rel (c.methods.get? subsignature)
    (c'.methods.get? subsignature) :=
  Roster.rel_get? (fun _ _ hm => R.subsignature hm) h.2 subsignature

theorem symm : c'.Matches R.symm c :=
  ⟨by rw [h.1], Multiset.rel_flip.1 h.2⟩

end Class.Matches

namespace Program.Matches

variable {R : Counterpart} {p p' : Program} (h : p.Matches R p')

include h

theorem symm : p'.Matches R.symm p :=
  Multiset.rel_flip.1 (Multiset.Rel.mono h fun _ _ _ _ hc => hc.symm)

theorem class? (name : String) :
    Option.Rel (Class.Matches R) (p.class? name) (p'.class? name) :=
  Roster.rel_get? (fun _ _ hc => hc.name) h name

theorem size : p'.classes.size = p.classes.size :=
  (Multiset.card_eq_card_of_rel h).symm

theorem method? (name : MethodName) :
    Option.Rel R.Rel (p.method? name) (p'.method? name) := by
  unfold Program.method?
  rcases rel_cases (h.class? name.declaringClass) with ⟨hc, hc'⟩ | ⟨c, c', hc, hc', hclass⟩
  · rw [hc, hc']
    exact .none
  · rw [hc, hc']
    exact hclass.get? name.subsignature

/-! The walks meet related classes in the same order. -/

theorem ancestryWithin (limit : Nat) (name : String) :
    List.Forall₂ (Class.Matches R) (p.ancestryWithin limit name).classes
      (p'.ancestryWithin limit name).classes ∧
    (p'.ancestryWithin limit name).beyond = (p.ancestryWithin limit name).beyond := by
  induction limit generalizing name with
  | zero => exact ⟨.nil, rfl⟩
  | succ limit ih =>
    unfold Program.ancestryWithin
    rcases rel_cases (h.class? name) with ⟨hc, hc'⟩ | ⟨c, c', hc, hc', hclass⟩
    · rw [hc, hc']
      exact ⟨.nil, rfl⟩
    · rw [hc, hc']
      dsimp only
      rw [hclass.superclass]
      cases c.superclass with
      | none => exact ⟨.cons hclass .nil, rfl⟩
      | some above => exact ⟨.cons hclass (ih above).1, (ih above).2⟩

theorem ancestry (name : String) :
    List.Forall₂ (Class.Matches R) (p.ancestry name).classes (p'.ancestry name).classes ∧
      (p'.ancestry name).beyond = (p.ancestry name).beyond := by
  unfold Program.ancestry
  rw [h.size]
  exact h.ancestryWithin _ name

theorem reachFrom {links : Class → List String}
    (same : ∀ c c' : Class, c.Matches R c' → links c' = links c) (pending seen : List String) :
    p'.reachFrom links pending seen = p.reachFrom links pending seen := by
  -- the induction is on the scan of the first program, and the second takes the same turns
  fun_induction p.reachFrom links pending seen with
  | case1 seen => rw [Program.reachFrom]
  | case2 seen name rest hseen ih =>
    rw [Program.reachFrom, dif_pos hseen]
    exact ih
  | case3 seen name rest hseen hnone ih =>
    have hnone' : p'.class? name = none := by
      rcases rel_cases (h.class? name) with ⟨-, hc'⟩ | ⟨c, c', hc, -⟩
      · exact hc'
      · rw [hnone] at hc
        cases hc
    rw [Program.reachFrom, dif_neg hseen]
    split
    · exact ih
    · next hsome =>
      rw [hnone'] at hsome
      cases hsome
  | case4 seen name rest hseen c hsome ih =>
    obtain ⟨c', hc', hclass⟩ := exists_of_rel (h.class? name) hsome
    rw [Program.reachFrom, dif_neg hseen]
    split
    · next hnone =>
      rw [hc'] at hnone
      cases hnone
    · next d hd =>
      rw [hc'] at hd
      obtain rfl := Option.some.inj hd
      rw [same c c' hclass]
      exact ih

theorem interfacesOf (name : String) :
    List.Forall₂ (Class.Matches R) (p.interfacesOf name) (p'.interfacesOf name) := by
  have hstart : (p'.ancestry name).classes.flatMap Class.interfaces =
      (p.ancestry name).classes.flatMap Class.interfaces :=
    flatMap_eq_of_forall₂ (fun _ _ hc => hc.interfaces) (h.ancestry name).1
  have hreach : p'.reach Class.interfaces ((p'.ancestry name).classes.flatMap Class.interfaces) =
      p.reach Class.interfaces ((p.ancestry name).classes.flatMap Class.interfaces) := by
    rw [hstart]
    exact h.reachFrom (fun _ _ hc => hc.interfaces) _ _
  unfold Program.interfacesOf Program.reachClasses
  rw [hreach]
  exact forall₂_filterMap h.class? _

/-! ### Members -/

theorem lookup (name subsignature : String) {test : Method → Bool}
    (same : ∀ m m' : Method, R.Rel m m' → test m' = test m) :
    Option.Rel R.Rel (p.lookup name subsignature test) (p'.lookup name subsignature test) := by
  have hwhere := List.rel_append (h.ancestry name).1 (h.interfacesOf name)
  exact rel_findSome? hwhere fun c c' hclass => rel_filter same (hclass.get? subsignature)

theorem dispatch (name subsignature : String) :
    Option.Rel R.Rel (p.dispatch name subsignature) (p'.dispatch name subsignature) :=
  h.lookup name subsignature fun _ _ hm => congrArg not (R.isAbstract hm)

theorem resolveMethod (ref : MethodRef) :
    Option.Rel R.Rel (p.resolveMethod ref) (p'.resolveMethod ref) :=
  h.lookup _ _ fun _ _ _ => rfl

theorem fieldOf (ref : FieldRef) : p'.fieldOf ref = p.fieldOf ref := by
  have hfield : Option.Rel Eq (p.declaredField? ref) (p'.declaredField? ref) := by
    refine rel_findSome? (h.ancestry _).1 fun c c' hclass => ?_
    rw [hclass.fields]
    cases c.fields.get? ref.name with
    | none => exact .none
    | some f => exact .some rfl
  unfold Program.fieldOf
  rcases rel_cases hfield with ⟨hf, hf'⟩ | ⟨f, f', hf, hf', rfl⟩
  · rw [hf, hf']
  · rw [hf, hf']

/-- A call runs the same method in both programs. -/
theorem resolveCall_found {type : Option String} {call : Call} {m : Method}
    (hm : p.resolveCall type call = .found m) :
    ∃ m', p'.resolveCall type call = .found m' ∧ R.Rel m m' := by
  unfold Program.resolveCall at hm ⊢
  split at hm
  · next kind =>
    rw [if_pos kind]
    rcases rel_cases (h.resolveMethod call.callee) with ⟨hf, -⟩ | ⟨f, f', hf, hf', hmethod⟩
    · rw [hf] at hm
      cases hm
    · rw [hf] at hm
      cases hm
      rw [hf']
      exact ⟨f', rfl, hmethod⟩
  · next kind =>
    rw [if_neg kind]
    cases type with
    | none => cases hm
    | some type =>
      dsimp only at hm ⊢
      rcases rel_cases (h.dispatch (receiverClass type) call.callee.subsignature) with
        ⟨hf, -⟩ | ⟨f, f', hf, hf', hmethod⟩
      · rw [hf] at hm
        dsimp only at hm
        split at hm <;> cases hm
      · rw [hf] at hm
        cases hm
        rw [hf']
        exact ⟨f', rfl, hmethod⟩

/-- A call that finds no method in one program finds none in the other. -/
theorem resolveCall_missing {type : Option String} {call : Call} {receiver subsignature : String}
    (hm : p.resolveCall type call = .missing receiver subsignature) :
    p'.resolveCall type call = .missing receiver subsignature := by
  unfold Program.resolveCall at hm ⊢
  split at hm
  · split at hm <;> cases hm
  · next kind =>
    rw [if_neg kind]
    cases type with
    | none => cases hm
    | some type =>
      dsimp only at hm ⊢
      have hleaves : p'.leavesProgram (receiverClass type) = p.leavesProgram (receiverClass type) :=
        congrArg Option.isSome (h.ancestry (receiverClass type)).2
      rcases rel_cases (h.dispatch (receiverClass type) call.callee.subsignature) with
        ⟨hf, hf'⟩ | ⟨f, f', hf, -⟩
      · rw [hf] at hm
        rw [hf', hleaves]
        exact hm
      · rw [hf] at hm
        cases hm

end Program.Matches

end PointsTo
