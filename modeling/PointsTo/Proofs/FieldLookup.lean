import PointsTo.Proofs.Constraints
import PointsTo.Proofs.Receivers
import PointsTo.Proofs.Searches
import PointsTo.Proofs.Sources

/-!
The fields that references resolve to. Only the superclass chain is asked. A reference that finds
nothing there stands for a field of its own class, with the type that the first such reference gives
it, also where an interface of the class declares the field; the field then has two static pointers,
one for the references through the interface and one for those through the class.
-/
namespace PointsTo

/-- The field that a reference stands for where no class declares one. -/
def FieldRef.phantom (ref : FieldRef) : Field := ⟨ref.declaringClass, ref.name, ref.type, false⟩

@[simp] theorem FieldRef.id_phantom (ref : FieldRef) : ref.phantom.id = ref.target := rfl

namespace Program

open Relation (ReflTransGen)
open Solver (State)

/-- The program has the class, and it declares a field of the name. -/
def Declares (p : Program) (name field : String) : Prop :=
  ∃ c, p.class? name = some c ∧ (c.fields.get? field).isSome = true

/-- Each field stands in the class that it names. -/
def FieldsHomed (p : Program) : Prop :=
  ∀ c ∈ p.classes.items, ∀ f ∈ c.fields.items, f.declaringClass = c.name

/-- The phantom fields behind a sequence of references. -/
def phantomsOf (p : Program) (refs : List FieldRef) : PhantomFields :=
  refs.foldl (fun phantoms ref => (p.resolveField phantoms ref).2) ∅

variable {p : Program} {ref ref' : FieldRef} {f : Field}

theorem fieldsHomed_of_parsed (h : Jimple.Parsed p) : p.FieldsHomed := by
  intro c hc f hf
  obtain ⟨line, read⟩ := (h.classRead c hc).fields f hf
  obtain ⟨modifiers, -, hfield⟩ := Jimple.of_readField read
  rw [hfield]

/-! ### Declared fields -/

theorem ascends_iff_declaredField? (chains : p.FiniteChains) {r : Option Field} :
    p.Ascends (fun c => c.fields.get? ref.name) ref.declaringClass r ↔
      p.declaredField? ref = r := by
  have found := (climbs_ancestry chains ref.declaringClass).ascends fun c => c.fields.get? ref.name
  exact ⟨fun h => found.unique h, fun h => h ▸ found⟩

theorem declaredField?_eq_none_iff (chains : p.FiniteChains) : p.declaredField? ref = none ↔
    ∀ n, ReflTransGen p.Above n ref.declaringClass → ¬ p.Declares n ref.name := by
  have climb := climbs_ancestry chains ref.declaringClass
  rw [declaredField?, List.findSome?_eq_none_iff]
  constructor
  · rintro h n hup ⟨c, here, hsome⟩
    have hname : c.name = n := Roster.key_of_get? here
    have hnone := h c (climb.mem_classes.2 (hname ▸ ⟨here, hup⟩))
    rw [hnone] at hsome
    cases hsome
  · intro h c hc
    obtain ⟨here, hup⟩ := climb.mem_classes.1 hc
    rw [← Option.not_isSome_iff_eq_none]
    exact fun hsome => h c.name hup ⟨c, here, hsome⟩

/-- Where fields are homed, a declared field tells the class above that has it. -/
theorem declared_above (chains : p.FiniteChains) (homed : p.FieldsHomed)
    (h : p.declaredField? ref = some f) :
    f.name = ref.name ∧ ReflTransGen p.Above f.declaringClass ref.declaringClass ∧
      ∃ c, p.class? f.declaringClass = some c ∧ c.fields.get? ref.name = some f := by
  obtain ⟨c, hc, hf⟩ := List.exists_of_findSome?_eq_some h
  obtain ⟨here, hup⟩ := (climbs_ancestry chains ref.declaringClass).mem_classes.1 hc
  have hclass := homed c (Roster.mem_of_get? here) f (Roster.mem_of_get? hf)
  rw [hclass]
  exact ⟨Roster.key_of_get? hf, hup, c, here, hf⟩

/-- A class that declares the field is what a reference through it finds. -/
theorem declaredField?_of_class (chains : p.FiniteChains) {c : Class}
    (here : p.class? ref.declaringClass = some c) (hf : c.fields.get? ref.name = some f) :
    p.declaredField? ref = some f :=
  (ascends_iff_declaredField? chains).1 (.found here hf)

/-- Whether a class declares the field depends on the class and the name alone. -/
theorem declaredField?_congr (h : ref.target = ref'.target) :
    p.declaredField? ref = p.declaredField? ref' := by
  obtain ⟨owner, name, type⟩ := ref
  obtain ⟨owner', name', type'⟩ := ref'
  cases h
  rfl

/-! ### Phantom fields -/

theorem resolveField_declared (phantoms : PhantomFields) (h : p.declaredField? ref = some f) :
    p.resolveField phantoms ref = (f, phantoms) := by
  simp only [resolveField, h]

/-- A reference that finds nothing gets what is remembered under its class and name, else its own
phantom. -/
theorem resolveField_phantom (phantoms : PhantomFields) (h : p.declaredField? ref = none) :
    p.resolveField phantoms ref =
      ((phantoms.get? ref.target).getD ref.phantom, phantoms.add ref.phantom) := by
  simp only [resolveField, h]
  cases known : phantoms.get? ref.target with
  | none => rfl
  | some g =>
    have hkey : Field.id ref.phantom ∈ phantoms.keys := Roster.get?_isSome.1 (by simp [known])
    rw [Roster.add_of_mem hkey]
    rfl

/-- One reference adds its phantom to the table, if no class declares it and its place is free. -/
theorem get?_resolveField (phantoms : PhantomFields) (ref : FieldRef) (target : FieldName) :
    (p.resolveField phantoms ref).2.get? target = (phantoms.get? target).or
      (if ref.target = target ∧ p.declaredField? ref = none then some ref.phantom else none) := by
  cases h : p.declaredField? ref with
  | some f => simp [resolveField_declared phantoms h]
  | none =>
    rw [resolveField_phantom phantoms h, Roster.get?_add, FieldRef.id_phantom]
    cases known : phantoms.get? target with
    | some g =>
      have hkey : target ∈ phantoms.keys := Roster.get?_isSome.1 (by simp [known])
      simp [hkey]
    | none =>
      have hkey : target ∉ phantoms.keys := Roster.get?_eq_none.1 known
      simp [hkey]

/-- **The table of phantom fields** has for each class and name what the first reference to them said,
unless a class declares the field. -/
theorem get?_phantomsOf (refs : List FieldRef) (target : FieldName) :
    (p.phantomsOf refs).get? target =
      (refs.find? fun x => x.target = target ∧ p.declaredField? x = none).map FieldRef.phantom := by
  have run : ∀ (refs : List FieldRef) (phantoms : PhantomFields),
      (refs.foldl (fun phantoms ref => (p.resolveField phantoms ref).2) phantoms).get? target =
        (phantoms.get? target).or
          ((refs.find? fun x => x.target = target ∧ p.declaredField? x = none).map
            FieldRef.phantom) := by
    intro refs
    induction refs with
    | nil => simp
    | cons ref refs ih =>
      intro phantoms
      rw [List.foldl_cons, ih, get?_resolveField, Option.or_assoc]
      congr 1
      by_cases h : ref.target = target ∧ p.declaredField? ref = none
      · rw [if_pos h, List.find?_cons_of_pos (by simpa using h)]
        rfl
      · rw [if_neg h, List.find?_cons_of_neg (by simpa using h), Option.none_or]
  exact run refs ∅

/-- Behind any references, one that no class declares stands for the first that was of its class and
name. -/
theorem resolveField_phantomsOf (refs : List FieldRef) (h : p.declaredField? ref = none) :
    ∃ first, (refs ++ [ref]).find? (fun x => x.target = ref.target) = some first ∧
      (p.resolveField (p.phantomsOf refs) ref).1 = first.phantom := by
  have hall : ∀ x : FieldRef,
      decide (x.target = ref.target ∧ p.declaredField? x = none) =
        decide (x.target = ref.target) := by
    intro x
    apply decide_eq_decide.2
    exact and_iff_left_of_imp fun hx => (declaredField?_congr hx).trans h
  rw [resolveField_phantom _ h, get?_phantomsOf]
  simp only [hall, List.find?_append]
  cases hfirst : refs.find? fun x => x.target = ref.target with
  | some first => exact ⟨first, rfl, rfl⟩
  | none => exact ⟨ref, by simp, rfl⟩

/-! ### Pointers -/

/-- Two references to fields of one name mean the same field if they find the same declaration, or
find none and are of one class. -/
theorem fieldOf_eq_iff (chains : p.FiniteChains) (homed : p.FieldsHomed)
    (hname : ref.name = ref'.name) : p.fieldOf ref = p.fieldOf ref' ↔
      p.declaredField? ref = p.declaredField? ref' ∧
        (p.declaredField? ref = none → ref.declaringClass = ref'.declaringClass) := by
  -- a declaration in the class of a reference is found by it
  have apart : ∀ {r r' : FieldRef} {f : Field}, r.name = r'.name → p.declaredField? r = some f →
      p.declaredField? r' = none → f.id ≠ r'.target := by
    intro r r' f hname found lost hsame
    obtain ⟨-, -, c, here, hf⟩ := declared_above chains homed found
    have hclass : f.declaringClass = r'.declaringClass := congrArg FieldName.declaringClass hsame
    rw [hclass] at here
    rw [declaredField?_of_class chains here (hname ▸ hf)] at lost
    cases lost
  unfold fieldOf
  cases h : p.declaredField? ref with
  | none =>
    cases h' : p.declaredField? ref' with
    | none =>
      constructor
      · exact fun hsame => ⟨rfl, fun _ => congrArg FieldName.declaringClass hsame⟩
      · rintro ⟨-, hclass⟩
        exact congrArg₂ FieldName.mk (hclass rfl) hname
    | some f' =>
      refine iff_of_false (fun hsame => apart hname.symm h' h hsame.symm) ?_
      rintro ⟨hsame, -⟩
      cases hsame
  | some f =>
    cases h' : p.declaredField? ref' with
    | none =>
      refine iff_of_false (apart hname h h') ?_
      rintro ⟨hsame, -⟩
      cases hsame
    | some f' =>
      constructor
      · intro hsame
        have hid : f.id = f'.id := hsame
        obtain ⟨-, -, c, here, hf⟩ := declared_above chains homed h
        obtain ⟨-, -, c', here', hf'⟩ := declared_above chains homed h'
        have hclass : f.declaringClass = f'.declaringClass := congrArg FieldName.declaringClass hid
        rw [hclass, here'] at here
        obtain rfl := Option.some.inj here
        rw [hname, hf'] at hf
        exact ⟨hf.symm, nofun⟩
      · rintro ⟨hsame, -⟩
        cases hsame
        rfl

/-- **A reference resolves to the nearest declaration on its superclass chain, and to a phantom field
of its own class exactly if the chain has none.** A phantom stands for a field that the program
declares exactly if the chain has none and an interface of the class has one. The static pointers of
two references to one name are equal exactly if both find the same declaration, or none from one
class; so a field of an interface, which no superclass chain passes, has another pointer through each
class that inherits it. -/
theorem resolveField_climbs (chains : p.FiniteChains) (homed : p.FieldsHomed)
    (refs : List FieldRef) (ref : FieldRef) :
    (∀ r, p.Ascends (fun c => c.fields.get? ref.name) ref.declaringClass r ↔
      p.declaredField? ref = r) ∧
    (∀ f, p.declaredField? ref = some f →
      p.resolveField (p.phantomsOf refs) ref = (f, p.phantomsOf refs)) ∧
    (p.declaredField? ref = none →
      ∃ first, (refs ++ [ref]).find? (fun x => x.target = ref.target) = some first ∧
        (p.resolveField (p.phantomsOf refs) ref).1 = first.phantom) ∧
    ((p.declaredField? ref = none ∧ ∃ n, p.Declares n ref.name ∧
        (ReflTransGen p.Above n ref.declaringClass ∨ p.Superinterface ref.declaringClass n)) ↔
      (∀ n, ReflTransGen p.Above n ref.declaringClass → ¬ p.Declares n ref.name) ∧
        ∃ i, p.Superinterface ref.declaringClass i ∧ p.Declares i ref.name) ∧
    (∀ ref', ref.name = ref'.name → ∀ s s' : State,
      Pointer.static (s.resolve p ref).1.id = .static (s'.resolve p ref').1.id ↔
        p.declaredField? ref = p.declaredField? ref' ∧
          (p.declaredField? ref = none → ref.declaringClass = ref'.declaringClass)) ∧
    ∀ i type, p.Superinterface ref.declaringClass i → p.Declares i ref.name →
      ¬ ReflTransGen p.Above i ref.declaringClass → ∀ s s' : State,
      Pointer.static (s.resolve p ref).1.id ≠ .static (s'.resolve p ⟨i, ref.name, type⟩).1.id := by
  have pointers : ∀ ref', ref.name = ref'.name → ∀ s s' : State,
      Pointer.static (s.resolve p ref).1.id = .static (s'.resolve p ref').1.id ↔
        p.declaredField? ref = p.declaredField? ref' ∧
          (p.declaredField? ref = none → ref.declaringClass = ref'.declaringClass) := by
    intro ref' hname s s'
    rw [Pointer.static.injEq, s.id_resolve, s'.id_resolve]
    exact fieldOf_eq_iff chains homed hname
  refine ⟨fun r => ascends_iff_declaredField? chains, fun f => resolveField_declared _,
    resolveField_phantomsOf refs, ?_, pointers, ?_⟩
  · rw [declaredField?_eq_none_iff chains]
    apply and_congr_right
    intro hnone
    constructor
    · rintro ⟨n, declares, hup | hsuper⟩
      · exact absurd declares (hnone n hup)
      · exact ⟨n, hsuper, declares⟩
    · rintro ⟨i, hsuper, declares⟩
      exact ⟨i, declares, .inr hsuper⟩
  · rintro i type - ⟨c, here, hsome⟩ beside s s' hsame
    obtain ⟨f, hf⟩ := Option.isSome_iff_exists.1 hsome
    have found : p.declaredField? ⟨i, ref.name, type⟩ = some f :=
      declaredField?_of_class chains here hf
    obtain ⟨hsame, -⟩ := (pointers ⟨i, ref.name, type⟩ rfl s s').1 hsame
    obtain ⟨-, hup, -⟩ := declared_above chains homed (hsame.trans found)
    have hhome : f.declaringClass = i :=
      (homed c (Roster.mem_of_get? here) f (Roster.mem_of_get? hf)).trans (Roster.key_of_get? here)
    exact beside (hhome ▸ hup)

/-- A class inherits a static field of an interface. -/
def constantText : String :=
  "interface I\n\x7b\nstatic T f;\n\x7d\nclass C implements I\n\x7b\n\x7d\n"

def constant : Program := Jimple.programOf constantText

theorem constant_has :
    (∀ c ∈ constant.classes.items, ∀ above ∈ c.superclass,
      above = objectClass ∧ c.name ≠ objectClass) ∧
    (∃ c, constant.class? "I" = some c ∧ c.fields.get? "f" = some ⟨"I", "f", "T", true⟩ ∧
      c.superclass = none) ∧
    (∃ c, constant.class? "C" = some c ∧ c.fields.get? "f" = none ∧
      c.superclass = some objectClass ∧ c.interfaces = ["I"]) ∧
    constant.class? objectClass = none := by
  decide +kernel

/-- The field is a phantom for the reference through the class, and the program declares it. -/
theorem resolveField_climbs_constant : constant.FiniteChains ∧ constant.FieldsHomed ∧
    constant.Superinterface "C" "I" ∧ constant.Declares "I" "f" ∧
    (constant.resolveField (constant.phantomsOf []) ⟨"C", "f", "T"⟩).1 = ⟨"C", "f", "T", false⟩ ∧
    ∀ s s' : State, Pointer.static (s.resolve constant ⟨"C", "f", "T"⟩).1.id ≠
      .static (s'.resolve constant ⟨"I", "f", "T"⟩).1.id := by
  obtain ⟨hflat, ⟨i, hereI, hasI, topI⟩, ⟨c, hereC, lacksC, linkC, listC⟩, absent⟩ := constant_has
  have chains := finiteChains_of_flat hflat
  have homed := fieldsHomed_of_parsed (.programOf constantText)
  obtain ⟨walk, -, phantom, -, -, apart⟩ :=
    resolveField_climbs chains homed [] ⟨"C", "f", "T"⟩
  have declares : constant.Declares "I" "f" := ⟨i, hereI, by rw [hasI]; rfl⟩
  have nameC : c.name = "C" := Roster.key_of_get? hereC
  have super : constant.Superinterface "C" "I" :=
    ⟨c, nameC ▸ hereC, nameC ▸ .refl, "I", by simp [listC], .refl⟩
  have lost := (walk none).1 (.up hereC lacksC linkC (.outside absent))
  obtain ⟨first, hfirst, hphantom⟩ := phantom lost
  obtain rfl : ⟨"C", "f", "T"⟩ = first := by simpa using hfirst
  have beside : ¬ ReflTransGen constant.Above "I" "C" := fun hup =>
    (declaredField?_eq_none_iff chains).1 lost "I" hup declares
  exact ⟨chains, homed, super, declares, hphantom, apart "I" "T" super declares beside⟩

end Program

end PointsTo
