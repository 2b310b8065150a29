import PointsTo.Hierarchy.Walk

/-!
Subtypes, and the members that references and receivers resolve to. A look-up that walks out of the
program gives up there instead of failing.
-/
namespace PointsTo

namespace Program

/-- Every type is a subtype of itself, of `java.lang.Object`, and of what its supertypes are
subtypes of. -/
def isSubtype (p : Program) (sub sup : String) : Bool :=
  p.comesTo Class.supertypes sup [sub] [] || sup = objectClass

/-- The interfaces of a class: those of its superclass chain from below, and their
superinterfaces, breadth first. -/
def interfacesOf (p : Program) (name : String) : List Class :=
  p.reachClasses Class.interfaces ((p.ancestry name).classes.flatMap Class.interfaces)

/-- The first method of a subsignature that passes a test: on the superclass chain, and then in the
interfaces. -/
def lookup (p : Program) (name subsignature : String) (test : Method → Bool) : Option Method :=
  ((p.ancestry name).classes ++ p.interfacesOf name).findSome? fun c =>
    (c.methods.get? subsignature).filter test

/-- The method that a reference is linked to, abstract or not. -/
def resolveMethod (p : Program) (ref : MethodRef) : Option Method :=
  p.lookup ref.declaringClass ref.subsignature fun _ => true

/-- The method that a receiver of a class runs, never an abstract one. -/
def dispatch (p : Program) (name subsignature : String) : Option Method :=
  p.lookup name subsignature fun m => !m.isAbstract

/-- The superclass chain of a class leaves the program. -/
def leavesProgram (p : Program) (name : String) : Bool := (p.ancestry name).beyond.isSome

def declaredField? (p : Program) (ref : FieldRef) : Option Field :=
  (p.ancestry ref.declaringClass).classes.findSome? fun c => c.fields.get? ref.name

/-- The class in which a receiver type looks for methods: an array has those of
`java.lang.Object`. -/
def receiverClass (type : String) : String := if isArrayType type then objectClass else type

/-- What becomes of a call for a receiver type. -/
inductive Resolution where
  | found (callee : Method)
  /-- There is nothing to run, and nothing is wrong. -/
  | nothing
  /-- There is no method, but the class chain leaves the program, where it may be. -/
  | outside (receiverClass subsignature : String)
  /-- There is no method although the whole class chain is known. -/
  | missing (receiverClass subsignature : String)

/-- Resolves a call for a receiver type. Static and special calls are linked by their reference
alone; the others are dispatched on the receiver type. -/
def resolveCall (p : Program) (receiverType : Option String) (call : Call) : Resolution :=
  if call.kind.isLinked then
    match p.resolveMethod call.callee with
    | some m => .found m
    | none => .nothing
  else
    match receiverType with
    | none => .nothing
    | some type =>
      let name := receiverClass type
      match p.dispatch name call.callee.subsignature with
      | some m => .found m
      | none =>
        if p.leavesProgram name then .outside name call.callee.subsignature
        else .missing name call.callee.subsignature

/-- The direct subtypes of a class: for an interface the interfaces that extend it and then the
classes that implement it. -/
def subtypes (p : Program) (c : Class) : List String :=
  if c.isInterface then (p.subinterfaces c.name ++ p.implementors c.name).map Class.name
  else (p.subclasses c.name).map Class.name

/-- The methods that a call may run by the class hierarchy alone: what the classes below the class
of the reference dispatch to. -/
def hierarchyTargets (p : Program) (call : Call) : List Method :=
  if call.kind.isLinked then (p.resolveMethod call.callee).toList
  else
    let receivers := (p.reachClasses p.subtypes [call.callee.declaringClass]).filter
      fun c => !c.isAbstract
    let targets := receivers.filterMap fun c => p.dispatch c.name call.callee.subsignature
    (Roster.addAll (∅ : Roster Method.id) targets).items

end Program

/-- The fields that were referred to without being declared on the class chain of the reference,
each with the type that the first reference gave it. -/
abbrev PhantomFields := Roster Field.id

/-- The field that a reference resolves to. A reference that finds none stands for a field of its
own class, which is remembered. -/
def Program.resolveField (p : Program) (phantoms : PhantomFields) (ref : FieldRef) :
    Field × PhantomFields :=
  match p.declaredField? ref with
  | some f => (f, phantoms)
  | none =>
    match phantoms.get? ref.target with
    | some f => (f, phantoms)
    | none =>
      let f : Field := ⟨ref.declaringClass, ref.name, ref.type, false⟩
      (f, phantoms.add f)

end PointsTo
