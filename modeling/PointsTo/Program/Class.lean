import PointsTo.Roster
import PointsTo.Program.Instruction

/-!
Classes, their members, and programs. Classes and members keep the order of first declaration; a
later declaration of the same name takes the place of the earlier one.
-/
namespace PointsTo

structure Field where
  declaringClass : String
  name : String
  type : String
  isStatic : Bool
deriving DecidableEq, Repr, Inhabited

namespace Field

def id (f : Field) : FieldName := ⟨f.declaringClass, f.name⟩

def text (f : Field) : String := f.id.text f.type

end Field

/-- A variable with the type it was declared with. -/
structure Local where
  var : Variable
  type : String
deriving DecidableEq, Repr, Inhabited

def Local.name (l : Local) : String := l.var.name

/-- The body of a method: one variable for each parameter, the receiver, the variable that stands
for the returned value, the statements, and all variables by name. -/
structure Body where
  params : List Local
  receiver : Option Local
  returned : Option Local
  statements : List Statement
  locals : Roster Local.name
deriving DecidableEq

/-- A method of a class; abstract and native methods have no body. -/
structure Method where
  declaringClass : String
  name : String
  paramTypes : List String
  returnType : String
  modifiers : OrderedSet String
  body : Option Body
deriving DecidableEq

namespace Method

def subsignature (m : Method) : String := PointsTo.subsignature m.returnType m.name m.paramTypes

/-- What identifies the method. -/
def id (m : Method) : MethodName := ⟨m.declaringClass, m.subsignature⟩

def signature (m : Method) : String := m.id.signature

def isStatic (m : Method) : Bool := m.modifiers.contains "static"

def isAbstract (m : Method) : Bool := m.modifiers.contains "abstract"

def statements (m : Method) : List Statement := (m.body.map Body.statements).getD []

/-- The statements of the body with their places. -/
def placed (m : Method) : List (Place × Instruction) :=
  m.statements.zipIdx.map fun (s, index) => (.within m.id index s.line, s.instruction)

def callSites (m : Method) : List CallSite :=
  m.placed.filterMap fun
    | (place, .call call) => some ⟨place, call⟩
    | _ => none

end Method

structure Class where
  name : String
  superclass : Option String
  interfaces : List String
  modifiers : OrderedSet String
  fields : Roster Field.name
  methods : Roster Method.subsignature
deriving DecidableEq

namespace Class

def isInterface (c : Class) : Bool := c.modifiers.contains "interface"

/-- No object has exactly this class. -/
def isAbstract (c : Class) : Bool := c.modifiers.contains "abstract" || c.isInterface

/-- The direct supertypes, the superclass first. -/
def supertypes (c : Class) : List String := c.superclass.toList ++ c.interfaces

end Class

/-- All classes that were read. -/
structure Program where
  classes : Roster Class.name
deriving DecidableEq

instance : EmptyCollection Program := ⟨⟨∅⟩⟩

instance : Inhabited Program := ⟨∅⟩

/-- A short method name that fits several methods. -/
structure Ambiguity where
  text : String
  candidates : List MethodName
deriving DecidableEq, Repr

def Ambiguity.message (a : Ambiguity) : String :=
  a.text ++ " is ambiguous: " ++ ", ".intercalate (a.candidates.map MethodName.signature)

namespace Program

def class? (p : Program) (name : String) : Option Class := p.classes.get? name

/-- Adds a class, in place of an earlier one of its name. -/
def declare (p : Program) (c : Class) : Program := ⟨p.classes.put c⟩

def methods (p : Program) : List Method := p.classes.items.flatMap fun c => c.methods.items

def method? (p : Program) (m : MethodName) : Option Method :=
  (p.class? m.declaringClass).bind fun c => c.methods.get? m.subsignature

def mainSubsignature : String := "void main(java.lang.String[])"

/-- The first static main method. -/
def main? (p : Program) : Option Method :=
  p.methods.find? fun m => m.isStatic && m.subsignature = mainSubsignature

def cutAtLastDot? (s : List Char) : Option (List Char × List Char) :=
  let behind := (s.reverse.takeWhile (· ≠ '.')).reverse
  if behind.length < s.length then some (s.take (s.length - behind.length - 1), behind) else none

/-- Finds a method by its signature, or by the short form `Class.method` if that fits one method. -/
def findMethod (p : Program) (text : String) : Except Ambiguity (Option Method) :=
  match p.methods.find? fun m => m.signature = text with
  | some m => .ok (some m)
  | none =>
    if text.toList.head? = some '<' then .ok none
    else
      match cutAtLastDot? text.toList with
      | none => .ok none
      | some (owner, name) =>
        match p.class? (String.ofList owner) with
        | none => .ok none
        | some c =>
          match c.methods.items.filter fun m => m.name = String.ofList name with
          | [] => .ok none
          | [m] => .ok (some m)
          | several => .error ⟨text, several.map Method.id⟩

def subclasses (p : Program) (name : String) : List Class :=
  p.classes.items.filter fun c => c.superclass = some name

/-- The classes or interfaces that list an interface, once for each time they do. -/
def listing (p : Program) (name : String) (interfaces : Bool) : List Class :=
  p.classes.items.flatMap fun c =>
    if c.isInterface = interfaces then (c.interfaces.filter (· = name)).map fun _ => c else []

def subinterfaces (p : Program) (name : String) : List Class := p.listing name true

def implementors (p : Program) (name : String) : List Class := p.listing name false

/-- The class that a class extends, if both are in the program. -/
def superclass? (p : Program) (name : String) : Option Class :=
  ((p.class? name).bind Class.superclass).bind p.class?

/-- The program has no class of the name. -/
def isPhantom (p : Program) (name : String) : Bool := (p.class? name).isNone

end Program

end PointsTo
