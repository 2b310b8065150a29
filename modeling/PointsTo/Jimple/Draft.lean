import PointsTo.Jimple.Statement
import PointsTo.Program.Class

/-!
Method bodies while they are read: local declarations and statements come in one by one, and
`Draft.finish` adds the variables that the text leaves out.
-/
namespace PointsTo.Jimple

open PointsTo.Text

structure Declared where
  name : String
  type : String
deriving DecidableEq, Repr

/-- A parameter of the method that an identity statement named. -/
structure NamedParam where
  index : Nat
  param : Local
deriving DecidableEq, Repr

/-- The body of a method as far as it was read. -/
structure Draft where
  method : Method
  declared : Roster Declared.name := ∅
  locals : Roster Local.name := ∅
  params : Roster NamedParam.index := ∅
  receiver : Option Local := none
  statements : List Statement := []

namespace Draft

/-- The variable under its name, with the type it was declared with when it first appeared. -/
def localOf (d : Draft) (v : Variable) : Local :=
  (d.locals.get? v.name).getD ⟨v, ((d.declared.get? v.name).map Declared.type).getD objectClass⟩

def mention (d : Draft) (v : Variable) : Draft := { d with locals := d.locals.add (d.localOf v) }

def assign (d : Draft) : Role × Variable → Draft
  | (.receiver, v) => { d with receiver := some (d.localOf v) }
  | (.param index, v) => { d with params := d.params.put ⟨index, d.localOf v⟩ }
  | (.caught, _) => d

/-- Records the type of a declared name. -/
def declare (d : Draft) (type name : String) : Draft :=
  { d with declared := d.declared.put ⟨name, type⟩ }

def add (d : Draft) (instruction : Instruction) (line : Nat) : Draft :=
  { d with statements := d.statements ++ [⟨instruction, line⟩] }

def record (d : Draft) (r : Reading) (line : Nat) : Draft :=
  let known := r.mentions.foldl mention d
  (r.role.elim known known.assign).add r.instruction line

/-- The variables that are returned, each once, in the order of the statements. -/
def returned (d : Draft) : List Variable :=
  (OrderedSet.ofList (d.statements.filterMap fun s =>
    match s.instruction with
    | .ret value => value
    | _ => none)).items

/-- Adds a variable that the text does not name. -/
def synthesize (d : Draft) (name type : String) : Draft × Local :=
  let l : Local := ⟨⟨d.method.signature, name⟩, type⟩
  ({ d with locals := d.locals.put l }, l)

/-- The parameters from an index on, one for each type. -/
def completeParams (d : Draft) (index : Nat) : List String → Draft × List Local
  | [] => (d, [])
  | type :: types =>
    let (d, param) :=
      match d.params.get? index with
      | some named => (d, named.param)
      | none => d.synthesize ("@parameter" ++ toString index) type
    let (d, params) := d.completeParams (index + 1) types
    (d, param :: params)

/-- The receiver; a method that is not static always has one. -/
def completeReceiver (d : Draft) : Draft × Option Local :=
  match d.receiver with
  | some receiver => (d, some receiver)
  | none =>
    if d.method.isStatic then (d, none)
    else
      let (d, receiver) := d.synthesize "@this" d.method.declaringClass
      (d, some receiver)

/-- The variable that stands for the returned value: the only one that is returned, or a new one
where several are. -/
def completeReturned (d : Draft) : Draft × Option Local :=
  if d.method.returnType = "void" then (d, none)
  else
    match d.returned with
    | [] => (d, none)
    | [v] => (d, some (d.localOf v))
    | _ =>
      let (d, returned) := d.synthesize "@return" d.method.returnType
      (d, some returned)

def finish (d : Draft) : Body :=
  let (d, params) := d.completeParams 0 d.method.paramTypes
  let (d, receiver) := d.completeReceiver
  let (d, returned) := d.completeReturned
  { params, receiver, returned, statements := d.statements, locals := d.locals }

end Draft

end PointsTo.Jimple
