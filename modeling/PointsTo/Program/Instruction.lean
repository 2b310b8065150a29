import PointsTo.Program.Name

/-!
Instructions: what a statement of a method body means for pointers, and the places where statements
stand.
-/
namespace PointsTo

/-- How a call finds its method. -/
inductive CallKind where
  | static
  | special
  | virtual
  | interface
  | dynamic
deriving DecidableEq, Repr, Inhabited

namespace CallKind

def all : List CallKind := [static, special, virtual, interface, dynamic]

def keyword : CallKind → String
  | static => "staticinvoke"
  | special => "specialinvoke"
  | virtual => "virtualinvoke"
  | interface => "interfaceinvoke"
  | dynamic => "dynamicinvoke"

def label : CallKind → String
  | static => "STATIC"
  | special => "SPECIAL"
  | virtual => "VIRTUAL"
  | interface => "INTERFACE"
  | dynamic => "DYNAMIC"

def ofKeyword? (word : String) : Option CallKind := all.find? fun kind => kind.keyword = word

theorem ofKeyword?_keyword (kind : CallKind) : ofKeyword? kind.keyword = some kind := by
  cases kind <;> decide

/-- The method is found from the reference alone, whatever the receiver points to. -/
def isLinked : CallKind → Bool
  | static | special => true
  | _ => false

end CallKind

/-- A call. There is one argument for each actual argument; a constant is `none`, so that
positions agree with the parameters. -/
structure Call where
  kind : CallKind
  callee : MethodRef
  receiver : Option Variable
  args : List (Option Variable)
  result : Option Variable
deriving DecidableEq, Repr, Inhabited

def Call.text (c : Call) : String :=
  let args := ", ".intercalate (c.args.map fun arg => (arg.map Variable.name).getD "_")
  let owner := (c.receiver.map fun v => v.name ++ ".").getD ""
  let call := c.kind.keyword ++ " " ++ owner ++ c.callee.signature ++ "(" ++ args ++ ")"
  (c.result.map fun v => v.name ++ " = " ++ call).getD call

/-- What a statement does to pointers. -/
inductive Instruction where
  /-- `target = new type`, for arrays as well. -/
  | allocate (target : Variable) (type : String)
  /-- `target = source`, also through a cast. -/
  | copy (target source : Variable)
  /-- `target = Class.field`. -/
  | loadStatic (target : Variable) (field : FieldRef)
  /-- `target = base.field`. -/
  | loadField (target base : Variable) (field : FieldRef)
  /-- `Class.field = source`. -/
  | storeStatic (field : FieldRef) (source : Variable)
  /-- `base.field = source`. -/
  | storeField (base : Variable) (field : FieldRef) (source : Variable)
  /-- `target = base[i]`; the index does not count. -/
  | loadElement (target base : Variable)
  /-- `base[i] = source`; the index does not count. -/
  | storeElement (base source : Variable)
  /-- A call, with or without a result. -/
  | call (call : Call)
  /-- `return`, with or without a variable. -/
  | ret (value : Option Variable)
  /-- Anything that moves no pointer, as it was written. -/
  | other (text : String)
deriving DecidableEq, Repr, Inhabited

def Instruction.text : Instruction → String
  | allocate target type => target.name ++ " = new " ++ type
  | copy target source => target.name ++ " = " ++ source.name
  | loadStatic target field => target.name ++ " = " ++ field.declaringClass ++ "." ++ field.name
  | loadField target base field => target.name ++ " = " ++ base.name ++ "." ++ field.name
  | storeStatic field source => field.declaringClass ++ "." ++ field.name ++ " = " ++ source.name
  | storeField base field source => base.name ++ "." ++ field.name ++ " = " ++ source.name
  | loadElement target base => target.name ++ " = " ++ base.name ++ "[*]"
  | storeElement base source => base.name ++ "[*] = " ++ source.name
  | call c => c.text
  | ret none => "return"
  | ret (some value) => "return " ++ value.name
  | other text => if text.isEmpty then "nop" else text

structure Statement where
  instruction : Instruction
  line : Nat
deriving DecidableEq, Repr, Inhabited

/-- Where a statement stands. Two statements of equal text at different places are different
allocation sites or call sites. -/
inductive Place where
  /-- In no method; the number keeps such statements apart. -/
  | detached (serial : Nat)
  /-- In the body of a method, counted from zero, on a line. -/
  | within (method : MethodName) (index line : Nat)
deriving DecidableEq, Repr, Inhabited

namespace Place

def method? : Place → Option MethodName
  | detached _ => none
  | within method _ _ => some method

def text : Place → String
  | detached _ => "?[-1@L-1]"
  | within method index line =>
    method.signature ++ "[" ++ toString index ++ "@L" ++ toString line ++ "]"

/-- The index of the statement in its body as reports show it. -/
def indexText : Place → String
  | detached _ => "-1"
  | within _ index _ => toString index

end Place

/-- A call at its place. -/
structure CallSite where
  place : Place
  call : Call
deriving DecidableEq, Repr, Inhabited

/-- An allocation at its place, with the type of the object. -/
structure Allocation where
  place : Place
  type : String
deriving DecidableEq, Repr, Inhabited

/-- Arrays are the objects whose type ends in a pair of brackets. -/
def isArrayType (type : String) : Bool := ['[', ']'].isSuffixOf type.toList

namespace Allocation

def text (a : Allocation) : String := "NewObj\x7b" ++ a.place.text ++ " new " ++ a.type ++ "\x7d"

def isArray (a : Allocation) : Bool := isArrayType a.type

end Allocation

end PointsTo
