/-!
Names: what identifies a variable, a method and a field, and the references by which statements
speak of members before they are resolved. Each name has one written form.
-/
namespace PointsTo

def objectClass : String := "java.lang.Object"

/-- A local variable: the signature of its method and its name there. -/
structure Variable where
  method : String
  name : String
deriving DecidableEq, Repr, Inhabited

def Variable.text (v : Variable) : String := v.method ++ "/" ++ v.name

/-- What a method is called inside its class: return type, name and parameter types. -/
def subsignature (returnType name : String) (paramTypes : List String) : String :=
  returnType ++ " " ++ name ++ "(" ++ ",".intercalate paramTypes ++ ")"

/-- A method of a program: its class and its subsignature. -/
structure MethodName where
  declaringClass : String
  subsignature : String
deriving DecidableEq, Repr, Inhabited

def MethodName.signature (m : MethodName) : String :=
  "<" ++ m.declaringClass ++ ": " ++ m.subsignature ++ ">"

/-- A method as a call names it, before it is resolved. -/
structure MethodRef where
  declaringClass : String
  name : String
  paramTypes : List String
  returnType : String
deriving DecidableEq, Repr, Inhabited

namespace MethodRef

def subsignature (r : MethodRef) : String := PointsTo.subsignature r.returnType r.name r.paramTypes

/-- The method that the reference names literally. -/
def target (r : MethodRef) : MethodName := ⟨r.declaringClass, r.subsignature⟩

def signature (r : MethodRef) : String := r.target.signature

end MethodRef

/-- A field of a program: its class and its name. The type is no part of its identity. -/
structure FieldName where
  declaringClass : String
  name : String
deriving DecidableEq, Repr, Inhabited

def FieldName.text (f : FieldName) (type : String) : String :=
  "<" ++ f.declaringClass ++ ": " ++ type ++ " " ++ f.name ++ ">"

/-- A field as a statement names it, before it is resolved. -/
structure FieldRef where
  declaringClass : String
  name : String
  type : String
deriving DecidableEq, Repr, Inhabited

namespace FieldRef

/-- The field that the reference names literally. -/
def target (r : FieldRef) : FieldName := ⟨r.declaringClass, r.name⟩

def text (r : FieldRef) : String := r.target.text r.type

end FieldRef

end PointsTo
