import PointsTo.Jimple.Fault
import PointsTo.Jimple.Scan
import PointsTo.Jimple.Token

/-!
References to members: `<Class: Type method(Types)>` and `<Class: Type field>`.
-/
namespace PointsTo.Jimple

open PointsTo.Text

/-- The text without its first and its last character, trimmed. -/
def inner (s : List Char) : List Char := trim (s.drop 1).dropLast

/-- Reads the part that both kinds of reference begin with, the class up to the first colon and the
type behind it. There is a blank behind the colon and behind the type; what comes out last is the
rest behind those. -/
def readOwner? (s : List Char) : Option (List Char × List Char × List Char) :=
  let owner := s.takeWhile (· ≠ ':')
  match s.dropWhile (· ≠ ':') with
  | [] => none
  | _ :: behind =>
    let typed := behind.dropWhile isBlank
    let type := typed.takeWhile fun c => !isBlank c
    let rest := typed.dropWhile fun c => !isBlank c
    if owner.isEmpty || typed.length = behind.length || type.isEmpty || rest.isEmpty then none
    else some (owner, type, rest.dropWhile isBlank)

/-- Reads a name and a parameter list in parentheses that fill the text. -/
def readSignature? (s : List Char) : Option (List Char × List Char) :=
  let name := s.takeWhile fun c => !isBlank c && c ≠ '('
  match s.dropWhile fun c => !isBlank c && c ≠ '(' with
  | '(' :: rest =>
    let params := rest.takeWhile (· ≠ ')')
    if name.isEmpty || rest.drop params.length ≠ [')'] then none else some (name, params)
  | _ => none

def readMethodRef (s : List Char) : Except StatementFault MethodRef :=
  match readOwner? (inner s) with
  | none => .error (.badMethodRef (String.ofList s))
  | some (owner, type, rest) =>
    match readSignature? rest with
    | none => .error (.badMethodRef (String.ofList s))
    | some (name, params) =>
      .ok { declaringClass := nameOf (trim owner)
            name := nameOf name
            paramTypes := (splitTypes params).map String.ofList
            returnType := String.ofList type }

def readFieldRef (s : List Char) : Except StatementFault FieldRef :=
  match readOwner? (inner s) with
  | none => .error (.badFieldRef (String.ofList s))
  | some (owner, type, name) =>
    if name.isEmpty || name.any isBlank then .error (.badFieldRef (String.ofList s))
    else
      .ok { declaringClass := nameOf (trim owner), name := nameOf name, type := String.ofList type }

end PointsTo.Jimple
