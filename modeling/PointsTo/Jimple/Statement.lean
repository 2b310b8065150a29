import PointsTo.Jimple.Reference
import PointsTo.Text.Digit

/-!
Reading one statement of a method body. The reading of a statement depends on its text alone; what
it asks of the body, which variables it mentions and which of them it makes the receiver or a
parameter, is part of the result.
-/
namespace PointsTo.Jimple

open PointsTo.Text

/-- What an identity statement makes of its variable. -/
inductive Role where
  | receiver
  | param (index : Nat)
  /-- The exception of a handler, which is not followed. -/
  | caught
deriving DecidableEq, Repr

/-- A statement as it was read. `mentions` lists its variables in the order in which a body comes
to know them. -/
structure Reading where
  instruction : Instruction
  mentions : List Variable := []
  role : Option (Role × Variable) := none
deriving DecidableEq, Repr

def variableOf (owner : String) (s : List Char) : Variable := ⟨owner, nameOf s⟩

/-- The variable of a method that a text names, unless the text is a constant. -/
def local? (owner : String) (s : List Char) : Option Variable :=
  if isLocal s then some (variableOf owner s) else none

/-- A statement that moves no pointer, with the variables that it mentions. -/
def Reading.plain (text : List Char) (mentions : List Variable) : Reading :=
  { instruction := .other (String.ofList text), mentions }

/-! ### Identity statements -/

/-- The type that may follow the role: nothing, or a colon and a text without blanks. -/
def endsRole (s : List Char) : Bool :=
  match s with
  | [] => true
  | ':' :: rest =>
    let type := rest.dropWhile isBlank
    !type.isEmpty && !type.any isBlank
  | _ => false

/-- The role that an identity statement names behind its sign; a parameter number comes as its
digits. -/
def roleOf? (s : List Char) : Option (Role ⊕ List Char) :=
  if ((after? "@this".toList s).map endsRole).getD false then some (.inl .receiver)
  else if ((after? "@caughtexception".toList s).map endsRole).getD false then some (.inl .caught)
  else
    match after? "@parameter".toList s with
    | none => none
    | some rest =>
      let digits := rest.takeWhile isDigit
      if !digits.isEmpty && endsRole (rest.dropWhile isDigit) then some (.inr digits) else none

/-- Reads an identity statement, `name := @role` with or without a type. The name is the longest
beginning without blanks behind which the rest has this form. -/
def identity? (s : List Char) : Option (List Char × (Role ⊕ List Char)) :=
  (List.range (s.takeWhile fun c => !isBlank c).length).reverse.findSome? fun n =>
    (after? [':', '='] ((s.drop (n + 1)).dropWhile isBlank)).bind fun rest =>
      (roleOf? (rest.dropWhile isBlank)).map fun role => (s.take (n + 1), role)

def readIdentity (owner : String) (s name : List Char) :
    Role ⊕ List Char → Except StatementFault Reading
  | .inl role => .ok { Reading.plain s [variableOf owner name] with
      role := some (role, variableOf owner name) }
  | .inr digits =>
    if maxDigits < digits.length then .error (.longNumber digits.length)
    else .ok { Reading.plain s [variableOf owner name] with
      role := some (.param (decimal digits), variableOf owner name) }

/-! ### Calls -/

/-- The owner of the call sites that have none of their own. -/
def dynamicClass : String := "soot.dummy.InvokeDynamic"

/-- The signature of a dynamic call, completed by its name where it names only types. -/
def dynamicSignature (name signature : List Char) : List Char :=
  if signature.contains ':' then signature
  else
    let types := (signature.drop 1).dropLast
    let result := firstWord types
    let params := types.drop (result.length + 1)
    let name := if name.isEmpty then "invokedynamic".toList else name
    '<' :: dynamicClass.toList ++ [':', ' '] ++ result ++ [' '] ++ name ++ trim params ++ ['>']

/-- Cuts a member access at the first dot before an angle bracket; the owner may not be empty. -/
def cutAccess? (s : List Char) : Option (List Char × List Char) :=
  match cut? ['.', '<'] s with
  | some (owner, rest) => if owner.isEmpty then none else some (owner, '<' :: rest)
  | none => none

def stripDoubleQuotes (s : List Char) : List Char :=
  ((s.dropWhile (· = '\x22')).reverse.dropWhile (· = '\x22')).reverse

/-- What stands before the method reference of a call, the receiver or the name of a dynamic call,
and the text from the reference on. -/
def splitCall (kind : CallKind) (s : List Char) :
    Except StatementFault (List Char × List Char) :=
  match kind with
  | .static => .ok ([], s)
  | .dynamic =>
    match cut? ['<'] s with
    | none => .error .missingMark
    | some (name, rest) => .ok (stripDoubleQuotes (trim name), '<' :: rest)
  | _ =>
    match cut? ['.', '<'] s with
    | none => .error .missingMark
    | some (receiver, rest) => .ok (receiver, '<' :: rest)

def hasReceiver : CallKind → Bool
  | .static | .dynamic => false
  | _ => true

def readCall (owner : String) (kind : CallKind) (s : List Char) (result : Option Variable) :
    Except StatementFault Reading := do
  let (before, rest) ← splitCall kind (trim (s.drop (firstWord s).length))
  if rest.head? ≠ some '<' then throw (.missingMethodRef (String.ofList s))
  let some signatureEnd := angleEnd? rest 0 | throw (.unclosedAngle (String.ofList rest))
  let signature := rest.take signatureEnd
  let callee ← readMethodRef
    (if kind = .dynamic then dynamicSignature before signature else signature)
  let some argsEnd := parenEnd? rest signatureEnd | throw (.unclosedParen (String.ofList rest))
  let args := (splitArgs ((rest.take (argsEnd - 1)).drop (signatureEnd + 1))).map (local? owner)
  let receiver := if hasReceiver kind then some (variableOf owner before) else none
  return {
    instruction := .call { kind, callee, receiver, args, result }
    mentions := result.toList ++ receiver.toList ++ args.filterMap id }

/-! ### Assignments -/

/-- The array of an element access: a simple name and one index in brackets. -/
def arrayOf? (s : List Char) : Option (List Char) :=
  match afterName? s with
  | some ('[' :: index) =>
    if index.dropWhile (· ≠ ']') = [']'] then some (s.take (s.length - index.length - 1)) else none
  | _ => none

/-- Reads a type in parentheses; what comes out second is the trimmed rest behind it. -/
def readParenType? (s : List Char) : Option (List Char × List Char) :=
  match s with
  | '(' :: rest =>
    let type := rest.takeWhile (· ≠ ')')
    match rest.dropWhile (· ≠ ')') with
    | [] => none
    | _ :: behind => if type.isEmpty then none else some (type, trimLeft behind)
  | _ => none

def newArray? (s : List Char) : Option (List Char) :=
  match (after? "newarray".toList s).bind fun rest => readParenType? (trimLeft rest) with
  | some (type, '[' :: size) => if endsWith ']' size then some (trim type) else none
  | _ => none

/-- A text of one or more sizes in brackets. -/
def areSizes : List Char → Bool
  | '[' :: rest =>
    match _h : rest.dropWhile (· ≠ ']') with
    | [] => false
    | _ :: behind => behind.isEmpty || areSizes behind
  | _ => false
termination_by s => s.length
decreasing_by
  have := (List.dropWhile_sublist (· ≠ ']') (l := rest)).length_le
  rw [_h] at this
  simp only [List.length_cons] at this ⊢
  omega

/-- The element type of a new array of several dimensions and how many there are. -/
def newMultiArray? (s : List Char) : Option (List Char × Nat) :=
  match (after? "newmultiarray".toList s).bind fun rest => readParenType? (trimLeft rest) with
  | some (type, sizes) => if areSizes sizes then some (trim type, sizes.count '[') else none
  | none => none

def castOperand? (s : List Char) : Option (List Char) :=
  match readParenType? s with
  | some (_, operand) => if operand.isEmpty || operand.any isBlank then none else some operand
  | none => none

def allocated? (s : List Char) : Option (List Char) :=
  match after? "new ".toList s with
  | some type => some (trim type)
  | none =>
    match newArray? s with
    | some type => some (type ++ ['[', ']'])
    | none => (newMultiArray? s).map fun (type, dims) =>
        type ++ (List.replicate dims ['[', ']']).flatten

def readSource (owner : String) (target : Variable) (s text : List Char) :
    Except StatementFault Reading :=
  match allocated? s with
  | some type => .ok ⟨.allocate target (String.ofList type), [target], none⟩
  | none =>
  match callKind? s with
  | some kind => readCall owner kind s (some target)
  | none =>
  if s.head? = some '<' then do
    return ⟨.loadStatic target (← readFieldRef s), [target], none⟩
  else
  match (cutAccess? s).filter fun (base, _) => isLocal base with
  | some (base, ref) => do
    let base := variableOf owner base
    return ⟨.loadField target base (← readFieldRef ref), [target, base], none⟩
  | none =>
  match arrayOf? s with
  | some base =>
    let base := variableOf owner base
    .ok ⟨.loadElement target base, [target, base], none⟩
  | none =>
  match local? owner ((castOperand? s).getD s) with
  | some source => .ok ⟨.copy target source, [target, source], none⟩
  | none => .ok (Reading.plain text [target])

/-- Reads an assignment, of which `text` is the whole. A store of a constant moves no pointer. -/
def readAssignment (owner : String) (left right text : List Char) :
    Except StatementFault Reading :=
  let constant := Reading.plain text []
  if left.head? = some '<' then
    match local? owner right with
    | none => .ok constant
    | some source => do return ⟨.storeStatic (← readFieldRef left) source, [source], none⟩
  else
  match cutAccess? left with
  | some (base, ref) =>
    match local? owner right with
    | none => .ok constant
    | some source => do
      let base := variableOf owner base
      return ⟨.storeField base (← readFieldRef ref) source, [source, base], none⟩
  | none =>
  match arrayOf? left with
  | some base =>
    match local? owner right with
    | none => .ok constant
    | some source =>
      let base := variableOf owner base
      .ok ⟨.storeElement base source, [source, base], none⟩
  | none =>
  if isLocal left then readSource owner (variableOf owner left) right text
  else .error (.badTarget (String.ofList left))

/-! ### Statements -/

/-- The beginnings of statements that only steer the control flow. -/
def controlBeginnings : List (List Char) :=
  ["if ".toList, "goto ".toList, "throw ".toList, "entermonitor ".toList, "exitmonitor ".toList]

/-- Reads a statement without its semicolon. `owner` is the signature of the method it is in. -/
def readStatement (owner : String) (s : List Char) : Except StatementFault Reading :=
  if s = "return".toList || startsWith "return ".toList s then
    let value := local? owner (trim (s.drop "return".toList.length))
    .ok ⟨.ret value, value.toList, none⟩
  else if s = "nop".toList || s = "breakpoint".toList ||
      controlBeginnings.any (startsWith · s) then
    .ok (Reading.plain s [])
  else
  match callKind? s with
  | some kind => readCall owner kind s none
  | none =>
  match identity? s with
  | some (name, role) => readIdentity owner s name role
  | none =>
  match cut? " = ".toList s with
  | some (left, right) => readAssignment owner (trim left) (trim right) s
  | none => .ok (Reading.plain s [])

end PointsTo.Jimple
