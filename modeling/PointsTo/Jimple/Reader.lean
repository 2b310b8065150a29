import PointsTo.Jimple.Draft

/-!
Reading Jimple text line by line into a program. The reader is a fold over the lines of code: what
it has read is the program so far, the phase it is in, and how many lines have gone by. A fault
ends the reading and leaves the program as it was before the line at fault.
-/
namespace PointsTo.Jimple

open PointsTo.Text

/-- The part of the text that the reader is in. -/
inductive Phase where
  | outside
  | beforeClass (c : Class)
  | inClass (c : Class)
  | beforeBody (c : Class) (draft : Draft)
  | inBody (c : Class) (draft : Draft)
  /-- In a switch, whose first line is kept, in the body of a method. -/
  | inSwitch (c : Class) (draft : Draft) (opening : String)

/-- What has been read. `line` is the line that a fault would be reported at, which stays at its
opening inside a switch. -/
structure Reader where
  program : Program
  phase : Phase := .outside
  seen : Nat := 0
  line : Nat := 0

/-! ### Class headers -/

inductive Clause where
  | extends
  | implements
deriving DecidableEq, Repr

def classWords : List String := ["class", "interface", "enum"]

/-- The supertypes of a header, as far as it was read. -/
structure Supertypes where
  clause : Option Clause := none
  superclass : Option String := none
  interfaces : List String := []

/-- Reads one word behind the name of a class. Behind `extends` a class has its superclass and an
interface its superinterfaces. -/
def Supertypes.word (s : Supertypes) (isInterface : Bool) (word : List Char) :
    Except LineFault Supertypes :=
  if word = "extends".toList then .ok { s with clause := some .extends }
  else if word = "implements".toList then .ok { s with clause := some .implements }
  else if word = [','] then .ok s
  else
    match s.clause with
    | none => .error (.strayName (String.ofList word))
    | some clause =>
      if clause = .extends ∧ !isInterface then .ok { s with superclass := some (nameOf word) }
      else .ok { s with interfaces := s.interfaces ++ [nameOf word] }

/-- The words of a class header, a comma being a word. -/
def headerWords (s : List Char) : List (List Char) :=
  words (s.flatMap fun c => if c = ',' then [' ', ',', ' '] else [c])

def readClassHeader (s : List Char) : Except LineFault Class :=
  let isKind := fun word => classWords.contains (String.ofList word)
  let all := headerWords s
  let modifiers := (all.takeWhile fun word => !isKind word).map String.ofList
  match all.dropWhile fun word => !isKind word with
  | kind :: name :: rest => do
    let kind := String.ofList kind
    let isInterface := kind = "interface"
    let supertypes ← rest.foldlM (fun s word => s.word isInterface word) ({} : Supertypes)
    let superclass :=
      if supertypes.superclass.isNone && !isInterface && nameOf name ≠ objectClass then
        some objectClass
      else supertypes.superclass
    return {
      name := nameOf name
      superclass
      interfaces := supertypes.interfaces
      modifiers := OrderedSet.ofList (modifiers ++ if kind = "class" then [] else [kind])
      fields := ∅
      methods := ∅ }
  | _ => .error (.badClassHeader (String.ofList s))

/-! ### Members -/

/-- The modifiers and the last two words of a declaration, its type and its name. -/
def cutDeclaration? (s : List Char) : Option (List String × String × String) :=
  match (words s).reverse with
  | name :: type :: modifiers =>
    some ((modifiers.reverse.map String.ofList), String.ofList type, nameOf name)
  | _ => none

def readField (owner : String) (s : List Char) : Except LineFault Field :=
  if !endsWith ';' s then .error (.badMember (String.ofList s))
  else
    match cutDeclaration? s.dropLast with
    | none => .error (.badField (String.ofList s))
    | some (modifiers, type, name) =>
      .ok ⟨owner, name, type, modifiers.contains "static"⟩

/-- The header of a method without its last character, if that is the brace of a body or the
semicolon of a method without one. -/
def headerText (s : List Char) : List Char :=
  if endsWith ';' s || endsWith '\x7b' s then trim s.dropLast else s

/-- Reads the header of a method of a class, a line with an opening parenthesis. It answers `none`
if no parenthesis closes the parameters. -/
def readMethodHeader (owner : String) (line : List Char) : Option (Except LineFault Method) :=
  let s := headerText line
  let head := s.takeWhile (· ≠ '(')
  let rest := s.drop (head.length + 1)
  if !rest.contains ')' then none
  else
    match cutDeclaration? head with
    | none => some (.error (.badMethodHeader (String.ofList s)))
    | some (modifiers, returnType, name) =>
      some (.ok {
        declaringClass := owner
        name
        paramTypes := (splitTypes (rest.takeWhile (· ≠ ')'))).map String.ofList
        returnType
        modifiers := OrderedSet.ofList modifiers
        body := none })

/-! ### Lines of a body -/

def isTypeChar (c : Char) : Bool :=
  isWord c || ['.', '$', '[', ']', '\x27'].contains c

/-- Reads the declaration of local names: a type that is no keyword, and the names behind it. -/
def localDeclaration? (s : List Char) : Option (String × List String) :=
  let type := s.takeWhile isTypeChar
  let rest := s.dropWhile isTypeChar
  let names := (splitWhere (· = ',') (trimLeft rest)).map trim
  if type.isEmpty || (rest.head?.map isBlank) ≠ some true then none
  else if !names.all isSimpleName || keywords.contains (String.ofList type) then none
  else some (String.ofList type, names.map nameOf)

def isLabel (s : List Char) : Bool := endsWith ':' s && !s.contains ' '

def opensSwitch (s : List Char) : Bool :=
  startsWith "lookupswitch".toList s || startsWith "tableswitch".toList s

def closesSwitch (s : List Char) : Bool := s = ['\x7d', ';'] || s = ['\x7d']

def Draft.readLine (d : Draft) (s : List Char) (line : Nat) : Except LineFault Draft :=
  if isLabel s then .ok d
  else if !endsWith ';' s then .error (.missingSemicolon (String.ofList s))
  else
    let text := trim s.dropLast
    if startsWith "catch ".toList text then .ok d
    else
      match localDeclaration? text with
      | some (type, names) => .ok (names.foldl (fun d name => d.declare type name) d)
      | none =>
        match readStatement d.method.signature text with
        | .ok reading => .ok (d.record reading line)
        | .error fault => .error (.badStatement fault)

/-! ### The reader -/

namespace Reader

/-- A class of which a line has been read, with the phase behind that line. -/
def keep (r : Reader) (c : Class) (phase : Class → Phase) : Reader :=
  { r with program := r.program.declare c, phase := phase c }

def classHeader (r : Reader) (s : List Char) : Except LineFault Reader := do
  let opens := endsWith '\x7b' s
  let c ← readClassHeader (if opens then trim s.dropLast else s)
  return r.keep c (if opens then .inClass else .beforeClass)

def methodHeader (r : Reader) (c : Class) (s : List Char) : Except Fault Reader :=
  match readMethodHeader c.name s with
  | none => .error .unclosedHeader
  | some (.error fault) => .error (.atLine r.line fault)
  | some (.ok m) =>
    .ok (r.keep { c with methods := c.methods.put m } fun c =>
      if endsWith ';' s then .inClass c
      else if endsWith '\x7b' s then .inBody c { method := m }
      else .beforeBody c { method := m })

def member (r : Reader) (c : Class) (s : List Char) : Except Fault Reader :=
  if s = ['\x7d'] then .ok { r with phase := .outside }
  else if s.contains '(' then r.methodHeader c s
  else
    match readField c.name s with
    | .error fault => .error (.atLine r.line fault)
    | .ok f => .ok (r.keep { c with fields := c.fields.put f } .inClass)

def bodyLine (r : Reader) (c : Class) (d : Draft) (s : List Char) : Except LineFault Reader :=
  if opensSwitch s then .ok { r with phase := .inSwitch c d (String.ofList s) }
  else if s = ['\x7d'] then
    .ok (r.keep { c with methods := c.methods.put { d.method with body := some d.finish } }
      .inClass)
  else do
    let d ← d.readLine s r.line
    return { r with phase := .inBody c d }

def brace (r : Reader) (opening : String) (s : List Char) (phase : Phase) :
    Except LineFault Reader :=
  if s = ['\x7b'] then .ok { r with phase } else .error (.missingBrace opening)

def line? (r : Reader) (s : List Char) : Except Fault Reader :=
  let here := Except.mapError (Fault.atLine r.line)
  match r.phase with
  | .outside => here (r.classHeader s)
  | .beforeClass c => here (r.brace ("class " ++ c.name) s (.inClass c))
  | .inClass c => r.member c s
  | .beforeBody c d => here (r.brace ("method " ++ d.method.signature) s (.inBody c d))
  | .inBody c d => here (r.bodyLine c d s)
  | .inSwitch .. => .ok r

def step (r : Reader) (s : List Char) : Except Fault Reader :=
  let r := { r with seen := r.seen + 1 }
  match r.phase with
  | .inSwitch c d opening =>
    if closesSwitch s then .ok { r with phase := .inBody c (d.add (.other opening) r.line) }
    else .ok r
  | _ =>
    let r := { r with line := r.seen }
    if s.isEmpty then .ok r else r.line? s

/-- The fault of a text that ends here. -/
def endFault? (r : Reader) : Option Fault :=
  match r.phase with
  | .outside => none
  | .inSwitch .. => some (.atLine r.line .unclosedSwitch)
  | .beforeClass _ | .inClass _ | .beforeBody .. | .inBody .. =>
    some (.atLine r.line .unexpectedEnd)

/-- Reads the lines of a text to its end or to the first fault. -/
def run (r : Reader) : List (List Char) → Program × Option Fault
  | [] => (r.program, r.endFault?)
  | s :: rest =>
    match r.step s with
    | .ok r => r.run rest
    | .error fault => (r.program, some fault)

end Reader

/-- Reads a text into a program. The program comes out also where the text has a fault, with all
that was read before. -/
def read (program : Program) (text : String) : Program × Option Fault :=
  ({ program } : Reader).run (codeLines text.toList)

/-- Reads the texts of a program one after the other, up to the first fault. -/
def readAll (program : Program) : List String → Except Fault Program
  | [] => .ok program
  | text :: texts =>
    match read program text with
    | (program, none) => readAll program texts
    | (_, some fault) => .error fault

end PointsTo.Jimple
