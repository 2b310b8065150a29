import Mathlib.Data.List.Nodup
import PointsTo.Jimple.Reader
import PointsTo.Proofs.WordLists

/-!
Programs as they are listed. A listed class has all that its text shows: its header with the brace
behind or below it, its members in order, and the lines of their bodies, each with its number.
`ClassText.lines` is what is written and `ClassText.toClass` what it says.
-/
namespace PointsTo.Jimple

open PointsTo.Text

/-! ### Lines -/

/-- A line of a text without the blanks around it. -/
structure Line where
  number : Nat
  chars : List Char
deriving DecidableEq

/-- The lines that are not blank, with their numbers behind the lines that have gone by. -/
def numberLines (seen : Nat) : List (List Char) → List Line
  | [] => []
  | s :: rest =>
    if s.isEmpty then numberLines (seen + 1) rest
    else ⟨seen + 1, s⟩ :: numberLines (seen + 1) rest

def linesOf (text : String) : List Line := numberLines 0 ((splitLines text.toList).map trim)

/-- Nothing in the text begins a comment. -/
def isUncommented (text : List Char) : Bool :=
  (cut? ['/', '/'] text).isNone && (cut? ['/', '*'] text).isNone

/-! ### Words -/

def isPlainChar (c : Char) : Bool := isWord c || ['.', '$', '[', ']'].contains c

/-- A plain word, as an identifier, a qualified name or a type. -/
structure Word where
  chars : List Char
  plain : (!chars.isEmpty && chars.all isPlainChar) = true

def Word.text (w : Word) : String := String.ofList w.chars

/-- The word is a keyword to the reader. -/
def Word.isReserved (w : Word) : Bool :=
  (keywords ++ classWords ++ ["extends", "implements"]).contains w.text

/-- A keyword and the names behind it, unless there are none. -/
def clause (keyword : String) (gap : Gap) (names : List Word) : List Char :=
  if names.isEmpty then []
  else ' ' :: keyword.toList ++ ' ' :: commaList gap (names.map Word.chars)

/-- Where the brace stands that opens a class or a body. -/
inductive Brace where
  | behind (gap : Gap)
  | below (number : Nat)

/-- A header with the brace that opens what is behind it. -/
def Brace.lines (number : Nat) (header : List Char) : Brace → List Line
  | behind gap => [⟨number, header ++ gap.chars ++ ['\x7b']⟩]
  | below n => [⟨number, header⟩, ⟨n, ['\x7b']⟩]

/-! ### Bodies -/

/-- A part of the body of a method: the declaration of some locals, a label, the range of a handler,
a statement, or a switch, of whose lines only the first is kept. -/
inductive BodyPart where
  | declaration (number : Nat) (type : Word) (gap : Gap) (name : LocalName)
      (names : List LocalName)
  | label (number : Nat) (name : PlainName)
  | handler (number : Nat) (type first last target : PlainName)
  | statement (number : Nat) (text : List Char)
  | switch (number : Nat) (opening : List Char) (inside : List Line) (closing : Nat)

namespace BodyPart

def lines : BodyPart → List Line
  | declaration number type gap name names =>
    [⟨number, type.chars ++ ' ' :: commaList gap ((name :: names).map LocalName.chars) ++ [';']⟩]
  | label number name => [⟨number, name.chars ++ [':']⟩]
  | handler number type first last target =>
    [⟨number, "catch ".toList ++ spaced [type.chars, "from".toList, first.chars, "to".toList,
      last.chars, "with".toList, target.chars] ++ [';']⟩]
  | statement number text => [⟨number, text ++ [';']⟩]
  | switch number opening inside closing =>
    ⟨number, opening⟩ :: inside ++ [⟨closing, ['\x7d', ';']⟩]

/-- The part is what it says: a declared type is no keyword, a statement is accepted in the method
and looks like no other part, and a switch opens with its keyword and closes with its last line. -/
def isValid (owner : String) : BodyPart → Bool
  | declaration _ type _ _ _ => !type.isReserved
  | label .. => true
  | handler .. => true
  | statement _ text =>
    text = trim text && (readStatement owner text).isOk && !opensSwitch text &&
      !startsWith "catch ".toList text && (localDeclaration? text).isNone
  | switch _ opening inside _ => opensSwitch opening && inside.all fun l => !closesSwitch l.chars

/-- No declared type and no label begins like a switch. -/
def avoidsSwitch : BodyPart → Bool
  | declaration _ type _ _ _ => !opensSwitch type.chars
  | label _ name => !opensSwitch name.chars
  | handler .. => true
  | statement .. => true
  | switch .. => true

/-- The statement that the part says, if it is a statement or a switch. -/
def statement? (owner : String) : BodyPart → Option Statement
  | statement number text =>
    (readStatement owner text).toOption.map fun reading => ⟨reading.instruction, number⟩
  | switch number opening _ _ => some ⟨.other (String.ofList opening), number⟩
  | declaration .. => none
  | label .. => none
  | handler .. => none

/-- What the part adds to a body. -/
def record (d : Draft) : BodyPart → Draft
  | declaration _ type _ name names =>
    (name :: names).foldl (fun d x => d.declare type.text (String.ofList x.chars)) d
  | statement number text =>
    match readStatement d.method.signature text with
    | .ok reading => d.record reading number
    | .error _ => d
  | switch number opening _ _ => d.add (.other (String.ofList opening)) number
  | label .. => d
  | handler .. => d

end BodyPart

/-! ### Members -/

structure FieldText where
  number : Nat
  modifiers : List Word
  type : PlainName
  name : PlainName

namespace FieldText

def line (f : FieldText) : Line :=
  ⟨f.number, spaced (f.modifiers.map Word.chars ++ [f.type.chars, f.name.chars]) ++ [';']⟩

def toField (f : FieldText) (owner : String) : Field where
  declaringClass := owner
  name := String.ofList f.name.chars
  type := String.ofList f.type.chars
  isStatic := (f.modifiers.map Word.text).contains "static"

end FieldText

/-- The end of a method: a semicolon, or a body. -/
inductive MethodEnd where
  | semicolon
  | body (brace : Brace) (parts : List BodyPart) (closing : Nat)

structure MethodText where
  number : Nat
  modifiers : List Word
  returnType : PlainName
  name : MemberName
  params : List PlainName
  throws : List Word
  gap : Gap
  ending : MethodEnd

namespace MethodText

variable (m : MethodText)

def header : List Char :=
  spaced (m.modifiers.map Word.chars ++ [m.returnType.chars, m.name.chars]) ++
    '(' :: commaList m.gap (m.params.map PlainName.chars) ++ ')' :: clause "throws" m.gap m.throws

def lines : List Line :=
  match m.ending with
  | .semicolon => [⟨m.number, m.header ++ [';']⟩]
  | .body brace parts closing =>
    brace.lines m.number m.header ++ parts.flatMap BodyPart.lines ++ [⟨closing, ['\x7d']⟩]

def parts : List BodyPart :=
  match m.ending with
  | .semicolon => []
  | .body _ parts _ => parts

/-- The method before its body is read. -/
def declared (owner : String) : Method where
  declaringClass := owner
  name := String.ofList m.name.chars
  paramTypes := m.params.map fun type => String.ofList type.chars
  returnType := String.ofList m.returnType.chars
  modifiers := OrderedSet.ofList (m.modifiers.map Word.text)
  body := none

/-- The body, with one statement for each statement and each switch. -/
def body (owner : String) : Body :=
  { (m.parts.foldl BodyPart.record { method := m.declared owner }).finish with
    statements := m.parts.filterMap (BodyPart.statement? (m.declared owner).signature) }

def toMethod (owner : String) : Method :=
  match m.ending with
  | .semicolon => m.declared owner
  | .body .. => { m.declared owner with body := some (m.body owner) }

theorem subsignature_toMethod (owner : String) :
    (m.toMethod owner).subsignature = (m.declared owner).subsignature := by
  unfold toMethod
  split <;> rfl

end MethodText

inductive MemberText where
  | field (f : FieldText)
  | method (m : MethodText)

namespace MemberText

def lines : MemberText → List Line
  | field f => [f.line]
  | method m => m.lines

def field? : MemberText → Option FieldText
  | field f => some f
  | method _ => none

def method? : MemberText → Option MethodText
  | field _ => none
  | method m => some m

end MemberText

/-! ### Classes -/

/-- A class with its superclass, if it names one, or an interface. -/
inductive ClassKind where
  | ofClass (superclass : Option Word)
  | ofInterface

namespace ClassKind

def keyword : ClassKind → Word
  | ofClass _ => ⟨"class".toList, by decide +kernel⟩
  | ofInterface => ⟨"interface".toList, by decide +kernel⟩

def supertypes (gap : Gap) (interfaces : List Word) : ClassKind → List Char
  | ofClass superclass =>
    clause "extends" gap superclass.toList ++ clause "implements" gap interfaces
  | ofInterface => clause "extends" gap interfaces

/-- The superclass; a class that names none has that of all objects, but for itself. -/
def superclassOf (name : String) : ClassKind → Option String
  | ofClass (some superclass) => some superclass.text
  | ofClass none => if name = objectClass then none else some objectClass
  | ofInterface => none

def named? : ClassKind → Option Word
  | ofClass superclass => superclass
  | ofInterface => none

def modifiers : ClassKind → List String
  | ofClass _ => []
  | ofInterface => ["interface"]

end ClassKind

/-- A listed class, whose members have names of their own and whose bodies are accepted. -/
structure ClassText where
  number : Nat
  modifiers : List Word
  kind : ClassKind
  name : Word
  interfaces : List Word
  gap : Gap
  brace : Brace
  members : List MemberText
  closing : Nat
  modifiers_valid : (modifiers.all fun w => !classWords.contains w.text) = true
  names_valid : ((name :: kind.named?.toList ++ interfaces).all fun w => !w.isReserved) = true
  fields_nodup : ((members.filterMap MemberText.field?).map fun f => f.name.chars).Nodup
  methods_nodup : ((members.filterMap MemberText.method?).map fun m =>
    (m.declared name.text).subsignature).Nodup
  parts_valid : ((members.filterMap MemberText.method?).all fun m =>
    m.parts.all (BodyPart.isValid (m.declared name.text).signature)) = true

namespace ClassText

variable (c : ClassText)

def header : List Char :=
  spaced (c.modifiers.map Word.chars ++ [c.kind.keyword.chars, c.name.chars]) ++
    c.kind.supertypes c.gap c.interfaces

def lines : List Line :=
  c.brace.lines c.number c.header ++ c.members.flatMap MemberText.lines ++ [⟨c.closing, ['\x7d']⟩]

def fields : List Field :=
  (c.members.filterMap MemberText.field?).map fun f => f.toField c.name.text

def methods : List Method :=
  (c.members.filterMap MemberText.method?).map fun m => m.toMethod c.name.text

/-- No part of a body in the class begins like a switch that is none. -/
def avoidsSwitches : Bool :=
  (c.members.filterMap MemberText.method?).all fun m => m.parts.all BodyPart.avoidsSwitch

theorem nodup_fields : (c.fields.map Field.name).Nodup := by
  have h := c.fields_nodup
  have hmap : c.fields.map Field.name = ((c.members.filterMap MemberText.field?).map fun f =>
      f.name.chars).map String.ofList := by
    rw [fields, List.map_map, List.map_map]
    rfl
  rw [hmap]
  exact h.map fun _ _ => String.ofList_injective

theorem nodup_methods : (c.methods.map Method.subsignature).Nodup := by
  have hmap : c.methods.map Method.subsignature =
      (c.members.filterMap MemberText.method?).map fun m =>
        (m.declared c.name.text).subsignature := by
    rw [methods, List.map_map]
    exact List.map_congr_left fun m _ => m.subsignature_toMethod c.name.text
  rw [hmap]
  exact c.methods_nodup

/-- The class that the listing says. -/
def toClass : Class where
  name := c.name.text
  superclass := c.kind.superclassOf c.name.text
  interfaces := c.interfaces.map Word.text
  modifiers := OrderedSet.ofList (c.modifiers.map Word.text ++ c.kind.modifiers)
  fields := ⟨c.fields, c.nodup_fields⟩
  methods := ⟨c.methods, c.nodup_methods⟩

end ClassText

end PointsTo.Jimple
