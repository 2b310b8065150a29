import PointsTo.Jimple.Statement
import PointsTo.Proofs.Arguments

/-!
Statements as they are written. A written statement has all that its text shows, so also what the
instruction leaves out: the type of a cast, an index, a size, the constants among the arguments.
`Written.text` is the text and `Written.reading` what it means. The types carry which names and
constants can be written.
-/
namespace PointsTo.Jimple

open PointsTo.Text

/-! ### Names -/

/-- An identifier without quotes that is neither the null constant nor a keyword. -/
def isBareLocal : List Char → Bool
  | [] => false
  | c :: rest =>
    isNameStart c && rest.all isNameChar && c :: rest ≠ "null".toList &&
      !keywords.contains (String.ofList (c :: rest))

/-- The name of a local variable. -/
structure LocalName where
  chars : List Char
  valid : isBareLocal chars = true

/-- The variable of a method that the name stands for. -/
def LocalName.var (x : LocalName) (owner : String) : Variable := ⟨owner, String.ofList x.chars⟩

/-- The characters that set the parts of a reference apart. -/
def nameStops : List Char := ['\x27', '\x22', ':', ',', '(', ')', '<', '>']

def isPlainName (s : List Char) : Bool :=
  !s.isEmpty && s.all fun c => !isBlank c && !nameStops.contains c

/-- The name of a class, of a type, or of most members. -/
structure PlainName where
  chars : List Char
  valid : isPlainName chars = true

/-- The name of a member. Only the initializers have angle brackets in theirs. -/
inductive MemberName where
  | plain (name : PlainName)
  | initializer
  | classInitializer

def MemberName.chars : MemberName → List Char
  | plain name => name.chars
  | initializer => "<init>".toList
  | classInitializer => "<clinit>".toList

/-! ### Constants -/

def isNumber : List Char → Bool
  | [] => false
  | c :: rest =>
    (c.isDigit || ['+', '-', '.', '#'].contains c) &&
      rest.all fun d => isWord d || ['+', '-', '.', '#'].contains d

/-- A number, with the signs of the special ones and the letters behind some. -/
structure NumberText where
  chars : List Char
  valid : isNumber chars = true

/-- One character of a string constant, escaped or not. -/
inductive StringPart where
  | plain (c : Char) (valid : c ≠ '\x22' ∧ c ≠ '\\')
  | escaped (c : Char)

def StringPart.chars : StringPart → List Char
  | plain c _ => [c]
  | escaped c => ['\\', c]

def stringText (parts : List StringPart) : List Char :=
  '\x22' :: parts.flatMap StringPart.chars ++ ['\x22']

inductive Constant where
  | null
  | number (n : NumberText)
  | string (parts : List StringPart)
  | classRef (parts : List StringPart)

def Constant.chars : Constant → List Char
  | null => "null".toList
  | number n => n.chars
  | string parts => stringText parts
  | classRef parts => "class ".toList ++ stringText parts

inductive Argument where
  | name (x : LocalName)
  | constant (k : Constant)

namespace Argument

def chars : Argument → List Char
  | name x => x.chars
  | constant k => k.chars

/-- The variable that is passed; a constant is none. -/
def var? (owner : String) : Argument → Option Variable
  | name x => some (x.var owner)
  | constant _ => none

end Argument

/-- An index of an array, or a size. -/
inductive Index where
  | name (x : LocalName)
  | number (n : NumberText)

def Index.chars : Index → List Char
  | name x => x.chars
  | number n => n.chars

def bracketed (i : List Char) : List Char := '[' :: i ++ [']']

/-! ### References -/

structure WrittenField where
  owner : PlainName
  type : PlainName
  name : MemberName

namespace WrittenField

def text (f : WrittenField) : List Char :=
  '<' :: f.owner.chars ++ ':' :: ' ' :: f.type.chars ++ ' ' :: f.name.chars ++ ['>']

def ref (f : WrittenField) : FieldRef where
  declaringClass := String.ofList f.owner.chars
  name := String.ofList f.name.chars
  type := String.ofList f.type.chars

end WrittenField

/-- The types of parameters as a reference lists them. -/
def typeList (types : List PlainName) : List Char := [','].intercalate (types.map PlainName.chars)

structure WrittenMethod where
  owner : PlainName
  returnType : PlainName
  name : MemberName
  params : List PlainName

/-- A reference to a method of an owner that may have no plain name. -/
def methodText (owner : List Char) (returnType : PlainName) (name : MemberName)
    (params : List PlainName) : List Char :=
  '<' :: owner ++ ':' :: ' ' :: returnType.chars ++ ' ' :: name.chars ++
    '(' :: typeList params ++ [')', '>']

namespace WrittenMethod

def text (m : WrittenMethod) : List Char := methodText m.owner.chars m.returnType m.name m.params

def ref (m : WrittenMethod) : MethodRef where
  declaringClass := String.ofList m.owner.chars
  name := String.ofList m.name.chars
  paramTypes := m.params.map fun type => String.ofList type.chars
  returnType := String.ofList m.returnType.chars

end WrittenMethod

/-! ### Calls -/

/-- What is called. A dynamic call has its name in front of the reference, which as a rule has no
owner and then does not repeat the name; the method that links the call follows the arguments. -/
inductive Callee where
  | static (method : WrittenMethod)
  | onObject (kind : CallKind) (valid : hasReceiver kind = true) (receiver : LocalName)
      (method : WrittenMethod)
  | dynamic (owner : Option PlainName) (name : MemberName) (returnType : PlainName)
      (params : List PlainName) (linkage : List Char)

namespace Callee

def kind : Callee → CallKind
  | static _ => .static
  | onObject kind .. => kind
  | dynamic .. => .dynamic

/-- What stands in front of the reference. -/
def before : Callee → List Char
  | static _ => []
  | onObject _ _ receiver _ => receiver.chars ++ ['.']
  | dynamic _ name .. => '\x22' :: name.chars ++ ['\x22', ' ']

/-- The reference. -/
def signature : Callee → List Char
  | static method => method.text
  | onObject _ _ _ method => method.text
  | dynamic (some owner) name returnType params _ =>
    methodText owner.chars returnType name params
  | dynamic none _ returnType params _ =>
    '<' :: returnType.chars ++ ' ' :: '(' :: typeList params ++ [')', '>']

/-- What stands behind the arguments. -/
def behind : Callee → List Char
  | dynamic _ _ _ _ linkage => linkage
  | _ => []

def ref : Callee → MethodRef
  | static method => method.ref
  | onObject _ _ _ method => method.ref
  | dynamic owner name returnType params _ =>
    { declaringClass := (owner.map fun owner => String.ofList owner.chars).getD dynamicClass
      name := String.ofList name.chars
      paramTypes := params.map fun type => String.ofList type.chars
      returnType := String.ofList returnType.chars }

def receiver? (owner : String) : Callee → Option Variable
  | onObject _ _ receiver _ => some (receiver.var owner)
  | _ => none

def isLegible : Callee → Bool
  | dynamic _ (.plain _) _ _ _ => true
  | dynamic .. => false
  | _ => true

/-- The call behind its keyword. -/
def text (c : Callee) (args : List Argument) : List Char :=
  c.before ++ c.signature ++ '(' :: joinArguments (args.map Argument.chars) ++ ')' :: c.behind

end Callee

/-! ### Statements -/

/-- A statement that moves pointers, as it is written. -/
inductive Written where
  | allocate (target : LocalName) (type : PlainName)
  | allocateArray (target : LocalName) (type : PlainName) (size : Index)
  | allocateArrays (target : LocalName) (type : PlainName) (size : Option Index)
      (sizes : List (Option Index))
  | copy (target source : LocalName)
  | cast (target : LocalName) (type : PlainName) (source : LocalName)
  | loadStatic (target : LocalName) (field : WrittenField)
  | loadField (target base : LocalName) (field : WrittenField)
  | storeStatic (field : WrittenField) (source : LocalName)
  | storeField (base : LocalName) (field : WrittenField) (source : LocalName)
  | loadElement (target base : LocalName) (index : Index)
  | storeElement (base : LocalName) (index : Index) (source : LocalName)
  | call (result : Option LocalName) (callee : Callee) (args : List Argument)
  | ret (value : Option Argument)

namespace Written

/-- The text of an assignment. -/
def assignment (left right : List Char) : List Char := left ++ " = ".toList ++ right

def sizeText (size : Option Index) : List Char := bracketed ((size.map Index.chars).getD [])

def callText (callee : Callee) (args : List Argument) : List Char :=
  callee.kind.keyword.toList ++ ' ' :: callee.text args

def text : Written → List Char
  | allocate x type => assignment x.chars ("new ".toList ++ type.chars)
  | allocateArray x type size =>
    assignment x.chars ("newarray (".toList ++ type.chars ++ ')' :: bracketed size.chars)
  | allocateArrays x type size sizes =>
    assignment x.chars
      ("newmultiarray (".toList ++ type.chars ++ ')' :: (size :: sizes).flatMap sizeText)
  | copy x y => assignment x.chars y.chars
  | cast x type y => assignment x.chars ('(' :: type.chars ++ ')' :: ' ' :: y.chars)
  | loadStatic x f => assignment x.chars f.text
  | loadField x base f => assignment x.chars (base.chars ++ '.' :: f.text)
  | storeStatic f y => assignment f.text y.chars
  | storeField base f y => assignment (base.chars ++ '.' :: f.text) y.chars
  | loadElement x base i => assignment x.chars (base.chars ++ bracketed i.chars)
  | storeElement base i y => assignment (base.chars ++ bracketed i.chars) y.chars
  | call none callee args => callText callee args
  | call (some x) callee args => assignment x.chars (callText callee args)
  | ret none => "return".toList
  | ret (some value) => "return ".toList ++ value.chars

/-- The type of an array with elements of some type. -/
def arrayType (type : List Char) (dims : Nat) : String :=
  String.ofList (type ++ (List.replicate dims ['[', ']']).flatten)

/-- What the statement does. -/
def instruction (owner : String) : Written → Instruction
  | allocate x type => .allocate (x.var owner) (String.ofList type.chars)
  | allocateArray x type _ => .allocate (x.var owner) (arrayType type.chars 1)
  | allocateArrays x type _ sizes =>
    .allocate (x.var owner) (arrayType type.chars (sizes.length + 1))
  | copy x y => .copy (x.var owner) (y.var owner)
  | cast x _ y => .copy (x.var owner) (y.var owner)
  | loadStatic x f => .loadStatic (x.var owner) f.ref
  | loadField x base f =>
    .loadField (x.var owner) (base.var owner) f.ref
  | storeStatic f y => .storeStatic f.ref (y.var owner)
  | storeField base f y =>
    .storeField (base.var owner) f.ref (y.var owner)
  | loadElement x base _ => .loadElement (x.var owner) (base.var owner)
  | storeElement base _ y => .storeElement (base.var owner) (y.var owner)
  | call result callee args =>
    .call {
      kind := callee.kind
      callee := callee.ref
      receiver := callee.receiver? owner
      args := args.map (Argument.var? owner)
      result := result.map (LocalName.var · owner) }
  | ret value => .ret (value.bind (Argument.var? owner))

/-- The variables that the statement speaks of, as a body comes to know them. -/
def mentions (owner : String) : Written → List Variable
  | allocate x _ => [x.var owner]
  | allocateArray x _ _ => [x.var owner]
  | allocateArrays x _ _ _ => [x.var owner]
  | copy x y => [x.var owner, y.var owner]
  | cast x _ y => [x.var owner, y.var owner]
  | loadStatic x _ => [x.var owner]
  | loadField x base _ => [x.var owner, base.var owner]
  | storeStatic _ y => [y.var owner]
  | storeField base _ y => [y.var owner, base.var owner]
  | loadElement x base _ => [x.var owner, base.var owner]
  | storeElement base _ y => [y.var owner, base.var owner]
  | call result callee args =>
    (result.map (LocalName.var · owner)).toList ++ (callee.receiver? owner).toList ++
      args.filterMap (Argument.var? owner)
  | ret value => (value.bind (Argument.var? owner)).toList

def reading (owner : String) (w : Written) : Reading := ⟨w.instruction owner, w.mentions owner, none⟩

/-- The reader can tell the parts of the statement apart. A type that is a mere `=` in the target of
a store looks like the sign of the assignment, and the name of a dynamic call ends where an angle
bracket begins the reference. -/
def isLegible : Written → Bool
  | storeStatic f _ => f.type.chars ≠ ['=']
  | storeField _ f _ => f.type.chars ≠ ['=']
  | call _ callee _ => callee.isLegible
  | _ => true

end Written

end PointsTo.Jimple
