import PointsTo.Config
import PointsTo.Text.Digit
import PointsTo.Text.Blank

/-!
The options of the command line. A long option may be cut short as long as it stays the only one
that begins so, and its value may follow it as the next word or behind an equals sign. Two hyphens
are no value: behind an equals sign they set the option to nothing.
-/
namespace PointsTo.CommandLine

open PointsTo.Text

inductive Flag where
  | help
  | file
  | lang
  | algorithm
  | entry
  | format
  | output
  | logLevel
deriving DecidableEq, Repr

namespace Flag

/-- All options in the order in which they are explained. -/
def all : List Flag := [help, file, lang, algorithm, entry, format, output, logLevel]

def name : Flag → String
  | help => "--help"
  | file => "--file"
  | lang => "--lang"
  | algorithm => "--algorithm"
  | entry => "--entry"
  | format => "--format"
  | output => "--output"
  | logLevel => "--log-level"

/-- How faults name an option. -/
def title : Flag → String
  | help => "-h/--help"
  | flag => flag.name

def choices : Flag → List String
  | lang => ["jimple", "java"]
  | algorithm => Algorithm.all.map Algorithm.name
  | format => ["text", "dot", "pfg-dot", "json"]
  | _ => []

end Flag

/-- A value written into the word of its option. -/
inductive Attached where
  /-- Behind an equals sign and a long option. -/
  | equals (value : String)
  /-- Behind a short option, with an equals sign between them or not. -/
  | direct (value : List Char)
deriving DecidableEq, Repr

inductive Word where
  | operand
  /-- The word behind which all words are values. -/
  | separator
  | option (flag : Flag) (attached : Option Attached)
  /-- A word that looks like an option and is none. -/
  | unknown
deriving DecidableEq, Repr

inductive UsageFault where
  | ambiguous (word : String) (names : List String)
  | valueExpected (flag : Flag)
  | valueIgnored (flag : Flag) (value : String)
  | noChoice (flag : Flag) (value : String)
  | required (flag : Flag)
  | unrecognized (words : List String)
deriving DecidableEq, Repr

def UsageFault.message : UsageFault → String
  | ambiguous word names =>
    "ambiguous option: " ++ word ++ " could match " ++ ", ".intercalate names
  | valueExpected flag => "argument " ++ flag.title ++ ": expected one argument"
  | valueIgnored flag value =>
    "argument " ++ flag.title ++ ": ignored explicit argument " ++ quoted value
  | noChoice flag value =>
    "argument " ++ flag.title ++ ": invalid choice: " ++ quoted value ++ " (choose from " ++
      ", ".intercalate (flag.choices.map quoted) ++ ")"
  | required flag => "the following arguments are required: " ++ flag.title
  | unrecognized words => "unrecognized arguments: " ++ " ".intercalate words

/-! ### Words -/

/-- A line feed at the end of a word does not count for its form. -/
def withoutLineFeed (s : List Char) : List Char := if endsWith '\n' s then s.dropLast else s

/-- A minus sign and a number: digits, or digits with a point before the last of them. -/
def isNegativeNumber (s : List Char) : Bool :=
  match withoutLineFeed s with
  | '-' :: number =>
    match number.dropWhile isDigit with
    | [] => !number.isEmpty
    | '.' :: fraction => !fraction.isEmpty && fraction.all isDigit
    | _ => false
  | _ => false

def cutValue (s : List Char) : List Char × Option Attached :=
  match cut? ['='] s with
  | some (name, value) => (name, some (.equals (String.ofList value)))
  | none => (s, none)

/-- The long options that begin with a text. -/
def matching (beginning : List Char) : List Flag :=
  Flag.all.filter fun flag => startsWith beginning flag.name.toList

/-- What a word that begins with a hyphen, and has no place as it stands, is. -/
def otherWord (s : List Char) : Word :=
  if isNegativeNumber s || s.contains ' ' then .operand else .unknown

def classify (word : String) : Except UsageFault Word :=
  match word.toList with
  | '-' :: '-' :: rest =>
    let s := '-' :: '-' :: rest
    let (name, attached) := cutValue s
    match Flag.all.find? fun flag => flag.name = word with
    | some flag => .ok (.option flag none)
    | none =>
      match Flag.all.find? fun flag => flag.name.toList = name with
      | some flag => .ok (.option flag attached)
      | none =>
        match matching name with
        | [] => .ok (otherWord s)
        | [flag] => .ok (.option flag attached)
        | flags => .error (.ambiguous word (flags.map Flag.name))
  | ['-'] => .ok .operand
  | ['-', 'h'] => .ok (.option .help none)
  | '-' :: 'h' :: '=' :: letters => .ok (.option .help (some (.direct letters)))
  | '-' :: 'h' :: rest => .ok (.option .help (some (.direct rest)))
  | '-' :: rest => .ok (otherWord ('-' :: rest))
  | _ => .ok .operand

def classifyAll : List String → Except UsageFault (List (String × Word))
  | [] => .ok []
  | word :: words =>
    if word = "--" then .ok ((word, .separator) :: words.map fun w => (w, .operand))
    else do
      let first ← classify word
      let rest ← classifyAll words
      return (word, first) :: rest

/-! ### Arguments -/

structure Arguments where
  file : Option Setting := none
  lang : Setting := .text "jimple"
  algorithm : Setting := .text "pta"
  entry : Option Setting := none
  format : Setting := .text "text"
  output : Option Setting := none
  logLevel : Setting := .text "WARNING"
deriving DecidableEq, Repr

def Arguments.set (a : Arguments) (setting : Setting) : Flag → Arguments
  | .help => a
  | .file => { a with file := some setting }
  | .lang => { a with lang := setting }
  | .algorithm => { a with algorithm := setting }
  | .entry => { a with entry := some setting }
  | .format => { a with format := setting }
  | .output => { a with output := some setting }
  | .logLevel => { a with logLevel := setting }

/-- The setting that the value of an option makes. An option with choices takes no other text. -/
def settingOf (flag : Flag) (value : String) : Except UsageFault Setting :=
  if value = "--" then .ok .nothing
  else if !flag.choices.isEmpty && !flag.choices.contains value then .error (.noChoice flag value)
  else .ok (.text value)

inductive Request where
  | help
  | analyze (file : Setting) (arguments : Arguments)
deriving DecidableEq, Repr

/-- The letters behind the short help option: more of its kind are more of the same, and anything
else is a value, which is refused. -/
def helpLetters : List Char → Except UsageFault Request
  | ['h'] => .ok .help
  | 'h' :: rest => helpLetters rest
  | letters => .error (.valueIgnored .help (String.ofList letters))

/-- What the words ask for, where `extras` are the words before them that are no values. -/
def interpret (a : Arguments) (extras : List String) :
    List (String × Word) → Except UsageFault Request
  | [] =>
    match a.file with
    | none => .error (.required .file)
    | some file =>
      if extras.isEmpty then .ok (.analyze file a) else .error (.unrecognized extras)
  | (_, .option .help none) :: _ => .ok .help
  | (_, .option .help (some (.equals value))) :: _ => .error (.valueIgnored .help value)
  | (_, .option .help (some (.direct letters))) :: _ => helpLetters letters
  | (_, .option flag (some (.equals value))) :: rest => do
    interpret (a.set (← settingOf flag value) flag) extras rest
  | (_, .option flag (some (.direct value))) :: rest => do
    interpret (a.set (← settingOf flag (String.ofList value)) flag) extras rest
  | (_, .option flag none) :: (value, .operand) :: rest => do
    interpret (a.set (← settingOf flag value) flag) extras rest
  | (_, .option flag none) :: _ => .error (.valueExpected flag)
  | (word, _) :: rest => interpret a (extras ++ [word]) rest

def Request.ofWords (words : List String) : Except UsageFault Request := do
  interpret {} [] (← classifyAll words)

end PointsTo.CommandLine
