import PointsTo.Text.Blank
import PointsTo.Text.Word
import PointsTo.Program.Instruction

/-!
Names as Jimple writes them. A name may stand in single quotes, which are no part of it.
-/
namespace PointsTo.Jimple

open PointsTo.Text

/-- The name inside a pair of single quotes; any other text is its own name. -/
def unquote (s : List Char) : List Char :=
  match s with
  | '\x27' :: rest => if endsWith '\x27' rest then rest.dropLast else s
  | _ => s

def nameOf (s : List Char) : String := String.ofList (unquote s)

/-- The text without one single quote at its start. -/
def skipQuote : List Char → List Char
  | '\x27' :: rest => rest
  | s => s

def isNameChar (c : Char) : Bool := isWord c || c == '$' || c == '#'

/-- A character that begins an identifier: an ASCII letter, an underscore or a dollar sign. -/
def isNameStart (c : Char) : Bool := c.isAlpha || c == '_' || c == '$'

/-- The whole text is an identifier, with a single quote at either end or not. -/
def isIdentifier (s : List Char) : Bool :=
  match skipQuote s with
  | [] => false
  | c :: rest => isNameStart c && (skipQuote (rest.dropWhile isNameChar)).isEmpty

/-- The rest of a text behind a simple name, which may have a single quote at either end. -/
def afterName? (s : List Char) : Option (List Char) :=
  let s := skipQuote s
  if (s.takeWhile isNameChar).isEmpty then none else some (skipQuote (s.dropWhile isNameChar))

def isSimpleName (s : List Char) : Bool := afterName? s == some []

def isLocal (s : List Char) : Bool := s ≠ "null".toList && isIdentifier s

def firstWord (s : List Char) : List Char := s.takeWhile (· ≠ ' ')

def callKind? (s : List Char) : Option CallKind := CallKind.ofKeyword? (String.ofList (firstWord s))

/-- The words that begin a statement and so are no type of a declaration. -/
def keywords : List String :=
  ["return", "goto", "throw", "entermonitor", "exitmonitor", "nop", "breakpoint", "ret", "if",
    "catch"] ++ CallKind.all.map CallKind.keyword

end PointsTo.Jimple
