import PointsTo.Text.Quoted

/-!
What can be wrong with a Jimple text, and the wording of each fault. A fault inside a statement says
nothing of the line; the line is added where the statement stands.
-/
namespace PointsTo.Jimple

open PointsTo.Text (quoted)

/-- What is wrong with a statement or with one of the forms inside it. -/
inductive StatementFault where
  | badMethodRef (text : String)
  | badFieldRef (text : String)
  | unclosedAngle (text : String)
  | unclosedParen (text : String)
  /-- A call without the mark that ends its receiver or its name. -/
  | missingMark
  /-- A call whose receiver is not followed by a method reference. -/
  | missingMethodRef (text : String)
  /-- An assignment to something that is no variable, field or array element. -/
  | badTarget (text : String)
  /-- A parameter number of more digits than are read. -/
  | longNumber (digits : Nat)
deriving DecidableEq, Repr

/-- How many digits of a parameter number are read. -/
def maxDigits : Nat := 4300

def StatementFault.message : StatementFault → String
  | badMethodRef text => "bad method signature " ++ quoted text
  | badFieldRef text => "bad field signature " ++ quoted text
  | unclosedAngle text => "unbalanced signature in " ++ quoted text
  | unclosedParen text => "unbalanced parentheses in " ++ quoted text
  | missingMark => "substring not found"
  | missingMethodRef text => "expected a method signature in " ++ quoted text
  | badTarget text => "unsupported assignment target " ++ quoted text
  | longNumber digits =>
    "Exceeds the limit (" ++ toString maxDigits ++
      " digits) for integer string conversion: value has " ++ toString digits ++
      " digits; use sys.set_int_max_str_digits() to increase the limit"

/-- What is wrong with a line, or with the text behind its last line. -/
inductive LineFault where
  /-- A class or method whose opening brace does not come next. -/
  | missingBrace (opening : String)
  | unclosedSwitch
  /-- The text ends inside a class or a method. -/
  | unexpectedEnd
  /-- Outside of all classes, a line that is no class header. -/
  | badClassHeader (text : String)
  /-- In a class header, a name that belongs to no clause. -/
  | strayName (name : String)
  /-- Inside a class, a line that is no member. -/
  | badMember (text : String)
  | badField (text : String)
  | badMethodHeader (text : String)
  | missingSemicolon (text : String)
  | badStatement (fault : StatementFault)
deriving DecidableEq, Repr

def LineFault.message : LineFault → String
  | missingBrace opening => "expected '\x7b' to open " ++ opening
  | unclosedSwitch => "unterminated switch"
  | unexpectedEnd => "unexpected end of input"
  | badClassHeader text => "expected a class declaration, got " ++ quoted text
  | strayName name => "unexpected " ++ quoted name ++ " in class header"
  | badMember text => "expected a member declaration, got " ++ quoted text
  | badField text => "bad field declaration " ++ quoted text
  | badMethodHeader text => "bad method header " ++ quoted text
  | missingSemicolon text => "expected ';' after statement " ++ quoted text
  | badStatement fault => fault.message

/-- Why a text is no Jimple. -/
inductive Fault where
  | atLine (line : Nat) (fault : LineFault)
  /-- A method header without a closing parenthesis, which is reported without its place. -/
  | unclosedHeader
deriving DecidableEq, Repr

def Fault.message : Fault → String
  | atLine line fault => "line " ++ toString line ++ ": " ++ fault.message
  | unclosedHeader => "substring not found"

end PointsTo.Jimple
