import PointsTo.Text.Blank
import PointsTo.Text.Line

/-!
Scans that know string constants. `Quoting` is the state of such a scan; comments, argument lists
and closing parentheses are found with it, so that all three agree on where a string constant
begins and ends.
-/
namespace PointsTo.Jimple

open PointsTo.Text

/-- Where a scan is: outside of string constants, inside one, or behind a backslash inside one. -/
inductive Quoting where
  | outside
  | inside
  | escaped
deriving DecidableEq, Repr

def Quoting.next : Quoting → Char → Quoting
  | outside, c => if c = '\x22' then inside else outside
  | inside, c => if c = '\\' then escaped else if c = '\x22' then outside else inside
  | escaped, _ => inside

/-! ### Comments -/

/-- The text with every closed block comment replaced by its line feeds. A block comment that is
not closed stays as it is. -/
def removeBlocks : List Char → List Char
  | [] => []
  | '/' :: '*' :: rest =>
    match _h : cut? ['*', '/'] rest with
    | some (comment, behind) => comment.filter (· = '\n') ++ removeBlocks behind
    | none => '/' :: '*' :: rest
  | c :: rest => c :: removeBlocks rest
termination_by s => s.length
decreasing_by
  · have := congrArg List.length (eq_append_of_cut? _h)
    simp only [List.length_append, List.length_cons, List.length_nil] at this ⊢
    omega
  · simp

/-- A line up to the first double slash outside of string constants. -/
def beforeComment : Quoting → List Char → List Char
  | _, [] => []
  | .outside, '/' :: '/' :: _ => []
  | q, c :: rest => c :: beforeComment (q.next c) rest

/-- The lines of a text without comments and without blanks at their ends. -/
def codeLines (text : List Char) : List (List Char) :=
  (splitLines (removeBlocks text)).map fun line => trim (beforeComment .outside line)

/-! ### Brackets -/

/-- How many characters there are up to the angle bracket that closes all open ones, counting it;
`depth` is how many are open. -/
def angleLength? (depth : Int) : List Char → Option Nat
  | [] => none
  | c :: rest =>
    if c = '>' ∧ depth = 1 then some 1
    else
      let depth := if c = '<' then depth + 1 else if c = '>' then depth - 1 else depth
      (angleLength? depth rest).map (· + 1)

/-- The same for parentheses outside of string constants. -/
def parenLength? (q : Quoting) (depth : Int) : List Char → Option Nat
  | [] => none
  | c :: rest =>
    if q = .outside ∧ c = ')' ∧ depth = 1 then some 1
    else
      let depth :=
        if q = .outside ∧ c = '(' then depth + 1
        else if q = .outside ∧ c = ')' then depth - 1
        else depth
      (parenLength? (q.next c) depth rest).map (· + 1)

def angleEnd? (text : List Char) (start : Nat) : Option Nat :=
  (angleLength? 0 (text.drop start)).map (start + ·)

def parenEnd? (text : List Char) (start : Nat) : Option Nat :=
  (parenLength? .outside 0 (text.drop start)).map (start + ·)

/-! ### Lists -/

/-- The pieces between the commas outside of string constants. -/
def pieces : Quoting → List Char → List (List Char)
  | _, [] => [[]]
  | q, c :: rest =>
    if q = .outside ∧ c = ',' then [] :: pieces .outside rest
    else extendFirst c (pieces (q.next c) rest)

/-- The arguments of a call, trimmed; a blank text has none. -/
def splitArgs (text : List Char) : List (List Char) :=
  match (pieces .outside text).map trim with
  | [[]] => []
  | args => args

/-- The types of a parameter list, trimmed; empty ones are left out. -/
def splitTypes (text : List Char) : List (List Char) :=
  ((splitWhere (· = ',') text).map trim).filter fun type => !type.isEmpty

end PointsTo.Jimple
