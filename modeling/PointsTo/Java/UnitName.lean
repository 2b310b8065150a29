import PointsTo.Text.Blank
import PointsTo.Text.Word

/-!
The name of a Java compilation unit: its public type, or else its first type, or else `Main`. The
text is searched as it stands, so a declaration inside a comment or a string counts like any other.
-/
namespace PointsTo.Java

open PointsTo.Text

def typeWords : List (List Char) :=
  ["class".toList, "interface".toList, "enum".toList, "record".toList]

/-- The words that may stand between `public` and the word that declares a type. -/
def typeModifiers : List (List Char) := ["final".toList, "abstract".toList, "sealed".toList]

/-- The first word of a text that begins with one, and the text from the next word on. -/
def cutWord (s : List Char) : List Char × List Char :=
  (s.takeWhile fun c => !isBlank c, trimLeft (s.dropWhile fun c => !isBlank c))

theorem length_cutWord_lt {s : List Char} (h : (cutWord s).1 ≠ []) :
    (cutWord s).2.length < s.length := by
  have whole := congrArg List.length
    (List.takeWhile_append_dropWhile (p := fun c => !isBlank c) (l := s))
  have rest := (List.dropWhile_sublist isBlank (l := s.dropWhile fun c => !isBlank c)).length_le
  have word := List.length_pos_iff.2 h
  simp only [cutWord, trimLeft, List.length_append] at *
  omega

def skipModifiers (s : List Char) : List Char :=
  if _h : typeModifiers.contains (cutWord s).1 then skipModifiers (cutWord s).2 else s
termination_by s.length
decreasing_by
  apply length_cutWord_lt
  intro none
  rw [none] at _h
  revert _h
  decide

/-- The name of the type that is declared where the text begins: a word that declares a type, and
then the letters of the word behind it. -/
def typeHere? (s : List Char) : Option (List Char) :=
  let (kind, rest) := cutWord s
  let name := rest.takeWhile isWord
  if typeWords.contains kind && !name.isEmpty then some name else none

/-- The name of the public type that is declared where the text begins. -/
def publicTypeHere? (s : List Char) : Option (List Char) :=
  let (word, rest) := cutWord s
  if word = "public".toList then typeHere? (skipModifiers rest) else none

/-- The first answer at a place of the text that begins a word. -/
def atWordStart? {α : Type} (answer : List Char → Option α) :
    (insideWord : Bool) → List Char → Option α
  | _, [] => none
  | insideWord, c :: rest =>
    (if isWord c && !insideWord then answer (c :: rest) else none).or
      (atWordStart? answer (isWord c) rest)

def unitName (source : String) : String :=
  let s := source.toList
  match (atWordStart? publicTypeHere? false s).or (atWordStart? typeHere? false s) with
  | some name => String.ofList name
  | none => "Main"

end PointsTo.Java
