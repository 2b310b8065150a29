import PointsTo.Text.Blank

/-!
Paths of files. A path is the list of its components; empty components and single dots are no part
of it, so two spellings of a path are equal.
-/
namespace PointsTo.Files

open PointsTo.Text

/-- A path: its root, which is empty for a relative path, and its components. -/
structure Path where
  root : String
  parts : List String
deriving DecidableEq, Repr, Inhabited

namespace Path

/-- The root of a path by the slashes it begins with: two are a root of their own. -/
def rootOf (slashes : Nat) : String :=
  if slashes = 0 then "" else if slashes = 2 then "//" else "/"

def ofText (text : String) : Path where
  root := rootOf (text.toList.takeWhile (· = '/')).length
  parts := ((splitWhere (· = '/') text.toList).map String.ofList).filter fun part =>
    part ≠ "" && part ≠ "."

/-- The written form of a path; the path without components is a dot. -/
def text (p : Path) : String :=
  if p.root.isEmpty && p.parts.isEmpty then "." else p.root ++ "/".intercalate p.parts

def join (p q : Path) : Path :=
  if q.root.isEmpty then { p with parts := p.parts ++ q.parts } else q

def child (p : Path) (name : String) : Path := p.join (ofText name)

/-- What paths are sorted by: their components, the root being the first of an absolute path. -/
def sortKey (p : Path) : List String := if p.root.isEmpty then p.parts else p.root :: p.parts

/-- One list of components stands before another or is equal to it: a beginning comes first, and
otherwise the first components that differ decide. -/
def precedes : List String → List String → Bool
  | [], _ => true
  | _ :: _, [] => false
  | a :: rest, b :: others => a < b || (a == b && precedes rest others)

def sorted (paths : List Path) : List Path :=
  paths.mergeSort fun p q => precedes p.sortKey q.sortKey

def hasSuffix (p : Path) (suffix : String) : Bool :=
  match p.parts.getLast? with
  | none => false
  | some name => suffix.toList.isSuffixOf name.toList

end Path

end PointsTo.Files
