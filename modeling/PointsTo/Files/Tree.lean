import PointsTo.Files.Path
import PointsTo.Roster
import PointsTo.Text.Quoted

/-!
Trees of files: the files and folders below a folder, with the reasons why one of them cannot be
read or written.
-/
namespace PointsTo.Files

inductive Cause where
  | notFound
  | notAFolder
  | isAFolder
  | nameTooLong
  | denied
  | nullCharacter
deriving DecidableEq, Repr

/-- The cause says only that nothing can be found at the path, and not that it cannot be looked
up. -/
def Cause.isAbsence : Cause → Bool
  | .notFound | .notAFolder | .nullCharacter => true
  | .isAFolder | .nameTooLong | .denied => false

/-- The longest name of a file or folder, in bytes. -/
def maxName : Nat := 255

/-- The longest path, in bytes. -/
def maxPath : Nat := 4095

structure Fault where
  path : Path
  cause : Cause
deriving DecidableEq, Repr

def Fault.message (f : Fault) : String :=
  let about := fun text => text ++ ": " ++ Text.quoted f.path.text
  match f.cause with
  | .notFound => about "[Errno 2] No such file or directory"
  | .notAFolder => about "[Errno 20] Not a directory"
  | .isAFolder => about "[Errno 21] Is a directory"
  | .denied => about "[Errno 13] Permission denied"
  | .nameTooLong => about "[Errno 36] File name too long"
  | .nullCharacter => "embedded null byte"

inductive Kind where
  | file
  | folder
deriving DecidableEq, Repr

/-- What a file tree holds at a place: the bytes of a file, or a folder. -/
structure Item where
  parts : List String
  bytes : Option (List UInt8)
deriving DecidableEq

/-- Where a path leads: to a place in a tree, or to somewhere outside of it. -/
inductive Spot where
  | inside (parts : List String)
  | above
deriving DecidableEq, Repr

/-- A tree of files below a folder. The folders above an item are in the tree with it. -/
abbrev Tree := Roster Item.parts

namespace Tree

def kindAt? (t : Tree) (parts : List String) : Option Kind :=
  match t.get? parts with
  | some ⟨_, some _⟩ => some .file
  | some ⟨_, none⟩ => some .folder
  | none => if parts.isEmpty || t.keys.any parts.isPrefixOf then some .folder else none

/-- Follows the components of a path from a spot on; two dots lead to the folder above. The folders
above the tree are known to have no other items. -/
def follow (t : Tree) : Spot → List String → Except Cause Spot
  | spot, [] => .ok spot
  | .above, name :: rest =>
    if name.utf8ByteSize > maxName then .error .nameTooLong
    else if name = ".." then t.follow .above rest
    else .error .notFound
  | .inside here, name :: rest =>
    if t.kindAt? here ≠ some .folder then .error .notAFolder
    else if name.utf8ByteSize > maxName then .error .nameTooLong
    else if name = ".." then
      t.follow (if here.isEmpty then .above else .inside here.dropLast) rest
    else
      match t.kindAt? (here ++ [name]) with
      | none => .error .notFound
      | some _ => t.follow (.inside (here ++ [name])) rest

/-- Where a path leads. A relative path begins in the folder of the tree. -/
def spot (t : Tree) (p : Path) : Except Cause Spot :=
  if p.text.toList.contains '\x00' then .error .nullCharacter
  else if p.text.utf8ByteSize > maxPath then .error .nameTooLong
  else t.follow (if p.root.isEmpty then .inside [] else .above) p.parts

def kindOf? (t : Tree) : Spot → Option Kind
  | .above => some .folder
  | .inside parts => t.kindAt? parts

def kind? (t : Tree) (p : Path) : Except Cause (Option Kind) :=
  match t.spot p with
  | .ok spot => .ok (t.kindOf? spot)
  | .error cause => if cause.isAbsence then .ok none else .error cause

def read (t : Tree) (p : Path) : Except Cause (List UInt8) := do
  match ← t.spot p with
  | .above => throw .isAFolder
  | .inside parts =>
    match t.get? parts with
    | some ⟨_, some bytes⟩ => return bytes
    | _ => throw .isAFolder

def addItem (t : Tree) (p : Path) (bytes : Option (List UInt8)) : Tree := t.put ⟨p.parts, bytes⟩

/-- The spot of a file that is written under a path: that of a file that is there already, or a new
one in a folder. -/
def target (t : Tree) (p : Path) : Except Cause Spot :=
  match t.spot p with
  | .ok spot => if t.kindOf? spot = some .file then .ok spot else .error .isAFolder
  | .error .notFound => do
    let folder ← t.spot { p with parts := p.parts.dropLast }
    if t.kindOf? folder ≠ some .folder then throw .notAFolder
    match folder, p.parts.getLast? with
    | _, none => throw .notFound
    | .above, some _ => return .above
    | .inside parts, some name => return .inside (parts ++ [name])
  | .error cause => .error cause

def withSuffix (t : Tree) (suffix : String) : List Path :=
  let beginnings := fun (parts : List String) => (List.range (parts.length + 1)).map parts.take
  let places := (OrderedSet.ofList (t.keys.flatMap beginnings)).items
  (places.map fun parts => (⟨"", parts⟩ : Path)).filter (·.hasSuffix suffix)

end Tree

end PointsTo.Files
