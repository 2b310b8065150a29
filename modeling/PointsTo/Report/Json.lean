/-!
JSON documents of texts, lists and objects, and their layout with two spaces for each level. All
characters beyond ASCII are escaped.
-/
namespace PointsTo.Report

inductive Json where
  | text (s : String)
  | list (items : List Json)
  | object (members : List (String × Json))

namespace Json

def unitEscape (n : Nat) : List Char :=
  ['\\', 'u', Nat.digitChar (n / 4096 % 16), Nat.digitChar (n / 256 % 16),
    Nat.digitChar (n / 16 % 16), Nat.digitChar (n % 16)]

/-- One character of a text; a character beyond the first 65536 is written as a pair of units. -/
def escape (c : Char) : List Char :=
  if c = '\x22' then ['\\', '\x22']
  else if c = '\\' then ['\\', '\\']
  else if c = '\n' then ['\\', 'n']
  else if c = '\r' then ['\\', 'r']
  else if c = '\t' then ['\\', 't']
  else if c = '\x08' then ['\\', 'b']
  else if c = '\x0c' then ['\\', 'f']
  else if 32 ≤ c.toNat ∧ c.toNat < 127 then [c]
  else if c.toNat < 0x10000 then unitEscape c.toNat
  else
    unitEscape (0xd800 + (c.toNat - 0x10000) / 1024) ++
      unitEscape (0xdc00 + (c.toNat - 0x10000) % 1024)

def quote (s : String) : String := "\x22" ++ String.ofList (s.toList.flatMap escape) ++ "\x22"

/-- The line break in front of what stands at a level. -/
def lineBreak (level : Nat) : String := "\n" ++ String.ofList (List.replicate (2 * level) ' ')

mutual

def render (level : Nat) : Json → String
  | text s => quote s
  | list [] => "[]"
  | list (item :: items) =>
    "[" ++ lineBreak (level + 1) ++ render (level + 1) item ++ renderItems (level + 1) items ++
      lineBreak level ++ "]"
  | object [] => "\x7b\x7d"
  | object ((key, value) :: members) =>
    "\x7b" ++ lineBreak (level + 1) ++ quote key ++ ": " ++ render (level + 1) value ++
      renderMembers (level + 1) members ++ lineBreak level ++ "\x7d"

/-- The further items of a list, each behind a comma. -/
def renderItems (level : Nat) : List Json → String
  | [] => ""
  | item :: items => "," ++ lineBreak level ++ render level item ++ renderItems level items

def renderMembers (level : Nat) : List (String × Json) → String
  | [] => ""
  | (key, value) :: members =>
    "," ++ lineBreak level ++ quote key ++ ": " ++ render level value ++
      renderMembers level members

end

end Json

end PointsTo.Report
