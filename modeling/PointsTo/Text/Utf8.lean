/-!
Reading UTF-8. A well-formed byte sequence reads as its character; every longest piece that begins
a character and cannot be continued is one fault. `decode?` refuses a text with a fault and
`decodeLossy` puts the replacement character in its place.
-/
namespace PointsTo.Text.Utf8

/-- A character of which some bytes have been read: the bits so far, how many bytes are still to
come, and the range in which the next one has to lie. -/
structure Pending where
  bits : Nat
  more : Nat
  low : Nat
  high : Nat

/-- Reads the byte that begins a character. What comes out is the characters it completes, a fault
as `none`, and the character that it leaves unfinished. -/
def begin (b : Nat) : List (Option Char) × Option Pending :=
  if b < 0x80 then ([some (Char.ofNat b)], none)
  else if b < 0xc2 then ([none], none)
  else if b < 0xe0 then ([], some ⟨b - 0xc0, 1, 0x80, 0xbf⟩)
  else if b = 0xe0 then ([], some ⟨0, 2, 0xa0, 0xbf⟩)
  else if b = 0xed then ([], some ⟨0xd, 2, 0x80, 0x9f⟩)
  else if b < 0xf0 then ([], some ⟨b - 0xe0, 2, 0x80, 0xbf⟩)
  else if b = 0xf0 then ([], some ⟨0, 3, 0x90, 0xbf⟩)
  else if b < 0xf4 then ([], some ⟨b - 0xf0, 3, 0x80, 0xbf⟩)
  else if b = 0xf4 then ([], some ⟨4, 3, 0x80, 0x8f⟩)
  else ([none], none)

/-- Reads one byte. A byte that cannot continue the unfinished character ends it as a fault and
begins a character of its own. -/
def step : Option Pending → Nat → List (Option Char) × Option Pending
  | none, b => begin b
  | some p, b =>
    if p.low ≤ b ∧ b ≤ p.high then
      let bits := 64 * p.bits + (b - 0x80)
      if p.more = 1 then ([some (Char.ofNat bits)], none)
      else ([], some ⟨bits, p.more - 1, 0x80, 0xbf⟩)
    else
      let (read, rest) := begin b
      (none :: read, rest)

/-- The characters of a text that follows an unfinished character, with `none` for each fault. -/
def readFrom : Option Pending → List UInt8 → List (Option Char)
  | none, [] => []
  | some _, [] => [none]
  | pending, b :: bytes =>
    let (read, rest) := step pending b.toNat
    read ++ readFrom rest bytes

/-- The text the bytes encode, if they have no fault. -/
def decode? (bytes : List UInt8) : Option (List Char) :=
  (readFrom none bytes).mapM id

/-- The text the bytes encode, with U+FFFD for each fault. -/
def decodeLossy (bytes : List UInt8) : List Char :=
  (readFrom none bytes).map fun c => c.getD '\uFFFD'

end PointsTo.Text.Utf8
