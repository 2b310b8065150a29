import PointsTo.Text.CodeRange

/-!
Blank characters and the functions that cut a text at them: `trim` takes the blanks off both ends
and `words` keeps the runs between blanks.
-/
namespace PointsTo.Text

/-- The blank characters: the ASCII blanks with the four separator controls, and the space
separators, line separator, paragraph separator and next-line of Unicode. -/
def blankRanges : List CodeRange :=
  [(0x9, 0xd), (0x1c, 0x20), (0x85, 0x85), (0xa0, 0xa0), (0x1680, 0x1680), (0x2000, 0x200a),
   (0x2028, 0x2029), (0x202f, 0x202f), (0x205f, 0x205f), (0x3000, 0x3000)]

/-- The character separates words. -/
def isBlank (c : Char) : Bool := inRanges blankRanges c.toNat

/-- Every blank that the core library knows is a blank here. -/
theorem isBlank_of_isWhitespace {c : Char} (h : c.isWhitespace = true) : isBlank c = true := by
  simp only [Char.isWhitespace, Bool.or_eq_true, decide_eq_true_eq] at h
  rcases h with ((rfl | rfl) | rfl) | rfl <;> decide

def trimLeft (s : List Char) : List Char := s.dropWhile isBlank

def trimRight (s : List Char) : List Char := (s.reverse.dropWhile isBlank).reverse

def trim (s : List Char) : List Char := trimRight (trimLeft s)

def extendFirst (c : Char) : List (List Char) → List (List Char)
  | [] => [[c]]
  | piece :: pieces => (c :: piece) :: pieces

/-- Cuts the text at every character of the class, which is dropped; there is one piece more than
there are such characters. -/
def splitWhere (cut : Char → Bool) : List Char → List (List Char)
  | [] => [[]]
  | c :: rest => if cut c then [] :: splitWhere cut rest else extendFirst c (splitWhere cut rest)

/-- The non-empty runs between blanks, in order. -/
def words (s : List Char) : List (List Char) :=
  (splitWhere isBlank s).filter fun w => !w.isEmpty

/-- The rest of the text behind a given beginning, if it begins so. -/
def after? : List Char → List Char → Option (List Char)
  | [], s => some s
  | _ :: _, [] => none
  | p :: ps, c :: s => if p = c then after? ps s else none

def startsWith (beginning s : List Char) : Bool := (after? beginning s).isSome

def endsWith (c : Char) (s : List Char) : Bool := s.getLast? == some c

/-- Cuts the text around the first occurrence of a mark: what stands before it and what follows. -/
def cut? (mark : List Char) : List Char → Option (List Char × List Char)
  | [] => if mark.isEmpty then some ([], []) else none
  | c :: s =>
    match after? mark (c :: s) with
    | some rest => some ([], rest)
    | none => (cut? mark s).map fun halves => (c :: halves.1, halves.2)

theorem after?_eq_some {beginning s rest : List Char} :
    after? beginning s = some rest ↔ s = beginning ++ rest := by
  induction beginning generalizing s with
  | nil => simp [after?, eq_comm]
  | cons p ps ih =>
    cases s with
    | nil => simp [after?]
    | cons c s =>
      by_cases h : p = c
      · simp [after?, h, ih]
      · simp [after?, h, Ne.symm h]

theorem startsWith_iff {beginning s : List Char} :
    startsWith beginning s = true ↔ ∃ rest, s = beginning ++ rest := by
  simp [startsWith, Option.isSome_iff_exists, after?_eq_some]

theorem splitWhere_ne_nil (cut : Char → Bool) (s : List Char) : splitWhere cut s ≠ [] := by
  cases s with
  | nil => simp [splitWhere]
  | cons c s =>
    rw [splitWhere]
    split
    · simp
    · cases splitWhere cut s <;> simp [extendFirst]

/-- No piece has a character at which the text is cut. -/
theorem not_cut_of_mem_splitWhere {cut : Char → Bool} {s piece : List Char}
    (h : piece ∈ splitWhere cut s) : ∀ c ∈ piece, cut c = false := by
  induction s generalizing piece with
  | nil => simp_all [splitWhere]
  | cons c s ih =>
    rw [splitWhere] at h
    split at h
    · rcases List.mem_cons.1 h with rfl | h
      · simp
      · exact ih h
    · next hc =>
      obtain ⟨first, pieces, heq⟩ := List.exists_cons_of_ne_nil (splitWhere_ne_nil cut s)
      rw [heq, extendFirst] at h
      rw [heq] at ih
      rcases List.mem_cons.1 h with rfl | h
      · intro d hd
        rcases List.mem_cons.1 hd with rfl | hd
        · simpa using hc
        · exact ih List.mem_cons_self d hd
      · exact ih (List.mem_cons_of_mem _ h)

theorem ne_nil_of_mem_words {s w : List Char} (h : w ∈ words s) : w ≠ [] := by
  rintro rfl
  simp [words] at h

theorem not_blank_of_mem_words {s w : List Char} (h : w ∈ words s) :
    ∀ c ∈ w, isBlank c = false :=
  not_cut_of_mem_splitWhere (List.mem_filter.1 h).1

theorem eq_append_of_cut? {mark s before rest : List Char}
    (h : cut? mark s = some (before, rest)) : s = before ++ mark ++ rest := by
  induction s generalizing before with
  | nil =>
    cases mark <;> simp_all [cut?]
  | cons c s ih =>
    simp only [cut?] at h
    split at h
    · next r hr =>
      obtain ⟨rfl, rfl⟩ := by simpa using h
      simpa using after?_eq_some.1 hr
    · obtain ⟨⟨a, b⟩, hab, heq⟩ := Option.map_eq_some_iff.1 h
      obtain ⟨rfl, rfl⟩ := by simpa using heq
      simp [ih hab]

end PointsTo.Text
