import PointsTo.Text.Blank

/-!
Lines of a text. A line ends at a line feed, at a carriage return (together with a line feed that
follows it), and at the other line and page separators.
-/
namespace PointsTo.Text

def isLineEnd (c : Char) : Bool :=
  (0xa ≤ c.toNat && c.toNat ≤ 0xd) || (0x1c ≤ c.toNat && c.toNat ≤ 0x1e) ||
    c.toNat == 0x85 || c.toNat == 0x2028 || c.toNat == 0x2029

/-- The lines of a text without their ends; an end of line at the end of the text opens no further
line. -/
def splitLines : List Char → List (List Char)
  | [] => []
  | '\r' :: '\n' :: rest => [] :: splitLines rest
  | c :: rest => if isLineEnd c then [] :: splitLines rest else extendFirst c (splitLines rest)

/-- One character in front of a text, unless it is a carriage return in front of a line feed. -/
theorem splitLines_cons {c : Char} {s : List Char} (h : ¬(c = '\r' ∧ s.head? = some '\n')) :
    splitLines (c :: s) =
      if isLineEnd c then [] :: splitLines s else extendFirst c (splitLines s) := by
  refine splitLines.eq_3 c s fun rest hc hs => h ⟨hc, ?_⟩
  rw [hs]
  rfl

/-- No line has a character that ends lines. -/
theorem not_lineEnd_of_mem_splitLines {s line : List Char} (h : line ∈ splitLines s) :
    ∀ c ∈ line, isLineEnd c = false := by
  fun_induction splitLines s generalizing line with
  | case1 => simp at h
  | case2 rest ih =>
    rcases List.mem_cons.1 h with rfl | h
    · simp
    · exact ih h
  | case3 c rest _ hc ih =>
    rcases List.mem_cons.1 h with rfl | h
    · simp
    · exact ih h
  | case4 c rest _ hc ih =>
    cases hs : splitLines rest with
    | nil =>
      rw [hs, extendFirst, List.mem_singleton] at h
      subst h
      simpa using hc
    | cons first lines =>
      rw [hs, extendFirst] at h
      rw [hs] at ih
      rcases List.mem_cons.1 h with rfl | h
      · intro d hd
        rcases List.mem_cons.1 hd with rfl | hd
        · simpa using hc
        · exact ih List.mem_cons_self d hd
      · exact ih (List.mem_cons_of_mem _ h)

/-- Carriage returns, alone or before a line feed, as line feeds. -/
def plainNewlines : List Char → List Char
  | [] => []
  | '\r' :: '\n' :: rest => '\n' :: plainNewlines rest
  | c :: rest => (if c = '\r' then '\n' else c) :: plainNewlines rest

theorem plainNewlines_no_return (s : List Char) : '\r' ∉ plainNewlines s := by
  fun_induction plainNewlines s with
  | case1 => simp
  | case2 rest ih => simp [ih]
  | case3 c rest _ ih => by_cases h : c = '\r' <;> simp_all [eq_comm]

end PointsTo.Text
