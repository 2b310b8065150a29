/-!
Sets of characters given as closed ranges of code points. The tables of the Unicode properties
are written in this form.
-/
namespace PointsTo.Text

/-- A closed range of code points, first and last. -/
abbrev CodeRange := Nat × Nat

def inRanges (ranges : List CodeRange) (code : Nat) : Bool :=
  ranges.any fun range => range.1 ≤ code && code ≤ range.2

theorem inRanges_iff {ranges : List CodeRange} {code : Nat} :
    inRanges ranges code = true ↔ ∃ range ∈ ranges, range.1 ≤ code ∧ code ≤ range.2 := by
  simp [inRanges]

end PointsTo.Text
