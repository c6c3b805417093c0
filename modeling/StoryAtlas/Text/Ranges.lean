/-!
# Code points by ranges

The character classes of Unicode that the library needs are written as increasing lists of closed
ranges of code points. A character belongs to a class when its code point lies in one of them; the
tables themselves sit beside the classes they describe.
-/

namespace StoryAtlas.Text

/-- A closed range of code points, first and last. -/
abbrev CodeRange := Nat × Nat

def CodeRange.holds (range : CodeRange) (code : Nat) : Bool :=
  range.1 ≤ code && code ≤ range.2

def inRanges (ranges : List CodeRange) (code : Nat) : Bool :=
  ranges.any (·.holds code)

theorem inRanges_iff {ranges : List CodeRange} {code : Nat} :
    inRanges ranges code = true ↔ ∃ range ∈ ranges, range.1 ≤ code ∧ code ≤ range.2 := by
  simp [inRanges, CodeRange.holds]

end StoryAtlas.Text
