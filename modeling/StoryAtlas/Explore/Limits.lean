/-!
# Limits of an exploration

A story may be endless, so an exploration is limited in depth and in the number of nodes. Shallow
levels and deep levels have budgets of their own; the count starts anew when the deep levels are
first reached.
-/

namespace StoryAtlas

structure Limits where
  maxDepth : Int := 100
  /-- The depth at which the deep levels begin. -/
  siblingFirstDepth : Int := 8
  siblingFirstBudget : Int := 1000000
  depthFirstBudget : Int := 500000
  /-- Whether a text repeated on the way down is taken for a loop. -/
  detectTextLoops : Bool := true
  /-- Whether a place reached again in the same way is taken for the same place. -/
  detectRepeatedStates : Bool := true
  splitDialogue : Bool := true
  /-- The number of choices from which on equal menus are taken for the same place. -/
  convergenceChoices : Int := 3
deriving DecidableEq, Repr

namespace Limits

def isShallow (limits : Limits) (depth : Int) : Bool := depth < limits.siblingFirstDepth

def budget (limits : Limits) (depth : Int) : Int :=
  if limits.isShallow depth then limits.siblingFirstBudget else limits.depthFirstBudget

/-- The name of the phase that a depth belongs to. -/
def phase (limits : Limits) (depth : Int) : String :=
  if limits.isShallow depth then "sibling-first" else "depth-first"

end Limits

end StoryAtlas
