import StoryAtlas.Event.Beat

/-!
# Dropping fallbacks

The fallback that a story takes when no other choice is open carries the default label, or has it
for a text. In units where it is never taken, the nodes that carry it are dropped with everything
below them.
-/

namespace StoryAtlas.Split

def isFallback (beat : Beat) : Bool :=
  beat.label == some Beat.defaultLabel || beat.text == some Beat.defaultLabel

mutual

/-- The number of fallbacks below a node that are not below another fallback. -/
def countFallbacks : Node → Nat
  | .node _ children => countFallbacksIn children

def countFallbacksIn : List Node → Nat
  | [] => 0
  | node :: nodes =>
    (if isFallback node.value then 1 else countFallbacks node) + countFallbacksIn nodes

end

/-- Drops the fallbacks below the root. -/
def dropFallbacks (root : Node) : Node × Nat := (root.prune isFallback, countFallbacks root)

end StoryAtlas.Split
