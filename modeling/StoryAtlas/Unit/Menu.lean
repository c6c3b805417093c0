import StoryAtlas.Text.Trim

/-!
# Dialogue menus

Some units lead the player through a menu of questions: a hub text that comes back with the same
choices until an exit is taken. A unit's menu names a pattern of the hub text and the patterns of
its exits. With a threshold, a later node is folded back onto the hub if it offers that percentage
of the hub's choices again; without one, every choice of the hub that is no exit leads straight
back.
-/

namespace StoryAtlas

structure Menu where
  hubPattern : String
  exitPatterns : List String := []
  threshold : Option Float := none
  /-- Whether a node that offers nothing but exits counts as the hub again. -/
  passOnlyExits : Bool := false

namespace Menu

open Text

def usesThreshold (menu : Menu) : Bool := menu.threshold.isSome

def isHubText (menu : Menu) (text : String) : Bool :=
  !text.isEmpty && mentions text menu.hubPattern

def isExit (menu : Menu) (text : String) : Bool :=
  !text.isEmpty && menu.exitPatterns.any (mentions text)

end Menu

/-- Texts at which repeated menus are not taken for the same place. -/
structure Convergence where
  skipPatterns : List String := []
deriving DecidableEq, Repr

namespace Convergence

open Text

def skips (convergence : Convergence) (text : String) : Bool :=
  !text.isEmpty && convergence.skipPatterns.any (mentions text)

end Convergence

end StoryAtlas
