import StoryAtlas.Register
import StoryAtlas.Schema.Model
import StoryAtlas.Schema.Scalar
import StoryAtlas.Unit.Menu

/-!
# Tuning by unit

Menus and skip patterns are given by unit. The checks see to it that a menu has a hub pattern and
that its threshold, if it has one, is positive; empty exit patterns are dropped, since they would
match everything.
-/

namespace StoryAtlas

structure Tuning where
  menus : Register String Menu := []
  convergence : Register String Convergence := []

open Schema Schema.Checked

namespace Menu

def fieldNames : List String :=
  ["menuHubPattern", "menuExitPatterns", "hubChoiceMatchThreshold",
    "passWhenOnlyExitPatternsAvailable"]

def hopeless (menu : Menu) : Bool :=
  match menu.threshold with
  | some threshold => threshold ≤ 0.0
  | none => false

def check : Json → Checked Menu := object fun fields =>
  ((Menu.mk <$> requiredField fields "menuHubPattern" nonemptyText <*>
    optionalField fields "menuExitPatterns" [] (list plainText) <*>
    optionalField fields "hubChoiceMatchThreshold" none (nullable fraction) <*>
    optionalField fields "passWhenOnlyExitPatternsAvailable" false bool <*
    nothingElse fieldNames fields).andAlso fun menu =>
      if menu.hopeless then
        some "hubChoiceMatchThreshold must be positive; omit it for immediate mode"
      else none).map fun menu =>
        { menu with exitPatterns := menu.exitPatterns.filter fun pattern => !pattern.isEmpty }

end Menu

namespace Convergence

def check : Json → Checked Convergence := object fun fields =>
  Convergence.mk <$> optionalField fields "skipPatterns" [] (list plainText) <*
    nothingElse ["skipPatterns"] fields

end Convergence

namespace Tuning

def check : Json → Checked Tuning := object fun fields =>
  Tuning.mk <$> optionalField fields "dialogue_menus" [] (dictionary Menu.check) <*>
    optionalField fields "path_convergence" [] (dictionary Convergence.check) <*
    nothingElse ["dialogue_menus", "path_convergence"] fields

def menuOf (tuning : Tuning) (unit : String) : Option Menu := Register.get? unit tuning.menus

def convergenceOf (tuning : Tuning) (unit : String) : Option Convergence :=
  Register.get? unit tuning.convergence

end Tuning

end StoryAtlas
