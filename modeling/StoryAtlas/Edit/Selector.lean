import StoryAtlas.Event.Beat
import StoryAtlas.Schema.Model
import StoryAtlas.Schema.Scalar
import StoryAtlas.Text.Quoted
import StoryAtlas.Text.Trim

/-!
# Selecting nodes

An alteration names the nodes that it changes by what they say. A beginning of a text wins over
everything else; a part of a text or label may be narrowed down by an effect and a requirement; and
an effect, or else a requirement, may also select alone.
-/

namespace StoryAtlas

structure Selector where
  opening : Option String := none
  textOrLabel : Option String := none
  effect : Option String := none
  requirement : Option String := none
deriving DecidableEq, Repr

namespace Beat

open Text

def opensWith (opening : String) (beat : Beat) : Bool :=
  startsWith (((present beat.text).orElse fun _ => present beat.label).getD "") opening

def tells (part : String) (beat : Beat) : Bool :=
  ((present beat.text).any fun text => mentions text part) ||
    ((present beat.label).any fun label => mentions label part)

def hasEffect (part : String) (beat : Beat) : Bool := beat.effects.any fun e => mentions e part

def demands (part : String) (beat : Beat) : Bool :=
  beat.requirements.any fun requirement => mentions requirement part

end Beat

namespace Selector

/-- The test for a criterion that may be missing. -/
def wanted (criterion : Option String) (test : String → Bool) : Bool :=
  match criterion with
  | some part => test part
  | none => true

def selects (selector : Selector) (beat : Beat) : Bool :=
  match selector.opening, selector.textOrLabel, selector.effect with
  | some opening, _, _ => beat.opensWith opening
  | none, some part, effect =>
    beat.tells part && wanted effect beat.hasEffect && wanted selector.requirement beat.demands
  | none, none, some effect => beat.hasEffect effect
  | none, none, none => beat.demands (selector.requirement.getD "")

/-- The ids of the selected nodes in walk order. -/
def find (selector : Selector) (root : Node) : List Int :=
  (root.walk.filter fun node => selector.selects node.value).map Node.id

def clause (name : String) (value : Option String) : List String :=
  (value.map fun text => name ++ "=" ++ Text.quoted text).toList

def describe (selector : Selector) : String :=
  Text.join " + " (clause "textStartsWith" selector.opening ++
    clause "textOrLabel" selector.textOrLabel ++ clause "effect" selector.effect ++
    clause "requirement" selector.requirement)

def isVacant (selector : Selector) : Bool :=
  selector.opening.isNone && selector.textOrLabel.isNone && selector.effect.isNone &&
    selector.requirement.isNone

open Schema in
def check : Json → Checked Selector := object fun fields =>
  (Selector.mk <$> optionalField fields "textStartsWith" none (nullable nonemptyText) <*>
    optionalField fields "textOrLabel" none (nullable nonemptyText) <*>
    optionalField fields "effect" none (nullable nonemptyText) <*>
    optionalField fields "requirement" none (nullable nonemptyText) <*
    nothingElse ["textStartsWith", "textOrLabel", "effect", "requirement"] fields).andAlso
      fun selector =>
        if selector.isVacant then
          some "find needs textStartsWith, textOrLabel, effect or requirement"
        else none

def toJson (selector : Selector) : Json :=
  let clause (name : String) (value : Option String) : List (String × Json) :=
    (value.map fun text => (name, Json.str text)).toList
  .obj (clause "textStartsWith" selector.opening ++ clause "textOrLabel" selector.textOrLabel ++
    clause "effect" selector.effect ++ clause "requirement" selector.requirement)

end Selector

/-- The first node that says or opens with a text, is no reference and is not excluded. -/
def findUnreferenced {α : Type} (beatOf : α → Beat) (pattern : String) (atStart : Bool)
    (excluded : List Int) (root : Rose α) : Option (Rose α) :=
  root.walk.find? fun node =>
    let beat := beatOf node.value
    beat.ref.isNone && !excluded.contains beat.id &&
      if atStart then beat.opensWith pattern else beat.tells pattern

end StoryAtlas
