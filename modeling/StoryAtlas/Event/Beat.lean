import StoryAtlas.Rose.Basic

/-!
# Event trees

An event tree tells what can happen to a player in one event. Each node is a beat: what is said, by
which choice it was reached, what it demands and what it does. A beat may refer to another by id
instead of repeating what follows there, and it may borrow the children of another by listing their
ids.
-/

namespace StoryAtlas

inductive Kind where
  | dialogue
  | choice
  | combat
  | ending
  | special
  | result
deriving DecidableEq, Repr, Inhabited

namespace Kind

def name : Kind → String
  | dialogue => "dialogue"
  | choice => "choice"
  | combat => "combat"
  | ending => "end"
  | special => "special"
  | result => "result"

def all : List Kind := [dialogue, choice, combat, ending, special, result]

def ofName? (text : String) : Option Kind := all.find? fun kind => kind.name == text

theorem ofName?_name (kind : Kind) : ofName? kind.name = some kind := by
  cases kind <;> decide

end Kind

/-- One node of an event tree, apart from its children. -/
structure Beat where
  id : Int
  kind : Kind
  text : Option String := none
  /-- The label of the choice that leads here. -/
  label : Option String := none
  requirements : List String := []
  effects : List String := []
  /-- How often the player presses on before the text is complete. -/
  continues : Option Int := none
  ref : Option Int := none
  refChildren : Option (List Int) := none
deriving DecidableEq, Repr, Inhabited

abbrev Node := Rose Beat

namespace Beat

/-- The label of the fallback that the story takes when no other choice is open. -/
def defaultLabel : String := "default"

def defaultRequirement : String := "All other paths are unreachable!"

/-- The conventions for a new beat: an unconditional fallback is marked unreachable, and only
dialogue counts its continues. -/
def settle (beat : Beat) : Beat :=
  { beat with
    requirements :=
      if beat.requirements.isEmpty && beat.label == some defaultLabel then [defaultRequirement]
      else beat.requirements
    continues := if beat.kind = .dialogue then beat.continues else none }

end Beat

namespace Node

def id (node : Node) : Int := node.value.id

def ids (node : Node) : List Int := node.walk.map Node.id

/-- The largest id and the next, which is free. -/
def freshId (node : Node) : Int := node.ids.foldl max node.id + 1

end Node

/-- A text that is there and not empty. -/
def present (text : Option String) : Option String :=
  match text with
  | some text => if text.isEmpty then none else some text
  | none => none

end StoryAtlas
