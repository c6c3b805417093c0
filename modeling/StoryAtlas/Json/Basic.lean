import StoryAtlas.Register

/-!
# Documents

A document is a value of the usual interchange notation, with two points that later results show.
Whole numbers are kept apart from fractions and are unbounded, and an object is a list of fields in
the order in which they were first named.
-/

namespace StoryAtlas

inductive Json where
  | null
  | bool (value : Bool)
  | int (value : Int)
  | float (value : Float)
  | str (text : String)
  | arr (items : List Json)
  | obj (fields : List (String × Json))
deriving Inhabited

namespace Json

/-- The value stored under a key, if this is an object that has it. -/
def get? (key : String) : Json → Option Json
  | obj fields => Register.get? key fields
  | _ => none

/-- Absent information: null, false, zero and everything empty. -/
def isVoid : Json → Bool
  | null => true
  | bool value => !value
  | int value => value == 0
  | float value => value == 0.0
  | str text => text.isEmpty
  | arr items => items.isEmpty
  | obj fields => fields.isEmpty

/-- The name by which a message calls the type of a value. -/
def kindName : Json → String
  | null => "NoneType"
  | bool _ => "bool"
  | int _ => "int"
  | float _ => "float"
  | str _ => "str"
  | arr _ => "list"
  | obj _ => "dict"

def ofStrings (texts : List String) : Json := arr (texts.map str)

def ofInts (numbers : List Int) : Json := arr (numbers.map int)

def ofOption {α : Type} (write : α → Json) : Option α → Json
  | none => null
  | some value => write value

end Json

end StoryAtlas
