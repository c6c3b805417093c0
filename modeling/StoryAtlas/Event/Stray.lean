import StoryAtlas.Event.Beat
import StoryAtlas.Fault

/-!
# Stray values

Four fields of a written node may hold any value: its text, its label, its count of continues and
its reference. A value that is not of the field's own kind is stray. A number in another form counts
as the whole number it equals, and anything else counts as nothing. The value itself is kept apart,
under the id of the node, and it is written again as it came for as long as the node has what the
value counts as.
-/

namespace StoryAtlas

namespace Json

def text? : Json → Option String
  | str text => some text
  | _ => none

/-- The whole number that a value equals; a truth value equals zero or one. -/
def whole? : Json → Option Int
  | int number => some number
  | bool value => some (if value then 1 else 0)
  | float value =>
    match Decimal.read value with
    | .finite parts => if parts.isWhole then some parts.truncate else none
    | _ => none
  | _ => none

end Json

/-- The fields that any value may be found in. -/
inductive Slot where
  | text
  | label
  | continues
  | ref
deriving DecidableEq, Repr

namespace Slot

def all : List Slot := [text, label, continues, ref]

def key : Slot → String
  | text => "text"
  | label => "choiceLabel"
  | continues => "numContinues"
  | ref => "ref"

/-- The value is absent or of the slot's own kind. -/
def fits : Slot → Json → Bool
  | _, .null => true
  | text, .str _ | label, .str _ => true
  | continues, .int _ | ref, .int _ => true
  | _, _ => false

/-- What a beat has in a slot. -/
def held (beat : Beat) : Slot → Option Json
  | text => beat.text.map .str
  | label => beat.label.map .str
  | continues => beat.continues.map .int
  | ref => beat.ref.map .int

/-- The beat has in a slot what the value counts as. -/
def agrees (beat : Beat) (value : Json) : Slot → Bool
  | text => beat.text == value.text?
  | label => beat.label == value.text?
  | continues => beat.continues == value.whole?
  | ref => beat.ref == value.whole?

end Slot

/-- A stray value and where it was found. -/
structure Stray where
  id : Int
  slot : Slot
  value : Json

abbrev Strays := List Stray

namespace Strays

/-- What is written into a slot: the stray value found there, or else what the beat has. -/
def written (strays : Strays) (beat : Beat) (slot : Slot) : Option Json :=
  match strays.find? fun stray =>
    stray.id == beat.id && stray.slot == slot && slot.agrees beat stray.value with
  | some stray => some stray.value
  | none => slot.held beat

theorem written_nil (beat : Beat) (slot : Slot) : written [] beat slot = slot.held beat := rfl

def ofFields (id : Int) (fields : List (String × Json)) : Strays :=
  Slot.all.filterMap fun slot =>
    match Register.get? slot.key fields with
    | some value => if slot.fits value then none else some ⟨id, slot, value⟩
    | none => none

/-- The stray values of one node; one without an id has none. -/
def ofNode (fields : List (String × Json)) : Strays :=
  match (Register.get? "id" fields).map Json.toWhole with
  | some (.ok id) => ofFields id fields
  | _ => []

mutual

/-- The stray values of a written tree. -/
def ofPayload : Json → Strays
  | .obj fields => ofNode fields ++ ofChildren fields
  | _ => []

def ofChildren : List (String × Json) → Strays
  | [] => []
  | (key, value) :: fields =>
    if key = "children" then
      match value with
      | .arr items => ofPayloads items
      | _ => []
    else ofChildren fields

def ofPayloads : List Json → Strays
  | [] => []
  | item :: items => ofPayload item ++ ofPayloads items

end

end Strays

end StoryAtlas
