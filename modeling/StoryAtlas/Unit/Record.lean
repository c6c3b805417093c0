import StoryAtlas.Event.Beat
import StoryAtlas.Failure
import StoryAtlas.Schema.Model
import StoryAtlas.Schema.Scalar

/-!
# Units

A unit is one event as it comes: a name, the compiled story as text, and what is handed on unread.
The caption, if there is one, is the name that players see and that all later stages go by.
-/

namespace StoryAtlas

structure UnitRecord where
  name : String
  kind : Json := .null
  artwork : Json := .null
  text : Option String := none
  caption : Option String := none

namespace UnitRecord

open Schema Schema.Checked

def displayName (unit : UnitRecord) : String := (present unit.caption).getD unit.name

def check : Json → Checked UnitRecord := object fun fields =>
  UnitRecord.mk <$> requiredField fields "name" plainText <*>
    optionalField fields "type" .null valid <*>
    optionalField fields "artwork" .null valid <*>
    optionalField fields "text" none (nullable plainText) <*>
    optionalField fields "caption" none (nullable plainText)

/-- What is said of the first issue of a record. -/
def complaint : List Issue → String
  | ⟨_, .missing⟩ :: _ => "Field required"
  | _ => "Input should be a valid string"

def parseOne (source : String) (position : Nat) (item : Json) : Except Halt UnitRecord :=
  let entry := "entry " ++ toString position
  match item with
  | .obj _ =>
    match check item with
    | .valid unit => .ok unit
    | .invalid issues => .error (.told (.input source) (entry ++ ": " ++ complaint issues))
  | _ => .error (.told (.input source) (entry ++ " is not an object"))

def parseFrom (source : String) : Nat → List Json → Except Halt (List UnitRecord)
  | _, [] => .ok []
  | position, item :: items => do
    let unit ← parseOne source position item
    let units ← parseFrom source (position + 1) items
    return unit :: units

/-- Reads the records of a list; the first that cannot be read is the one reported. -/
def parse (source : String) : Json → Except Halt (List UnitRecord)
  | .arr items => parseFrom source 0 items
  | _ => .error (.told (.input source) "expected a JSON list of units")

end UnitRecord

end StoryAtlas
