import StoryAtlas.Json.Basic
import StoryAtlas.Schema.Checked

/-!
# Checking lists, maps and models

A model is an object with declared fields. Its issues come in the order in which the fields are
declared, those of nested values in place, and after them one for each undeclared key in the order
of the document, if undeclared keys are forbidden.
-/

namespace StoryAtlas.Schema

open Checked

variable {α : Type}

/-- Checks the items of a list, the first of which has the given index. -/
def itemsFrom (check : Json → Checked α) : Nat → List Json → Checked (List α)
  | _, [] => valid []
  | index, item :: items =>
    (List.cons <$> (check item).under (.item index)) <*> itemsFrom check (index + 1) items

def list (check : Json → Checked α) : Json → Checked (List α)
  | .arr items => itemsFrom check 0 items
  | _ => fail .listType

def entries (check : Json → Checked α) : List (String × Json) → Checked (List (String × α))
  | [] => valid []
  | (key, value) :: fields =>
    (List.cons <$> ((fun checked => (key, checked)) <$> (check value).under (.field key))) <*>
      entries check fields

def dictionary (check : Json → Checked α) : Json → Checked (List (String × α))
  | .obj fields => entries check fields
  | _ => fail .dictType

/-- The absent value where a field allows it. -/
def nullable (check : Json → Checked α) : Json → Checked (Option α)
  | .null => valid none
  | value => some <$> check value

abbrev Fields := List (String × Json)

def requiredField (fields : Fields) (name : String) (check : Json → Checked α) : Checked α :=
  match Register.get? name fields with
  | some value => (check value).under (.field name)
  | none => (fail .missing).under (.field name)

def optionalField (fields : Fields) (name : String) (standard : α) (check : Json → Checked α) :
    Checked α :=
  match Register.get? name fields with
  | some value => (check value).under (.field name)
  | none => valid standard

/-- An issue for each undeclared key. -/
def nothingElse (declared : List String) (fields : Fields) : Checked Unit :=
  match fields.filter fun field => !declared.contains field.1 with
  | [] => valid ()
  | extra => invalid (extra.map fun field => ⟨[.field field.1], .extraForbidden⟩)

def object (read : Fields → Checked α) : Json → Checked α
  | .obj fields => read fields
  | _ => fail .modelType

end StoryAtlas.Schema
