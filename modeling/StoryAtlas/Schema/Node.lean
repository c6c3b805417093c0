import StoryAtlas.Event.Beat
import StoryAtlas.Schema.Scalar

/-!
# Checking node types
-/

namespace StoryAtlas.Schema

open Checked

/-- One of the names of node types. -/
def nodeKind : Json → Checked Kind
  | .str name =>
    match Kind.ofName? name with
    | some found => valid found
    | none => fail .enumeration
  | _ => fail .enumeration

end StoryAtlas.Schema
