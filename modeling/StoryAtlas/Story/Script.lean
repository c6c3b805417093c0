import StoryAtlas.Json.Display

/-!
# Scripted stories

A scripted story is a table of passages. A passage has lines to be read one by one and then choices
that lead to other passages. A choice may be open only once, a line may fail to be read, and a
passage may have no choices to tell of.
-/

namespace StoryAtlas

structure ScriptChoice where
  label : String
  target : String
  once : Bool := false
deriving DecidableEq, Repr

structure Passage where
  /-- A missing line is read and says nothing. -/
  lines : List (Option String) := []
  choices : List ScriptChoice := []
  /-- The location that the passage gives instead of its name. -/
  location : Option String := none
  /-- Whether asking for the choices fails. -/
  broken : Bool := false
deriving DecidableEq, Repr

structure Script where
  passages : Register String Passage
  start : String := "start"
deriving DecidableEq, Repr

namespace Script

def readLine : Json → Option String
  | .null => none
  | value => some value.display

def readLabel (value : Json) : String := if value.isVoid then "" else value.display

def readChoice : Json → Option ScriptChoice
  | .arr (label :: target :: rest) =>
    some ⟨readLabel label, target.display, (rest.head?.map fun once => !once.isVoid).getD false⟩
  | _ => none

def readChoices : Json → Option (List ScriptChoice)
  | .null => some []
  | .arr items => items.mapM readChoice
  | _ => none

def readLines : Json → Option (List (Option String))
  | .arr items => some (items.map readLine)
  | _ => none

def readPassage : Json → Option Passage
  | .obj fields => do
    let lines ← ((Register.get? "lines" fields).map readLines).getD (some [])
    let choices ← ((Register.get? "choices" fields).map readChoices).getD (some [])
    return {
      lines := lines
      choices := choices
      location := (Register.get? "path" fields).map readLabel
      broken := ((Register.get? "broken" fields).map fun flag => !flag.isVoid).getD false }
  | _ => none

/-- Reads a story out of a document that has a script; entries that are no passages are left out. -/
def ofJson (document : Json) : Option Script := do
  match ← document.get? "script" with
  | .obj fields =>
    return {
      passages := fields.filterMap fun (name, value) =>
        (readPassage value).map fun passage => (name, passage)
      start := ((document.get? "start").map Json.display).getD "start" }
  | _ => none

end Script

end StoryAtlas
