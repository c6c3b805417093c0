import StoryAtlas.Failure
import StoryAtlas.Story.Script
import StoryAtlas.Text.Trim

/-!
# Story engines

An engine opens the text of a unit as a story that can be played; a text that it cannot open is
none. Engines are named by a path of a module and a name in it. Modules may be nested, with dots
between their names, but the modules known here hold engines and no modules.
-/

namespace StoryAtlas

/-- Opens the text of a unit. -/
abbrev Engine := String → Option Script

namespace Engine

/-- Plays scripted stories. -/
def scripted : Engine := fun text =>
  match Json.parse text with
  | .ok document => Script.ofJson document
  | .error _ => none

/-- Engines by the name of their module and by their own. -/
abbrev Shelf := Register String (Register String Engine)

def shelf : Shelf := [("vm", [("factory", scripted)])]

/-- The modules that have to be found before a nested one: each name up to a dot, and all of it. -/
def enclosing (name : List Char) : List String :=
  let parts := Text.splitAtChar '.' name
  (List.range parts.length).map fun count =>
    String.ofList (Text.joinWith ['.'] (parts.take (count + 1)))

/-- What is missing if a nested module is asked for. -/
def missing (shelf : Shelf) (name : List Char) : String :=
  match (enclosing name).dropWhile fun outer => Register.holds outer shelf with
  | [] => "No module named " ++ Text.quoted (String.ofList name)
  | outer :: _ =>
    let inKnown := (enclosing name).takeWhile fun known => Register.holds known shelf
    "No module named " ++ Text.quoted outer ++
      ((inKnown.getLast?.map fun known => "; " ++ Text.quoted known ++ " is not a package").getD "")

/-- Finds the engine that a path names. -/
def load (shelf : Shelf) (path : String) : Except Halt Engine :=
  let refuse {α : Type} (detail : String) : Except Halt α := .error (.told (.engine path) detail)
  match Text.breakOn [':'] path.toList with
  | none => refuse "expected 'module:callable'"
  | some (before, after) =>
    let moduleName := Text.trim before
    let name := String.ofList (Text.trim after)
    if moduleName.isEmpty || name.isEmpty then refuse "expected 'module:callable'"
    else if moduleName.head? = some '.' then
      .error (.fault (.relativePath (String.ofList moduleName)))
    else
      match Register.get? (String.ofList moduleName) shelf with
      | none => refuse (missing shelf moduleName)
      | some engines =>
        match Register.get? name engines with
        | some engine => .ok engine
        | none => refuse (Text.quoted (String.ofList after) ++ " is not callable")

end Engine

end StoryAtlas
