import StoryAtlas.Chance.Range
import StoryAtlas.Command.Effect
import StoryAtlas.Fault
import StoryAtlas.Journal

/-!
# What the compiled story tells

A story is compiled to nested lists. Three things are read off them without playing the story: which
variables are set to a roll between two bounds, what the functions may return and where their
results are stored, and the named passages that a command may branch into. Each is a fixed run of
consecutive items in some list.
-/

namespace StoryAtlas

structure Bytecode where
  rolls : RollTable := []
  lexicon : Lexicon := {}
  /-- The named passages, as compiled. -/
  knots : Register String Json := []

namespace Bytecode

mutual

/-- All lists in a document, each before those inside it. -/
def listsIn : Json → List (List Json)
  | .arr items => items :: listsInItems items
  | .obj fields => listsInFields fields
  | .null => []
  | .bool _ => []
  | .int _ => []
  | .float _ => []
  | .str _ => []

def listsInItems : List Json → List (List Json)
  | [] => []
  | item :: items => listsIn item ++ listsInItems items

def listsInFields : List (String × Json) → List (List Json)
  | [] => []
  | (_, value) :: fields => listsIn value ++ listsInFields fields

end

/-- The list and what remains of it after one, two, … items. -/
def tails {α : Type} : List α → List (List α)
  | [] => [[]]
  | item :: items => (item :: items) :: tails items

/-- Whatever stands at the front of some list, or of what remains of it. -/
def occurrences {α : Type} (read : List Json → Option α) (document : Json) : List α :=
  ((listsIn document).flatMap tails).filterMap read

def isNumber : Json → Bool
  | .int _ => true
  | .float _ => true
  | _ => false

/-- A variable set to a roll: the name and the two bounds. -/
def readRoll : List Json → Option (Json × Json × Json)
  | .str "ev" :: least :: most :: .str "rnd" :: .str "/ev" :: .obj fields :: _ =>
    if isNumber least && isNumber most then
      (Register.get? "VAR=" fields).map fun name => (name, least, most)
    else none
  | _ => none

def addRange (table : RollTable) (name : String) (range : RollRange) : RollTable :=
  let known := table.ranges name
  Register.put name (if known.contains range then known else known ++ [range]) table

def addRoll (table : RollTable) (found : Json × Json × Json) : Except Fault RollTable := do
  let least ← found.2.1.toWhole
  let most ← found.2.2.toWhole
  return addRange table found.1.display ⟨least, most⟩

def rollsOf (document : Json) : Except Fault RollTable :=
  (occurrences readRoll document).foldlM addRoll []

/-- A text that a function returns. -/
def readReturn : List Json → Option String
  | .str "ev" :: .str "str" :: .str text :: .str "/str" :: .str "/ev" :: .str "~ret" :: _ =>
    match text.toList with
    | '^' :: c :: cs => some (String.ofList (c :: cs))
    | _ => none
  | _ => none

/-- The index of the named content in the root list. -/
def namedContentIndex : Nat := 2

/-- The named passages and functions of a story, without its own bookkeeping. -/
def namedContent (document : Json) : Register String Json :=
  match document.get? "root" with
  | some (.arr items) =>
    match items[namedContentIndex]? with
    | some (.obj fields) =>
      fields.filter fun field => !Text.startsWith field.1 "#" && field.1 != "global decl"
    | _ => []
  | _ => []

/-- A variable that stores the result of a function: the variable and the function. -/
def readCall : List Json → Option (String × String)
  | .str "ev" :: .obj call :: .str "/ev" :: .obj store :: _ => do
    let function ← Register.get? "f()" call
    let name ← Register.get? "VAR=" store
    return (name.display, function.display)
  | _ => none

def callsOf (document : Json) : Register String String :=
  match document.get? "root" with
  | some (.arr (flow :: _)) => Register.ofList (occurrences readCall flow)
  | _ => []

def analyse (document : Json) : Except Fault Bytecode := do
  let rolls ← rollsOf document
  let knots := namedContent document
  return {
    rolls := rolls
    lexicon :=
      { definitions := knots.map fun (name, body) =>
          (name, (occurrences readReturn body).eraseDups)
        calls := callsOf document }
    knots := knots }

def showRolls (entry : String × List RollRange) : String :=
  entry.1 ++ "(" ++ Text.join "/" (entry.2.map fun range =>
    toString range.least ++ "-" ++ toString range.most) ++ ")"

/-- What the analysis found, for those who follow the run closely. -/
def report (unit : String) (found : Bytecode) : Journal :=
  (if found.rolls.isEmpty then []
    else Journal.debug ("unit=" ++ unit ++ " random variables: " ++
      Text.join ", " (found.rolls.map showRolls))) ++
  (if found.lexicon.calls.isEmpty then []
    else Journal.debug ("unit=" ++ unit ++ " function calls: " ++
      Text.join ", " (found.lexicon.calls.map fun (name, function) =>
        name ++ "=" ++ function ++ "()")))

/-- The text of a knot: its strings in a row, each command on a line of its own. -/
def knotText : Json → Option String
  | .arr items => some (String.ofList (items.flatMap fun
      | .str text =>
        let cs := match text.toList with
          | '^' :: rest => rest
          | rest => rest
        match cs with
        | '>' :: '>' :: '>' :: _ => '\n' :: cs
        | _ => cs
      | _ => []))
  | _ => none

end Bytecode

end StoryAtlas
