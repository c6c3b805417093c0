import StoryAtlas.Event.Beat
import StoryAtlas.Explore.Ledger

/-!
# Branching into knots

One command lets the story branch into any of its named passages without a choice. Its node becomes
special and has one result per passage, with what the passage says below it.
-/

namespace StoryAtlas.Explore

def branchingCommands : List String := ["COLLECTOR"]

def capitals (text : String) : String := String.ofList (Text.raised text.toList)

/-- The branching command among some effects. -/
def branchingCommand (effects : List String) : Option String :=
  effects.findSome? fun effect => branchingCommands.find? (· == capitals effect)

def endBeat (id : Int) (content : Extract) (effects : List String) : Beat :=
  Beat.settle { id := id, kind := .ending, text := some content.text, effects := effects }

def resultBeat (id : Int) (command knot : String) : Beat :=
  Beat.settle { id := id, kind := .result, requirements := [command ++ ": " ++ knot] }

/-- The result for one knot. A knot without a text has none. -/
def branch (setting : Setting) (command : String) (knot : String × Json) (ledger : Ledger) :
    Except Fault (Option Node) × Ledger :=
  match Bytecode.knotText knot.2 with
  | none => (.ok none, ledger)
  | some text =>
    let content := Extract.ofText {} text
    let (outcomeId, ledger) := ledger.takeId
    match Roll.maskEffects setting.bytecode.rolls content.effects with
    | .error fault => (.error fault, ledger)
    | .ok effects =>
      let (resultId, ledger) := ledger.takeId
      (.ok (some (.node (resultBeat resultId command knot.1)
        [.node (endBeat outcomeId content effects) []])), ledger)

def branches (setting : Setting) (command : String) :
    List (String × Json) → Ledger → Except Fault (List Node) × Ledger
  | [], ledger => (.ok [], ledger)
  | knot :: knots, ledger =>
    match branch setting command knot ledger with
    | (.error fault, ledger) => (.error fault, ledger)
    | (.ok first, ledger) =>
      match branches setting command knots ledger with
      | (.error fault, ledger) => (.error fault, ledger)
      | (.ok rest, ledger) => (.ok (first.toList ++ rest), ledger)

def reportKnots (setting : Setting) (command : String) : Journal :=
  Journal.info ("unit=" ++ setting.unit ++ " expanding " ++ command ++ " into " ++
    toString setting.bytecode.knots.length ++ " knots")

def specialBeat (id : Int) (command : String) (effects : List String) : Beat :=
  Beat.settle { id := id, kind := .special, text := some command, effects := effects }

/-- Expands a branching command into the knots. -/
def expand (setting : Setting) (command : String) (effects : List String) (ledger : Ledger) :
    Except Fault Node × Ledger :=
  match branches setting command setting.bytecode.knots
      (ledger.note (reportKnots setting command)) with
  | (.error fault, ledger) => (.error fault, ledger)
  | (.ok results, ledger) =>
    let (id, ledger) := ledger.newNode
    (.ok (.node (specialBeat id command effects) results), ledger)

end StoryAtlas.Explore
