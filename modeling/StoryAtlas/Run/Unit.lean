import StoryAtlas.Explore.Tree
import StoryAtlas.Run.Tally
import StoryAtlas.Run.Work
import StoryAtlas.Settings.Basic
import StoryAtlas.Story.Engine
import StoryAtlas.Unit.Record
import StoryAtlas.Unit.Tuning

/-!
# From a unit to its raw tree

The text of a unit is read twice: as compiled story, for what the analysis finds in it, and by the
engine that plays it. A text that is no compiled story halts the run. A story that the engine cannot
open, or that fails while it is explored, only costs the run this unit.
-/

namespace StoryAtlas

/-- Reads the compiled story of a unit. -/
def Bytecode.load (unit text : String) : Except Halt Json :=
  match Json.parse text with
  | .ok (.obj fields) => .ok (.obj fields)
  | .ok _ => .error (.told (.bytecode unit) "top-level value is not an object")
  | .error .malformed => .error (.failure ⟨.bytecode unit, .malformed⟩)
  | .error (.numberTooLong digits) =>
    .error (.told (.bytecode unit) (Fault.numeralTooLong digits).message)

namespace Run

/-- What became of a unit that has a text. -/
inductive Built where
  | tree (tree : EventTree) (truncated : Bool)
  | failed
  /-- The run cannot go on. -/
  | halted (halt : Halt)

/-- An artwork that is void becomes the empty text. -/
def artworkOf (unit : UnitRecord) : Json :=
  if unit.artwork.isVoid then .str "" else unit.artwork

/-- The tree of an explored story. -/
def settleTree (unit : UnitRecord) : Except Fault (Option Node) × Explore.World → Built × Journal
  | (built, world) =>
    let name := unit.displayName
    let journal := world.ledger.journal
    match built with
    | .error _ => (.failed, journal ++ Journal.failure ("unit=" ++ name ++ " failed to build"))
    | .ok none => (.failed, journal ++ Journal.warning ("unit=" ++ name ++ " produced no nodes"))
    | .ok (some root) =>
      (.tree {
        name := name
        kind := unit.kind
        artwork := artworkOf unit
        root := some root
        nextId := world.ledger.nextId } world.ledger.truncated, journal)

def explore (engine : Engine) (settings : Settings) (tuning : Tuning) (unit : UnitRecord)
    (text : String) (bytecode : Bytecode) : Built × Journal :=
  let name := unit.displayName
  match engine text with
  | none => (.failed, Journal.failure ("unit=" ++ name ++ " failed to build"))
  | some script =>
    settleTree unit (Explore.run {
      unit := name
      script := script
      limits := settings.limits
      bytecode := bytecode
      menu := tuning.menuOf name
      convergence := tuning.convergenceOf name })

def buildUnit (engine : Engine) (settings : Settings) (tuning : Tuning) (unit : UnitRecord)
    (text : String) : Built × Journal :=
  let name := unit.displayName
  match Bytecode.load name text with
  | .error halt => (.halted halt, [])
  | .ok document =>
    match Bytecode.analyse document with
    | .error fault => (.halted (.fault fault), [])
    | .ok bytecode =>
      let (built, journal) := explore engine settings tuning unit text bytecode
      (built, bytecode.report name ++ journal)

end Run

end StoryAtlas
