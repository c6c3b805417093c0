import StoryAtlas.Edit.Alteration
import StoryAtlas.Event.Tree
import StoryAtlas.Json.Printer
import StoryAtlas.Unit.Record

/-!
# Files

Three kinds of files are read: units, event trees and alterations. Each is a list in the interchange
notation. Event trees are also written, in the indented form.

The functions take the path of a file, which failures name, and its text, if the file could be read.
-/

namespace StoryAtlas.Archive

/-- A number beyond the digit limit is no matter of the notation and is reported as such. -/
def readDocument (path : String) : Option String → Except Halt Json
  | none => .error (.failure ⟨.input path, .unreadable⟩)
  | some text =>
    match Json.parse text with
    | .ok document => .ok document
    | .error .malformed => .error (.failure ⟨.input path, .malformed⟩)
    | .error (.numberTooLong digits) => .error (.fault (.numeralTooLong digits))

def loadUnits (path : String) (content : Option String) : Except Halt (List UnitRecord) := do
  UnitRecord.parse path (← readDocument path content)

def reportTree (path : String) : Fault → Halt
  | .wholeOfInfinity => .fault .wholeOfInfinity
  | fault => .told (.input path) ("malformed tree: " ++ fault.message)

def loadTrees (path : String) (content : Option String) : Except Halt (List EventTree) := do
  match ← readDocument path content with
  | .arr items => (items.mapM EventTree.ofPayload).mapError (reportTree path)
  | _ => .error (.told (.input path) "expected a JSON list of trees")

def loadAlterations (path : String) (content : Option String) :
    Except Halt (List UnitAlterations) := do
  ((UnitAlterations.check (← readDocument path content)).toExcept).mapError .invalid

def dumpTrees (trees : List EventTree) : String :=
  Json.indented 0 (.arr (trees.map EventTree.toPayload))

end StoryAtlas.Archive
