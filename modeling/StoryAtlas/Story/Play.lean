import StoryAtlas.Chance.Range
import StoryAtlas.Story.Script

/-!
# Playing a story

A play of a story stands at a line of a passage and remembers which choices were taken. It is a
plain value: to come back to a place is to keep the value. Draining reads the lines that are left,
shows rolled amounts as ranges, and stops at the first fault, which takes the line with it.
-/

namespace StoryAtlas

structure Play where
  passage : String
  line : Nat := 0
  /-- The choices taken, by passage and position. -/
  taken : List (String × Nat) := []
deriving DecidableEq, Repr

/-- What was read in one go: the lines that say something, and how many were read. -/
structure Stretch where
  lines : List String := []
  count : Nat := 0
deriving DecidableEq, Repr

namespace Stretch

def text (stretch : Stretch) : String := Text.join "\n" stretch.lines

/-- The player starts reading and presses on for each further line. -/
def continues (stretch : Stretch) : Int := max 0 ((stretch.count : Int) - 1)

end Stretch

namespace Play

def opening (script : Script) : Play := { passage := script.start }

def unknownPassage (name : String) : Fault := .story ("unknown passage " ++ name)

def passage? (script : Script) (play : Play) : Except Fault Passage :=
  match Register.get? play.passage script.passages with
  | some passage => .ok passage
  | none => .error (unknownPassage play.passage)

/-- The line that cannot be read. -/
def failingLine : String := "!error"

def unreadableLine : Fault := .story "scripted runtime error"

/-- What one line adds to a stretch. -/
def readLine (rolls : RollTable) (line : Option String) : Except Fault (List String) :=
  match line with
  | none => .ok []
  | some text => do
    if Text.isBlankText text then return []
    else
      let shown ← Roll.maskLine rolls (text.toList ++ ['\n'])
      return [String.ofList (Text.trim shown)]

structure Drained where
  stretch : Stretch := {}
  /-- The lines used up, with the one that failed. -/
  used : Nat := 0
  fault : Option Fault := none

def Drained.after (lines : List String) (later : Drained) : Drained :=
  { later with
    stretch := ⟨lines ++ later.stretch.lines, later.stretch.count + 1⟩
    used := later.used + 1 }

/-- Reads lines up to the first fault. -/
def drainLines (rolls : RollTable) : List (Option String) → Drained
  | [] => {}
  | line :: lines =>
    if line = some failingLine then { used := 1, fault := some unreadableLine }
    else
      match readLine rolls line with
      | .ok shown => (drainLines rolls lines).after shown
      | .error fault => { stretch := { count := 1 }, used := 1, fault := some fault }

/-- Reads what is left of the passage. -/
def drain (script : Script) (rolls : RollTable) (play : Play) : Drained × Play :=
  match play.passage? script with
  | .error fault => ({ fault := some fault }, play)
  | .ok passage =>
    let drained := drainLines rolls (passage.lines.drop play.line)
    (drained, { play with line := play.line + drained.used })

/-- The choices that are open, with their positions among all choices of the passage. -/
def openChoices (play : Play) (passage : Passage) : List (ScriptChoice × Nat) :=
  passage.choices.zipIdx.filter fun (choice, position) =>
    !(choice.once && play.taken.contains (play.passage, position))

/-- The labels on offer: none while there are lines left to read. -/
def labels (script : Script) (play : Play) : Except Fault (List String) := do
  let passage ← play.passage? script
  if passage.broken then throw (.story ("broken passage " ++ play.passage))
  else if play.line < passage.lines.length then return []
  else return (play.openChoices passage).map fun (choice, _) => choice.label

/-- Takes the choice with a number among those that are open. -/
def choose (script : Script) (number : Nat) (play : Play) : Except Fault Play := do
  let passage ← play.passage? script
  match (play.openChoices passage)[number]? with
  | none => throw (.story "list index out of range")
  | some (choice, position) =>
    if Register.holds choice.target script.passages then
      return {
        passage := choice.target
        line := 0
        taken := (play.passage, position) :: play.taken.filter (· != (play.passage, position)) }
    else throw (unknownPassage choice.target)

/-- Where the play stands, by the name that the passage gives; empty if it gives none. -/
def location (script : Script) (play : Play) : Except Fault String := do
  let passage ← play.passage? script
  return passage.location.getD play.passage

end Play

end StoryAtlas
