import StoryAtlas.Fault
import StoryAtlas.Text.Fold
import StoryAtlas.Text.Scan
import StoryAtlas.Text.Word

/-!
# Rolled amounts

A story rolls amounts of gold and damage between two bounds and then names the number it rolled.
Where a number of a known range turns up in a command or an effect, the range is shown in its place,
so that two readings of the same story do not differ by a roll.
-/

namespace StoryAtlas

/-- The bounds of a roll, both included. -/
structure RollRange where
  least : Int
  most : Int
deriving DecidableEq, Repr

namespace RollRange

def holds (range : RollRange) (amount : Int) : Bool := range.least ≤ amount && amount ≤ range.most

def label (range : RollRange) : String :=
  "random [" ++ toString range.least ++ " - " ++ toString range.most ++ "]"

end RollRange

/-- The ranges of each story variable, in the order in which they were met. -/
abbrev RollTable := Register String (List RollRange)

/-- What a story rolls for. -/
inductive Stake where
  | gold
  | damage
deriving DecidableEq, Repr

namespace Stake

def all : List Stake := [gold, damage]

/-- The word for it in running text. -/
def word : Stake → String
  | gold => "gold"
  | damage => "damage"

/-- The command and the effect that grant it. -/
def command : Stake → String
  | gold => "GOLD"
  | damage => "DAMAGE"

/-- The story variables that may hold it, the preferred one first. -/
def holders : Stake → List String
  | gold => ["gold", "Gold"]
  | damage => ["damage", "Damage"]

end Stake

namespace RollTable

def ranges (table : RollTable) (name : String) : List RollRange :=
  (Register.get? name table).getD []

/-- The ranges of the first variable that has any. -/
def rangesFor (table : RollTable) (stake : Stake) : List RollRange :=
  ((stake.holders.map table.ranges).find? (!·.isEmpty)).getD []

end RollTable

namespace Roll

open Text

/-- The first range that an amount may have been rolled from. -/
def source (ranges : List RollRange) (amount : Int) : Option RollRange :=
  ranges.find? (·.holds amount)

/-- A command name in any case, a colon and an amount that no word character follows. -/
def readCommand (stake : Stake) : Recogniser (List Char × List Char) := fun _ cs => do
  let rest ← dropFolded? stake.word.toList cs
  match rest with
  | ':' :: tail =>
    let digits := tail.takeWhile isDigit
    let after := tail.dropWhile isDigit
    if digits.isEmpty || (after.head?.map isWord).getD false then none
    else some ((cs.take stake.word.length, digits), after)
  | _ => none

def showCommand (ranges : List RollRange) (found : List Char × List Char) :
    Except Fault (List Char) := do
  let amount ← wholeOfRun found.2
  match source ranges amount with
  | some range => return found.1 ++ ':' :: range.label.toList
  | none => return found.1 ++ ':' :: found.2

def showPiece (ranges : List RollRange) : Piece (List Char × List Char) → Except Fault (List Char)
  | .plain c => .ok [c]
  | .found finding => showCommand ranges finding

/-- Shows the ranges of one stake in the commands of a line. -/
def maskStake (table : RollTable) (line : List Char) (stake : Stake) : Except Fault (List Char) :=
  let ranges := table.rangesFor stake
  if ranges.isEmpty then .ok line
  else do
    let shown ← (scan (readCommand stake) none line).mapM (showPiece ranges)
    return shown.flatten

/-- A line is looked at only if it has four arrows and the story rolls at all. -/
def maskLine (table : RollTable) (line : List Char) : Except Fault (List Char) :=
  if table.isEmpty || !occursIn ['>', '>', '>', '>'] line then .ok line
  else Stake.all.foldlM (maskStake table) line

/-- The amount of an effect that grants the stake; a line break may end it. -/
def effectDigits (stake : Stake) (effect : List Char) : Option (List Char) := do
  let rest ← dropFolded? stake.word.toList effect
  match rest with
  | ':' :: tail =>
    let run := tail.dropWhile isBlank
    let digits := run.takeWhile isDigit
    let after := run.dropWhile isDigit
    if digits.isEmpty || !(after.isEmpty || after == ['\n']) then none else some digits
  | _ => none

/-- The effect with its amount shown as a range, if it grants the stake and a range fits. -/
def maskEffectFor (table : RollTable) (effect : String) (stake : Stake) :
    Except Fault (Option String) :=
  match effectDigits stake effect.toList with
  | none => .ok none
  | some digits => do
    let amount ← wholeOfRun digits
    return (source (table.rangesFor stake) amount).map fun range =>
      stake.command ++ ": " ++ range.label

def maskEffect (table : RollTable) (effect : String) : Except Fault String := do
  let masked ← Stake.all.mapM (maskEffectFor table effect)
  return (masked.filterMap id).getLast?.getD effect

def maskEffects (table : RollTable) (effects : List String) : Except Fault (List String) :=
  effects.mapM (maskEffect table)

end Roll

end StoryAtlas
