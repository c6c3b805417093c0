import StoryAtlas.Event.Beat
import StoryAtlas.Fault
import StoryAtlas.Text.Fold
import StoryAtlas.Text.Scan
import StoryAtlas.Total

/-!
# Names for numbered cards

Stories name cards and talents by number. Given the names, the numbers in the placeholders of labels
and texts and in the effects that take such a number are replaced. A number without a name stays.
-/

namespace StoryAtlas

/-- The names of cards and talents by number. -/
abbrev NameTable := Register Int String

namespace NameTable

open Text

def placeholderOpening : List Char := "[cardid=".toList

def readPlaceholder : Recogniser (List Char) := fun _ cs => do
  let rest ← dropPattern? placeholderOpening cs
  let digits := rest.takeWhile isDigit
  let after ← dropPattern? [']'] (rest.dropWhile isDigit)
  if digits.isEmpty then none else some (digits, after)

/-- A piece of a text with its number replaced, and how many numbers that were. -/
def namePiece (names : NameTable) : Piece (List Char) → Except Fault (List Char × Nat)
  | .plain c => .ok ([c], 0)
  | .found digits => do
    let number ← wholeOfRun digits
    match Register.get? number names with
    | some name => return (placeholderOpening ++ name.toList ++ [']'], 1)
    | none => return (placeholderOpening ++ digits ++ [']'], 0)

def nameText (names : NameTable) (text : String) : Except Fault (String × Nat) := do
  let pieces ← (scan readPlaceholder none text.toList).mapM (namePiece names)
  return (String.ofList (pieces.flatMap (·.1)), total (pieces.map (·.2)))

def nameOptional (names : NameTable) (text : Option String) :
    Except Fault (Option String × Nat) :=
  match present text with
  | some shown => do
    let (named, count) ← nameText names shown
    return (some named, count)
  | none => .ok (text, 0)

/-- The effects that take the number of a card or talent. -/
def numberedCommands : List String :=
  ["areaeffect", "addcard", "removecard", "imbuecard", "addtalent", "removetalent"]

/-- The command as written and the digits of its number; a line break may end the effect. -/
def readEffect (effect : List Char) : Option (List Char × List Char) :=
  numberedCommands.findSome? fun command => do
    let rest ← dropFolded? (command.toList ++ [':']) effect
    let run := rest.dropWhile isBlank
    let digits := run.takeWhile isDigit
    let after := run.dropWhile isDigit
    if digits.isEmpty || !(after.isEmpty || after == ['\n']) then none
    else some (effect.take command.length, digits)

def nameEffect (names : NameTable) (effect : String) : Except Fault (String × Nat) :=
  match readEffect effect.toList with
  | none => .ok (effect, 0)
  | some (command, digits) => do
    let number ← wholeOfRun digits
    match Register.get? number names with
    | some name => return (String.ofList (raised command) ++ ": " ++ name, 1)
    | none => return (effect, 0)

def nameBeat (names : NameTable) (beat : Beat) : Except Fault (Beat × Nat) := do
  let (label, inLabel) ← nameOptional names beat.label
  let (text, inText) ← nameOptional names beat.text
  let effects ← beat.effects.mapM (nameEffect names)
  return ({ beat with label := label, text := text, effects := effects.map (·.1) },
    inLabel + inText + total (effects.map (·.2)))

/-- Replaces numbers by names throughout a tree, and counts the replacements. -/
def apply (names : NameTable) (root : Node) : Except Fault (Node × Nat) := do
  let named ← root.attempt (nameBeat names)
  return (named.map (·.1), total (named.walk.map fun node => node.value.2))

end NameTable

end StoryAtlas
