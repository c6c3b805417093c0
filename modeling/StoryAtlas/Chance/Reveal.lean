import StoryAtlas.Chance.Marker
import StoryAtlas.Chance.Range
import StoryAtlas.Event.Beat

/-!
# Rolled amounts in texts

When an effect shows a range instead of an amount, a text that names an amount of that range would
promise the player what was only rolled once. The amount is replaced by a mark. If a node has a
single dialogue child that names the amount, the child is the one that grants it, and the effect
moves there.
-/

namespace StoryAtlas.Roll

open Text

/-- An amount in running text: its digits and the word after them, as written. -/
structure Mention where
  digits : List Char
  word : List Char
deriving DecidableEq, Repr

/-- A whole number, optional white space and the word, with no word character on either side. -/
def readMention (stake : Stake) : Recogniser Mention := fun before cs => do
  let digits := cs.takeWhile isDigit
  let rest := (cs.dropWhile isDigit).dropWhile isBlank
  let after ← dropFolded? stake.word.toList rest
  if digits.isEmpty || (before.map isWord).getD false || (after.head?.map isWord).getD false then
    none
  else some (⟨digits, rest.take stake.word.length⟩, after)

def showMention (range : RollRange) (mention : Mention) : Except Fault (List Char) := do
  let amount ← wholeOfRun mention.digits
  if range.holds amount then return marker.toList ++ ' ' :: mention.word
  else return mention.digits ++ ' ' :: mention.word

def maskMention (range : RollRange) : Piece Mention → Except Fault (List Char)
  | .plain c => .ok [c]
  | .found mention => showMention range mention

/-- Marks the amounts of a range in a text. -/
def maskText (text : String) (found : Stake × RollRange) : Except Fault String := do
  let shown ← (scan (readMention found.1) none text.toList).mapM (maskMention found.2)
  return String.ofList shown.flatten

/-- The bounds in an effect that grants a random amount of the stake. -/
def readBounds (stake : Stake) (effect : List Char) : Option (List Char × List Char) := do
  let rest ← dropFolded? (stake.word.toList ++ [':']) effect
  let rest ← dropFolded? "random".toList (rest.dropWhile isBlank)
  let rest ← dropPattern? ['['] (rest.dropWhile isBlank)
  let rest := rest.dropWhile isBlank
  let least := rest.takeWhile isDigit
  let rest ← dropPattern? ['-'] ((rest.dropWhile isDigit).dropWhile isBlank)
  let rest := rest.dropWhile isBlank
  let most := rest.takeWhile isDigit
  let after ← dropPattern? [']'] ((rest.dropWhile isDigit).dropWhile isBlank)
  if least.isEmpty || most.isEmpty || !(after.isEmpty || after == ['\n']) then none
  else some (least, most)

/-- The range of the first effect that grants a random amount of the stake. -/
def grantedRange (effects : List String) (stake : Stake) :
    Except Fault (Option (Stake × RollRange)) :=
  match effects.findSome? fun effect => readBounds stake effect.toList with
  | some (least, most) => do return some (stake, ⟨← wholeOfRun least, ← wholeOfRun most⟩)
  | none => .ok none

/-- How an effect that grants the range is written. -/
def grant (found : Stake × RollRange) : String := found.1.command ++ ": " ++ found.2.label

/-- Reads the ranges of a node and marks its text, stake by stake. -/
def maskOwn (effects : List String) (text : String) :
    List Stake → Except Fault (List (Stake × RollRange) × String)
  | [] => .ok ([], text)
  | stake :: stakes => do
    match ← grantedRange effects stake with
    | some found =>
      let (ranges, shown) ← maskOwn effects (← maskText text found) stakes
      return (found :: ranges, shown)
    | none => maskOwn effects text stakes

structure Revealed where
  beat : Beat
  ranges : List (Stake × RollRange) := []
  changes : Nat := 0

/-- Marks the text of a beat that has effects and a text. -/
def revealBeat (beat : Beat) : Except Fault Revealed :=
  match present beat.text with
  | some text =>
    if beat.effects.isEmpty then .ok { beat := beat }
    else do
      let (ranges, shown) ← maskOwn beat.effects text Stake.all
      if shown = text then return { beat := beat, ranges := ranges }
      else return { beat := { beat with text := some shown }, ranges := ranges, changes := 1 }
  | none => .ok { beat := beat }

/-- Moves the grants to a dialogue child that names an amount of one of them. -/
def handOver (parent : Revealed) (child : Beat) : Except Fault (Revealed × Beat) :=
  match present child.text with
  | some text =>
    if parent.ranges.isEmpty || child.kind != .dialogue then .ok (parent, child)
    else do
      let shown ← parent.ranges.foldlM maskText text
      let grants := parent.ranges.map grant
      if shown = text then return (parent, child)
      else
        return ({ parent with
          beat := { parent.beat with
            effects := parent.beat.effects.filter fun effect => !grants.contains effect }
          changes := parent.changes + 1 },
          { child with text := some shown, effects := child.effects ++ grants })
  | none => .ok (parent, child)

mutual

/-- Reveals a tree whose root stands for the given beat. -/
def revealNode (beat : Beat) : Node → Except Fault (Node × Nat)
  | .node _ children => do
    let own ← revealBeat beat
    match children with
    | [only] =>
      let (parent, childBeat) ← handOver own only.value
      let (child, changes) ← revealNode childBeat only
      return (.node parent.beat [child], parent.changes + changes)
    | many =>
      let (nodes, changes) ← revealForest many
      return (.node own.beat nodes, own.changes + changes)

def revealForest : List Node → Except Fault (List Node × Nat)
  | [] => .ok ([], 0)
  | node :: nodes => do
    let (first, changes) ← revealNode node.value node
    let (rest, more) ← revealForest nodes
    return (first :: rest, changes + more)

end

/-- Marks the rolled amounts in the texts of a tree, and counts the nodes that changed. -/
def reveal (root : Node) : Except Fault (Node × Nat) := revealNode root.value root

/-- An effect that adds one keyword of a list. -/
def addsOneOf (effect : String) : Bool :=
  (search (fun cs => do
    let rest ← dropPattern? "ADDKEYWORD:".toList cs
    let rest ← dropPattern? "random".toList (rest.dropWhile isBlank)
    let rest ← dropPattern? ['['] (rest.dropWhile isBlank)
    return ((), rest)) effect.toList).isSome

/-- A wrapper whose outcome adds one keyword of a list. -/
def hidesKeyword : Node → Bool
  | .node beat [outcome] => beat.kind == .choice && outcome.value.effects.any addsOneOf
  | _ => false

/-- Gives wrappers that add one keyword of a list the same label, and counts them. -/
def maskKeywordLabels (root : Node) : Node × Nat :=
  (root.annotate fun node =>
    if hidesKeyword node then { node.value with label := some keywordLabel } else node.value,
    (root.walk.filter hidesKeyword).length)

end StoryAtlas.Roll
