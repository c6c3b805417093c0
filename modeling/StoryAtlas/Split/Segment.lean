import StoryAtlas.Command.Effect
import StoryAtlas.Event.Beat

/-!
# Splitting a segment of story

One stretch of story text between two choices may hold more than one beat. A fight in its middle
splits it into what leads to the fight and what follows it, and the first command in its middle
splits a dialogue into what is said before and after. The second part becomes a node of its own,
which takes over the children.
-/

namespace StoryAtlas

/-- The type of a node by the raw text it was drained from. -/
def Kind.ofText (text : String) (isLeaf : Bool) : Kind :=
  if text.isEmpty then .choice
  else if Text.mentions text "COMBAT:" then .combat
  else if isLeaf then .ending
  else .dialogue

namespace Segment

open Text

/-- What becomes of a segment: the fields and children of its node, and the node split off. -/
structure Parts where
  text : Option String
  effects : List String
  children : List Node
  continues : Option Int := none
  created : Option Node := none

def nonempty (text : String) : Option String := if text.isEmpty then none else some text

/-- A fight command with its arrows, up to the end of the line. -/
def readFight (cs : List Char) : Option (Unit × List Char) := do
  let named := if (dropPattern? ['>', '>', '>'] cs).isSome then cs.dropWhile (· == '>') else cs
  let rest ← dropFolded? "combat:".toList ((dropFolded? "direct".toList named).getD named)
  return ((), rest.dropWhile (· != '\n'))

/-- The node split off: it goes on if there are children and ends otherwise. -/
def follower (id : Int) (content : Extract) (continues : Option Int) (children : List Node) :
    Node :=
  .node (Beat.settle {
    id := id
    kind := if children.isEmpty then .ending else .dialogue
    text := some content.text
    effects := content.effects
    continues := continues }) children

def extractTrimmed (lexicon : Lexicon) (cs : List Char) : Extract :=
  Extract.ofChars lexicon (trim cs)

/-- Splits a segment at its fight; the fight keeps the effects that start it. -/
def splitFight (lexicon : Lexicon) (raw : String) (effects : List String) (children : List Node)
    (nextId : Int) : Parts :=
  match search readFight raw.toList with
  | none =>
    { text := nonempty (Extract.ofText lexicon raw).text, effects := effects, children := children }
  | some (before, _, after) =>
    let lead := extractTrimmed lexicon before
    let tail := extractTrimmed lexicon after
    if isBlankText tail.text then
      { text := nonempty lead.text, effects := effects, children := children }
    else
      let created := follower nextId tail none children
      { text := nonempty lead.text
        effects := effects.filter fun effect => mentions effect "COMBAT:"
        children := [created]
        created := some created }

/-- The number of lines that are not blank. -/
def countLines (cs : List Char) : Nat :=
  ((splitAtChar '\n' cs).filter fun line => !allBlank line).length

/-- One continue less than there are lines, if there are several. -/
def continuesOf (lines : Nat) : Option Int := if 1 < lines then some ((lines : Int) - 1) else none

/-- The text before and after the first command that starts no fight, if both say something. -/
def divide (raw : List Char) : Option (Chain × List Char × List Char) := do
  let chain ← Chain.firstUnless Command.combatNames raw
  let before := trim (raw.take chain.start)
  let after := trim (raw.drop chain.stop)
  if before.isEmpty || after.isEmpty then none else some (chain, before, after)

/-- Splits a dialogue at its first command, if the player pressed on at least twice. -/
def splitDialogue (lexicon : Lexicon) (raw clean : String) (effects : List String)
    (continueCount : Int) (children : List Node) (nextId : Int) : Parts :=
  let unchanged : Parts :=
    { text := some clean
      effects := effects
      children := children
      continues := some (max 0 (continueCount - 1)) }
  if effects.isEmpty || continueCount ≤ 1 then unchanged
  else
    match divide raw.toList with
    | none => unchanged
    | some (chain, before, after) =>
      let lead := Extract.ofChars lexicon (raw.toList.take chain.stop)
      let tail := Extract.ofChars lexicon after
      if isBlankText tail.text then unchanged
      else
        let created := follower nextId tail (continuesOf (countLines after)) children
        { text := nonempty lead.text
          effects := lead.effects
          children := [created]
          continues := continuesOf (countLines before)
          created := some created }

end Segment

end StoryAtlas
