import StoryAtlas.Chance.Marker
import StoryAtlas.Choice.Gate
import StoryAtlas.Explore.Ledger
import StoryAtlas.Hub.Group
import StoryAtlas.Split.Segment

/-!
# What a visit finds

A visit drains the story up to the next choices. The scene is what it finds there: the text read,
its effects and clean text, the choices, and two keys that tell the place from others. The state key
is made of the sorted choice labels and the location, and with the way that led here it makes the
state hash.
-/

namespace StoryAtlas.Explore

structure Scene where
  stretch : Stretch
  choices : List ChoiceLabel
  kind : Kind
  content : Extract
  stateKey : String
  stateHash : String

/-- A visit to be made: how deep it is, how it was reached, and the texts on the way with the nodes
that show them. -/
structure Visit where
  depth : Int
  edge : String
  ancestors : Register String Int := []

namespace Scene

def labels (scene : Scene) : List String := scene.choices.map ChoiceLabel.text

def sortedLabels (labels : List String) : String := Text.join "|" (Hub.sortTexts labels)

def keyOf (labels : List String) (location : String) : String :=
  sortedLabels labels ++ "@" ++ location

def ofStretch (lexicon : Lexicon) (edge : String) (stretch : Stretch) (labels : List String)
    (location : String) : Scene :=
  let choices := labels.map ChoiceLabel.ofText
  let content := Extract.ofText lexicon stretch.text
  let place := if location.isEmpty then "text:" ++ content.text else location
  let stateKey := keyOf (choices.map ChoiceLabel.text) place
  { stretch := stretch
    choices := choices
    kind := Kind.ofText stretch.text choices.isEmpty
    content := content
    stateKey := stateKey
    stateHash := edge ++ "_" ++ stateKey }

def clean (scene : Scene) : String := scene.content.text

/-- The clean text bears the mark of a rolled amount. -/
def isMarked (scene : Scene) : Bool := Text.mentions scene.clean Roll.marker

/-- The node for a text that was met before on the way down. -/
def textLoop (limits : Limits) (visit : Visit) (scene : Scene) : Option Int :=
  if limits.detectTextLoops && !scene.clean.isEmpty && !scene.isMarked then
    Register.get? scene.clean visit.ancestors
  else none

/-- The node for a place that was met before in the same way. -/
def repeatedState (limits : Limits) (ledger : Ledger) (scene : Scene) : Option Int :=
  if limits.detectRepeatedStates && !scene.isMarked then
    Register.get? scene.stateHash ledger.states
  else none

/-- The branching command of a scene without choices, if the story has knots. -/
def branching (setting : Setting) (scene : Scene) (command? : List String → Option String) :
    Option String :=
  if scene.choices.isEmpty && !setting.bytecode.knots.isEmpty then command? scene.content.effects
  else none

/-- The texts on the way down from here. -/
def pathBelow (limits : Limits) (visit : Visit) (scene : Scene) (id : Int) :
    Register String Int :=
  if limits.detectTextLoops && !scene.clean.isEmpty && !scene.isMarked then
    Register.put scene.clean id visit.ancestors
  else visit.ancestors

/-- The key under which equal menus are taken for the same place. -/
def signature (setting : Setting) (isHub : Bool) (scene : Scene) : Option String :=
  match setting.convergence with
  | some convergence =>
    if !isHub && !convergence.skips scene.clean && !scene.clean.isEmpty &&
        setting.limits.convergenceChoices ≤ scene.choices.length then
      some (scene.clean ++ "::" ++ sortedLabels scene.labels)
    else none
  | none => none

/-- A node that only refers to another. -/
def refBeat (scene : Scene) (id ref : Int) : Beat :=
  Beat.settle {
    id := id
    kind := scene.kind
    text := some scene.clean
    effects := scene.content.effects
    continues := some scene.stretch.continues
    ref := some ref }

/-- How much of a text a report shows. -/
def reportedLength : Nat := 50

def reportBudget (setting : Setting) (depth : Int) (scene : Scene) : Journal :=
  Journal.warning ("unit=" ++ setting.unit ++ " reached " ++ setting.limits.phase depth ++
    " node budget (" ++ toString (setting.limits.budget depth) ++ ") at depth " ++
    toString depth ++ ", dropping branch: text=" ++
    Text.quoted (Text.clip reportedLength scene.clean) ++ " choices=" ++
    toString scene.choices.length)

end Scene

end StoryAtlas.Explore
