import StoryAtlas.Event.Beat
import StoryAtlas.Journal
import StoryAtlas.Text.Trim

/-!
# Separating choices from their outcomes

A node that was reached by a labelled choice says two things: what was chosen and what came of it.
It is split into a choice wrapper, which keeps the id, the label and the requirements, and an
outcome below it, which takes the rest under a fresh id. Nodes deeper in the tree are split first,
and the children of one node from left to right.
-/

namespace StoryAtlas.Split

/-- The text of a node that does nothing but end. -/
def endText : String := "[End]"

structure State where
  nextId : Int
  separated : Nat := 0
  /-- Nodes that no rule gives an outcome type to. -/
  unexpected : List Int := []
  journal : Journal := []

/-- What the outcome of a node is; nothing if the node fits no rule. -/
def outcomeKind (node : Node) : Option Kind :=
  let beat := node.value
  if beat.kind = .combat then some .combat
  else if beat.ref.isSome then some (if beat.kind = .choice then .dialogue else beat.kind)
  else if node.children.isEmpty then some .ending
  else if beat.kind = .choice ∨ beat.kind = .dialogue then some .dialogue
  else none

def hasText (beat : Beat) : Bool :=
  match beat.text with
  | some text => !Text.isBlankText text && text != endText
  | none => false

/-- The node has a label and an outcome worth a node of its own. -/
def needsSplit (node : Node) : Bool :=
  let beat := node.value
  let labelled := !Text.isBlankText (beat.label.getD "")
  labelled && beat.kind != .special &&
    (!beat.effects.isEmpty || hasText beat || !node.children.isEmpty || beat.kind == .ending ||
      beat.ref.isSome)

def outcomeBeat (id : Int) (kind : Kind) (beat : Beat) : Beat :=
  { Beat.settle {
      id := id
      kind := kind
      text := some (beat.text.getD "")
      effects := beat.effects
      continues := beat.continues
      ref := beat.ref } with
    refChildren := beat.refChildren }

def wrapperBeat (beat : Beat) : Beat :=
  Beat.settle {
    id := beat.id
    kind := .choice
    label := beat.label
    requirements := beat.requirements }

def reportUnexpected (unit : String) (beat : Beat) : Journal :=
  Journal.warning ("unit=" ++ unit ++ " unexpected node split: id=" ++ toString beat.id ++
    " type=" ++ beat.kind.name)

/-- Splits one node, if it has to be. -/
def wrap (unit : String) (state : State) (node : Node) : Node × State :=
  if needsSplit node then
    let beat := node.value
    let noted :=
      match outcomeKind node with
      | some _ => state
      | none =>
        { state with
          unexpected := state.unexpected ++ [beat.id]
          journal := state.journal ++ reportUnexpected unit beat }
    let kind := (outcomeKind node).getD beat.kind
    let outcome := Rose.node (outcomeBeat state.nextId kind beat) node.children
    (.node (wrapperBeat beat) [outcome],
      { noted with nextId := state.nextId + 1, separated := state.separated + 1 })
  else (node, state)

/-- Splits the nodes of a list from left to right. -/
def wrapAll (unit : String) (state : State) : List Node → List Node × State
  | [] => ([], state)
  | node :: nodes =>
    let first := wrap unit state node
    let rest := wrapAll unit first.2 nodes
    (first.1 :: rest.1, rest.2)

mutual

/-- Splits the nodes below a node. -/
def splitBelow (unit : String) (state : State) : Node → Node × State
  | .node beat children =>
    let below := splitForest unit state children
    let wrapped := wrapAll unit below.2 below.1
    (.node beat wrapped.1, wrapped.2)

/-- Splits the nodes below each tree of a forest. -/
def splitForest (unit : String) (state : State) : List Node → List Node × State
  | [] => ([], state)
  | node :: nodes =>
    let first := splitBelow unit state node
    let rest := splitForest unit first.2 nodes
    (first.1 :: rest.1, rest.2)

end

/-- A node of type choice that is no wrapper becomes dialogue or an end. -/
def settleKind (node : Node) : Beat :=
  let beat := node.value
  if beat.kind = .choice ∧ node.children.length ≠ 1 then
    { beat with
      kind := if node.children.isEmpty && beat.ref.isNone then .ending else .dialogue }
  else beat

structure Outcome where
  root : Node
  nextId : Int
  separated : Nat
  unexpected : List Int
  journal : Journal

def separate (unit : String) (nextId : Int) (root : Node) : Outcome :=
  let (split, state) := splitBelow unit { nextId := nextId } root
  { root := split.annotate settleKind
    nextId := state.nextId
    separated := state.separated
    unexpected := state.unexpected
    journal := state.journal }

end StoryAtlas.Split
