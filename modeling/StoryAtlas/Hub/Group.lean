import StoryAtlas.Event.Place

/-!
# Hubs and who offers them again

A hub is a dialogue node with many labelled choices. A later dialogue node offers a hub again if it
has as many choices as the hub or one less, all among the hub's. Nodes are met level by level, and a
hub is a candidate for all nodes after it. Hubs with the same choices are one group.
-/

namespace StoryAtlas.Hub

structure Member where
  node : Placed
  depth : Nat

structure Group where
  /-- The labels of the hub's choices, sorted. -/
  labels : List String
  members : List Member

/-- The labels of the children that have one. -/
def choiceLabels (node : Placed) : List String :=
  node.children.filterMap fun (child : Placed) => present child.beat.label

def offersAgain (hub choices : List String) : Bool :=
  choices.length ≤ hub.length && hub.length ≤ choices.length + 1 &&
    choices.all hub.contains

/-- Texts in the order of their code points. -/
def sortTexts (texts : List String) : List String := texts.mergeSort fun a b => !(b < a)

structure Survey where
  candidates : List (Member × List String) := []
  confirmed : Register Int Group := []

/-- Adds a member to the group of a hub, which the hub itself opens. -/
def confirm (confirmed : Register Int Group) (hub : Member) (labels : List String)
    (member : Member) : Register Int Group :=
  let group := (Register.get? hub.node.id confirmed).getD ⟨sortTexts labels, [hub]⟩
  Register.put hub.node.id { group with members := group.members ++ [member] } confirmed

def mayBelong (node : Placed) : Bool :=
  node.beat.ref.isNone && node.beat.kind == .dialogue && (present node.beat.text).isSome

def meet (minChoices : Int) (survey : Survey) (found : Placed × Nat) : Survey :=
  let member : Member := ⟨found.1, found.2⟩
  if mayBelong member.node then
    let choices := choiceLabels member.node
    let candidates :=
      if minChoices ≤ choices.length then survey.candidates ++ [(member, choices)]
      else survey.candidates
    let confirmed :=
      if choices.isEmpty then survey.confirmed
      else
        candidates.foldl (fun confirmed (hub, labels) =>
          if hub.node.place = member.node.place ∨ !offersAgain labels choices then confirmed
          else confirm confirmed hub labels member) survey.confirmed
    { candidates := candidates, confirmed := confirmed }
  else survey

/-- Joins a group to the one with the same labels, without the nodes that are there already. -/
def merge (groups : Register (List String) Group) (group : Group) :
    Register (List String) Group :=
  match Register.get? group.labels groups with
  | none => Register.put group.labels group groups
  | some existing =>
    let seen := existing.members.map fun member => member.node.id
    let added := group.members.filter fun member => !seen.contains member.node.id
    Register.put group.labels { existing with members := existing.members ++ added } groups

/-- The groups of a tree, hubs confirmed first coming first. -/
def groups (minChoices : Int) (root : Placed) : List Group :=
  let survey := root.breadthWithDepth.foldl (meet minChoices) {}
  let merged := survey.confirmed.foldl (fun merged entry => merge merged entry.2) []
  merged.map (·.2)

end StoryAtlas.Hub
