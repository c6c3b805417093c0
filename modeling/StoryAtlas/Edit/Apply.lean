import StoryAtlas.Edit.Alteration
import StoryAtlas.Text.Quoted

/-!
# Applying alterations

Alterations are applied one after the other, each to the tree that the ones before left. The
selected nodes are fixed before an alteration changes anything. A selected node that an earlier edit
of the same alteration has taken out of the tree is edited all the same, without effect on the tree:
it is counted, its ids are used up and its searches are reported.

A search for a node to refer to sees the tree as it is at that moment. New nodes are linked before
they enter the tree, so a search never finds them.
-/

namespace StoryAtlas.Edit

/-- The tree while an alteration is applied; nodes that it brought have no place. -/
abbrev Working := Rose (Option Nat × Beat)

namespace Working

def ofNode (root : Node) : Working := root.placed.map fun (place, beat) => (some place, beat)

def fresh (node : Node) : Working := node.map fun beat => (none, beat)

def forget (root : Working) : Node := root.map Prod.snd

def place (node : Working) : Option Nat := node.value.1

def beat (node : Working) : Beat := node.value.2

def atPlace? (place : Nat) (root : Working) : Option Working :=
  root.walk.find? fun (node : Working) => node.place == some place

def editAt (place : Nat) (edit : Working → Working) (root : Working) : Working :=
  root.editWhere (fun entry => entry.1 == some place) edit

end Working

structure State where
  root : Working
  nextId : Int
  applied : Nat := 0
  journal : Journal := []

/-- A link that a new node waits for. -/
inductive Wish where
  | source (number : Int)
  | search (text : String)
deriving DecidableEq, Repr

/-- A new node's beat, the number under which it is a target, and what it waits for. -/
structure Built where
  beat : Beat
  target : Option Int
  wish : Option Wish
  borrowsFirst : Bool
deriving DecidableEq, Repr

def wishOf (draft : Draft) : Option Wish :=
  match draft.refSource, draft.refCreate with
  | some number, _ => some (.source number)
  | none, some text => some (.search text)
  | none, none => none

def buildBeat (id : Int) (draft : Draft) : Built where
  beat :=
    { id := id
      kind := draft.kind
      text := draft.text
      label := draft.label
      requirements := draft.requirements
      effects := draft.effects
      continues := draft.continues
      ref := draft.ref
      refChildren := draft.refChildren }
  target := draft.refTarget
  wish := wishOf draft
  borrowsFirst := draft.borrowsFirst

mutual

/-- Gives the nodes of a draft ids in walk order. -/
def build (nextId : Int) : DraftTree → Rose Built
  | .node draft children => .node (buildBeat nextId draft) (buildForest (nextId + 1) children)

def buildForest (nextId : Int) : List DraftTree → List (Rose Built)
  | [] => []
  | tree :: trees => build nextId tree :: buildForest (nextId + tree.size) trees

end

def reportSource (unit : String) (number id : Int) : Journal :=
  Journal.warning ("unit=" ++ unit ++ " refSource " ++ toString number ++
    " has no matching refTarget (node " ++ toString id ++ ")")

def reportCreate (unit text : String) (id : Int) : Journal :=
  Journal.warning ("unit=" ++ unit ++ " refCreate " ++ Text.quoted text ++
    " found no unreferenced match for node " ++ toString id)

def reportSearch (unit text : String) (id : Int) : Journal :=
  Journal.warning ("unit=" ++ unit ++ " ref search " ++ Text.quoted text ++
    " found no unreferenced match for node " ++ toString id)

/-- The first node of the tree that may be referred to by a text. -/
def searchNode (text : String) (atStart : Bool) (excluded : List Int) (root : Working) :
    Option Working :=
  findUnreferenced Prod.snd text atStart excluded root

/-- The targets of some new nodes by number; of two with one number the later counts. -/
def targetsOf (built : List (Rose Built)) : Register Int Int :=
  Register.ofList ((Rose.walkForest built).filterMap fun node =>
    node.value.target.map fun number => (number, node.value.beat.id))

/-- What a wish is granted. -/
def grant (targets : Register Int Int) (excluded : List Int) (root : Working) : Wish → Option Int
  | .source number => Register.get? number targets
  | .search text => (searchNode text false excluded root).map fun node => node.beat.id

def linkBeat (targets : Register Int Int) (excluded : List Int) (root : Working) (node : Built) :
    Beat :=
  match node.wish.bind (grant targets excluded root) with
  | some id => { node.beat with ref := some id }
  | none => node.beat

def reportWish (unit : String) (targets : Register Int Int) (excluded : List Int) (root : Working)
    (node : Built) : Journal :=
  match node.wish with
  | some wish =>
    if (grant targets excluded root wish).isSome then []
    else
      match wish with
      | .source number => reportSource unit number node.beat.id
      | .search text => reportCreate unit text node.beat.id
  | none => []

def waitsForSource (node : Built) : Bool :=
  match node.wish with
  | some (.source _) => true
  | _ => false

/-- The reports on wishes that are not granted, those for numbered targets first. -/
def reportWishes (unit : String) (targets : Register Int Int) (excluded : List Int)
    (root : Working) (built : List (Rose Built)) : Journal :=
  let nodes := (Rose.walkForest built).map Rose.value
  (nodes.filter waitsForSource ++ nodes.filter fun node => !waitsForSource node).flatMap
    (reportWish unit targets excluded root)

/-- A new node that takes the id of the node it replaces as a target. -/
def retarget (fromId toId : Int) (targets : Register Int Int) : Register Int Int :=
  targets.map fun (number, id) => (number, if id = fromId then toId else id)

/-- Puts a replacement in the place of a node, which keeps its id. -/
def replaceAt (unit : String) (tree : DraftTree) (state : State) (node : Working) : State :=
  let built := build state.nextId tree
  let excluded := (node.walk.map fun (inner : Working) => inner.beat.id)
  let targets := retarget built.value.beat.id node.beat.id (targetsOf [built])
  let linked := built.map (linkBeat targets excluded state.root)
  let replacement : Working :=
    .node (node.place, { linked.value with id := node.beat.id })
      (Rose.mapForest (fun beat => (none, beat)) linked.children)
  { root :=
      match node.place with
      | some place => state.root.editAt place fun _ => replacement
      | none => state.root
    nextId := state.nextId + tree.size
    applied := state.applied + 1
    journal := state.journal ++ reportWishes unit targets excluded state.root [built] }

/-- The children of the first of some new nodes that has any, by id. -/
def firstChildIds (nodes : List Node) : Option (List Int) :=
  (nodes.find? fun (node : Node) => !node.children.isEmpty).map
    fun node => node.children.map Node.id

def borrowFirst (ids : Option (List Int)) (borrows : Bool) (node : Node) : Node :=
  match ids with
  | some ids =>
    if borrows then node.withValue { node.value with refChildren := some ids } else node
  | none => node

def forestSize (trees : List DraftTree) : Nat := Rose.sizeForest trees

def replaceChildrenAt (unit : String) (trees : List DraftTree) (state : State) (node : Working) :
    State :=
  let built := buildForest state.nextId trees
  let targets := targetsOf built
  let linked : List Node := built.map fun tree => tree.map (linkBeat targets [] state.root)
  let ids := firstChildIds linked
  let children := (trees.zip linked).map fun (tree, child) =>
    Working.fresh (borrowFirst ids tree.value.borrowsFirst child)
  { root :=
      match node.place with
      | some place => state.root.editAt place fun old => old.withChildren children
      | none => state.root
    nextId := state.nextId + forestSize trees
    applied := state.applied + 1
    journal := state.journal ++ reportWishes unit targets [] state.root built }

def addChildAt (unit : String) (tree : DraftTree) (state : State) (node : Working) : State :=
  let built := build state.nextId tree
  let targets := targetsOf [built]
  let child := Working.fresh (built.map (linkBeat targets [] state.root))
  { root :=
      match node.place with
      | some place => state.root.editAt place fun old => old.withChildren (old.children ++ [child])
      | none => state.root
    nextId := state.nextId + tree.size
    applied := state.applied + 1
    journal := state.journal ++ reportWishes unit targets [] state.root [built] }

/-- Adds the requirements that are not there yet. -/
def addRequirements (requirements : List String) (beat : Beat) : Beat :=
  { beat with
    requirements := requirements.foldl (fun known requirement =>
      if known.contains requirement then known else known ++ [requirement]) beat.requirements }

def editBeat (place : Option Nat) (edit : Beat → Beat) (root : Working) : Working :=
  match place with
  | some place =>
    root.map fun entry => if entry.1 = some place then (entry.1, edit entry.2) else entry
  | none => root

def addRequirementsAt (requirements : List String) (state : State) (node : Working) : State :=
  { state with
    root := editBeat node.place (addRequirements requirements) state.root
    applied := state.applied + 1 }

/-- The changes of a modification that need no search. -/
def modifyBeat (change : Modification) (beat : Beat) : Beat :=
  { beat with
    ref := if change.removeRef then none else beat.ref
    text := if change.removeText then none else beat.text
    continues := if change.removeContinues then none else beat.continues
    kind := change.kind.getD beat.kind }

/-- Searches for a text and refers the node to what is found, unless that is the node itself. -/
def referTo (unit : String) (node : Working) (state : State) (search : String × Bool) : State :=
  match searchNode search.1 search.2 [] state.root with
  | some target =>
    if target.place.isSome ∧ target.place = node.place then
      { state with journal := state.journal ++ reportSearch unit search.1 node.beat.id }
    else
      { state with
        root :=
          editBeat node.place (fun beat => { beat with ref := some target.beat.id }) state.root }
  | none => { state with journal := state.journal ++ reportSearch unit search.1 node.beat.id }

def searches (change : Modification) : List (String × Bool) :=
  (change.refCreate.map fun text => (text, false)).toList ++
    (change.refCreateOpening.map fun text => (text, true)).toList

def clearChildren (place : Option Nat) (root : Working) : Working :=
  match place with
  | some place => root.editAt place fun node => node.withChildren []
  | none => root

def modifyAt (unit : String) (change : Modification) (state : State) (node : Working) : State :=
  let changed := editBeat node.place (modifyBeat change) state.root
  let cleared := if change.removeChildren then clearChildren node.place changed else changed
  let linked := (searches change).foldl (referTo unit node) { state with root := cleared }
  { linked with applied := linked.applied + 1 }

/-- Whether the parent that the id of a node leads to has the node among its children. -/
def removable (index : Register Int Placed) (node : Placed) : Bool :=
  match Register.get? node.id index with
  | some parent => parent.children.any fun (child : Placed) => child.place == node.place
  | none => false

def parentIndex (root : Placed) : Register Int Placed :=
  Register.ofList (root.breadth.flatMap fun (parent : Placed) =>
    parent.children.map fun (child : Placed) => (child.id, parent))

def reportRemoval (unit : String) (id : Int) : Journal :=
  Journal.warning ("unit=" ++ unit ++ " failed to remove node " ++ toString id)

/-- Removes the selected nodes from their parents; the root has none. -/
def removeAll (unit : String) (selected : Beat → Bool) (nextId : Int) (root : Node) : State :=
  let placed := root.placed
  let index := parentIndex placed
  let matched := placed.walk.filter fun (node : Placed) => selected node.beat
  let (gone, kept) := matched.partition (removable index)
  let places := gone.map Placed.place
  { root := Working.ofNode (Placed.forget (placed.prune fun entry => places.contains entry.1))
    nextId := nextId
    applied := gone.length
    journal := kept.flatMap fun (node : Placed) => reportRemoval unit node.id }

/-- The version of a selected node that the tree has now, or the one it had at first. -/
def currently (root node : Working) : Working :=
  (node.place.bind fun place => root.atPlace? place).getD node

def forEach (edit : State → Working → State) (nodes : List Working) (state : State) : State :=
  nodes.foldl (fun state node => edit state (currently state.root node)) state

def applyOne (unit : String) (nextId : Int) (root : Node) (alteration : Alteration) : State :=
  let selected := alteration.find.selects
  let working := Working.ofNode root
  let nodes := working.walk.filter fun (node : Working) => selected node.beat
  let start : State := { root := working, nextId := nextId }
  if nodes.isEmpty then
    { start with
      journal := Journal.warning ("unit=" ++ unit ++ " no nodes found matching " ++
        alteration.find.describe) }
  else if alteration.remove then removeAll unit selected nextId root
  else
    match alteration.replaceNode, alteration.replaceChildren with
    | some tree, _ => forEach (replaceAt unit tree) nodes start
    | none, some trees => forEach (replaceChildrenAt unit trees) nodes start
    | none, none =>
      let requirements := Draft.withoutEmpty (alteration.addRequirements.getD [])
      let demanded :=
        if requirements.isEmpty then start
        else forEach (addRequirementsAt requirements) nodes start
      let modified :=
        match alteration.modify with
        | some change => forEach (modifyAt unit change) nodes demanded
        | none => demanded
      match alteration.addChild with
      | some tree => forEach (addChildAt unit tree) nodes modified
      | none => modified

structure Outcome where
  root : Node
  nextId : Int
  applied : Nat := 0
  journal : Journal := []

/-- Applies the alterations of a unit in order. -/
def apply (unit : String) (alterations : List Alteration) (nextId : Int) (root : Node) : Outcome :=
  alterations.foldl (fun done alteration =>
    let state := applyOne unit done.nextId done.root alteration
    { root := state.root.forget
      nextId := state.nextId
      applied := done.applied + state.applied
      journal := done.journal ++ state.journal }) { root := root, nextId := nextId }

end StoryAtlas.Edit
