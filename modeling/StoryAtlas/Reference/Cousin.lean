import StoryAtlas.Event.Index
import StoryAtlas.Reference.Sibling

/-!
# References between cousins

A reference between nodes of different parents is turned into borrowed children if the two parents
have a common ancestor at the same height above both. Simple cousins are only children: their
branches are then put side by side below the ancestor. In the other case the node that refers has
siblings: the target moves to the end of its list and the node to the front of its own, so that the
two meet across the border.
-/

namespace StoryAtlas.Reference

namespace Cousin

structure Pair where
  node : Placed
  parent : Placed
  target : Placed
  targetParent : Placed
  ancestor : Placed
  /-- The branches below the ancestor that hold the node and the target. -/
  nodeHead : Placed
  targetHead : Placed

/-- Climbs from two nodes in step until their parents are the same. -/
def meeting (index : Index) : Nat → Placed → Placed → Option (Placed × Placed × Placed)
  | 0, _, _ => none
  | steps + 1, left, right => do
    let leftUp ← index.parent? left
    let rightUp ← index.parent? right
    if leftUp.place = rightUp.place then some (leftUp, left, right)
    else meeting index steps leftUp rightUp

/-- Two climbs that have not met in so many steps never will. -/
def climbLimit (index : Index) : Nat := index.nodes.length * index.nodes.length + 1

def pair? (index : Index) (onlyChildren : Bool) (node : Placed) : Option Pair := do
  let ref ← node.beat.ref
  let parent ← index.parent? node
  let target ← index.node? ref
  if target.place = node.place ∨ target.children.isEmpty then none
  let targetParent ← index.parent? target
  if targetParent.place = parent.place then none
  if onlyChildren != (parent.children.length == 1) then none
  if onlyChildren && targetParent.children.length != 1 then none
  let (ancestor, nodeHead, targetHead) ← meeting index (climbLimit index) parent targetParent
  return { node, parent, target, targetParent, ancestor, nodeHead, targetHead }

def pairs (onlyChildren : Bool) (root : Placed) : List Pair :=
  root.walk.filterMap (pair? (Index.ofPlaced root) onlyChildren)

/-- Puts pairs into groups by an id, keeping the order. -/
def groupBy (key : Pair → Int) (found : List Pair) : List (List Pair) :=
  (found.foldl (fun groups pair =>
    Register.put (key pair) ((Register.get? (key pair) groups).getD [] ++ [pair]) groups)
    ([] : Register Int (List Pair))).map (·.2)

structure State where
  root : Placed
  journal : Journal := []

/-- Lets the node of a pair borrow the children that the target has now. -/
def borrow (state : State) (pair : Pair) : State :=
  let node := state.root.current pair.node
  let target := state.root.current pair.target
  { root := state.root.editBeat pair.node.place (Borrowing.borrow (target.children.map Placed.id))
    journal := state.journal ++ Borrowing.report node.forget }

structure Row where
  done : List Placed := []
  placed : List Int := []

def Row.push (row : Row) (node : Placed) : Row :=
  { done := row.done ++ [node], placed := row.placed ++ [node.id] }

/-- Puts a branch down, and after it the branch that refers into it. -/
def putBranch (root : Placed) (follows : Register Int Placed) (row : Row) (branch : Placed) : Row :=
  if row.placed.contains branch.id then row
  else
    let row := row.push branch
    match Register.get? branch.id follows with
    | some partner =>
      if row.placed.contains partner.id then row else row.push (root.current partner)
    | none => row

/-- The first branch that refers into each target branch. -/
def followers (group : List Pair) : Register Int Placed :=
  group.foldl (fun follows pair =>
    if Register.holds pair.targetHead.id follows then follows
    else Register.put pair.targetHead.id pair.nodeHead follows) []

/-- Rearranges the branches below the ancestor of a group, then converts its references. -/
def joinBranches (state : State) (group : List Pair) : State :=
  match group with
  | [] => state
  | first :: _ =>
    let ancestor := state.root.current first.ancestor
    let row := ancestor.children.foldl (putBranch state.root (followers group)) {}
    group.foldl borrow { state with root := state.root.setChildren ancestor.place row.done }

/-- Converts the references between only children. -/
def convertSimple (root : Node) : Node × Nat × Journal :=
  let placed := root.placed
  let found := pairs true placed
  let state := (groupBy (fun pair => pair.ancestor.id) found).foldl joinBranches { root := placed }
  (state.root.forget, found.length, state.journal)

/-- Moves the children with some ids to one end of the list of a parent. -/
def regroup (parentOf memberOf : Pair → Placed) (toFront : Bool) (root : Placed)
    (group : List Pair) : Placed :=
  match group with
  | [] => root
  | first :: _ =>
    let parent := root.current (parentOf first)
    let ids := group.map fun pair => (memberOf pair).id
    let chosen := parent.children.filter fun (child : Placed) => ids.contains child.id
    let others := parent.children.filter fun (child : Placed) => !ids.contains child.id
    root.setChildren parent.place (if toFront then chosen ++ others else others ++ chosen)

/-- Converts the references of nodes that have siblings. -/
def convertCrowded (root : Node) : Node × Nat × Journal :=
  let placed := root.placed
  let found := pairs false placed
  let withTargets := (groupBy (fun pair => pair.targetParent.id) found).foldl
    (regroup Pair.targetParent Pair.target false) placed
  let withNodes := (groupBy (fun pair => pair.parent.id) found).foldl
    (regroup Pair.parent Pair.node true) withTargets
  let state := found.foldl borrow { root := withNodes }
  (state.root.forget, found.length, state.journal)

end Cousin

/-- How many references of each sort were converted. -/
structure Conversions where
  siblings : Nat := 0
  cousins : Nat := 0
  crowdedCousins : Nat := 0
deriving DecidableEq, Repr

namespace Conversions

def total (counts : Conversions) : Nat := counts.siblings + counts.cousins + counts.crowdedCousins

end Conversions

/-- Converts references between siblings, then between cousins, then between crowded cousins. -/
def borrowAll (skipCousins skipCrowded : Bool) (root : Node) : Node × Conversions × Journal :=
  let (root, siblings, journal) := Sibling.convert root
  if skipCousins then (root, { siblings }, journal)
  else
    let (root, cousins, more) := Cousin.convertSimple root
    if skipCrowded then (root, { siblings, cousins }, journal ++ more)
    else
      let (root, crowdedCousins, rest) := Cousin.convertCrowded root
      (root, { siblings, cousins, crowdedCousins }, journal ++ more ++ rest)

end StoryAtlas.Reference
