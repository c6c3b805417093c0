import StoryAtlas.Event.Beat
import StoryAtlas.Register

/-!
# Places

Passes that move nodes need to know which node is which even if two carry the same id. A placed tree
gives every node its number in the walk of the tree that the pass started from, and a node keeps
this number wherever it is moved to.
-/

namespace StoryAtlas

abbrev Placed := Rose (Nat × Beat)

namespace Node

def placed (root : Node) : Placed := root.enumerate 0

end Node

namespace Placed

def place (node : Placed) : Nat := node.value.1

def beat (node : Placed) : Beat := node.value.2

def id (node : Placed) : Int := node.beat.id

def forget (node : Placed) : Node := node.map Prod.snd

/-- The node at a place, as the tree has it now. -/
def atPlace? (place : Nat) (root : Placed) : Option Placed :=
  root.walk.find? fun (node : Placed) => node.place == place

/-- The tree's version of a node, or the node itself if the tree has lost it. -/
def current (root node : Placed) : Placed := (root.atPlace? node.place).getD node

/-- Changes the beat at a place. -/
def editBeat (place : Nat) (edit : Beat → Beat) (root : Placed) : Placed :=
  root.map fun entry => if entry.1 = place then (entry.1, edit entry.2) else entry

/-- Changes the children at a place. -/
def setChildren (place : Nat) (children : List Placed) (root : Placed) : Placed :=
  root.editWhere (fun entry => entry.1 == place) fun node => node.withChildren children

mutual

/-- Turns the nodes at some places into references without children. -/
def collapse (targets : Register Nat Int) : Placed → Placed
  | .node (place, beat) children =>
    match Register.get? place targets with
    | some target => .node (place, { beat with ref := some target }) []
    | none => .node (place, beat) (collapseForest targets children)

def collapseForest (targets : Register Nat Int) : List Placed → List Placed
  | [] => []
  | node :: nodes => collapse targets node :: collapseForest targets nodes

end

/-- The ids below a node. -/
def descendantIds (node : Placed) : List Int := (Rose.walkForest node.children).map Placed.id

end Placed

end StoryAtlas
