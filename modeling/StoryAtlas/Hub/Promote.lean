import StoryAtlas.Event.Index
import StoryAtlas.Journal
import StoryAtlas.Unit.Menu

/-!
# Promoting a shallow hub

Other passes may leave the hub of a menu deeper in the tree than a node that refers to it. The two
then change roles: the shallowest such node takes over the children, the old hub becomes a reference
to it, and every reference to the old hub names the new one.
-/

namespace StoryAtlas.Hub

structure Promotion where
  oldId : Int
  newId : Int
  oldDepth : Nat
  newDepth : Nat
deriving DecidableEq, Repr

/-- The shallowest of some nodes, the first of several. -/
def shallowest (index : Index) (nodes : List Placed) : Option Placed :=
  (nodes.mergeSort fun a b => index.depth a ≤ index.depth b).head?

def hubNodes (menu : Menu) (index : Index) : List Placed :=
  (index.nodes.map (·.2)).filter fun (node : Placed) => menu.isHubText (node.beat.text.getD "")

/-- The hub that has the children, and the shallowest node that refers to it. -/
def promotable (menu : Menu) (index : Index) : Option (Placed × Placed) := do
  let nodes := hubNodes menu index
  let owner ← shallowest index
    (nodes.filter fun (node : Placed) => node.beat.ref.isNone && !node.children.isEmpty)
  let copy ← shallowest index (nodes.filter fun (node : Placed) => node.beat.ref == some owner.id)
  if index.depth copy < index.depth owner then some (owner, copy) else none

/-- Exchanges the roles of the two nodes. -/
def exchange (owner copy root : Placed) : Placed :=
  let moved := (root.setChildren copy.place owner.children).editBeat copy.place
    fun beat => { beat with ref := none }
  let emptied := (moved.setChildren owner.place []).editBeat owner.place
    fun beat => { beat with ref := some copy.id }
  emptied.map fun (place, beat) =>
    if beat.ref = some owner.id then (place, { beat with ref := some copy.id }) else (place, beat)

def promote (menu : Option Menu) (unit : String) (root : Node) :
    Node × Option Promotion × Journal :=
  match menu with
  | none => (root, none, [])
  | some menu =>
    let placed := root.placed
    let index := Index.ofPlaced placed
    if menu.usesThreshold then
      match promotable menu index with
      | some (owner, copy) =>
        let promotion : Promotion :=
          { oldId := owner.id
            newId := copy.id
            oldDepth := index.depth owner
            newDepth := index.depth copy }
        ((exchange owner copy placed).forget, some promotion,
          Journal.info ("unit=" ++ unit ++ " promoted hub " ++ toString owner.id ++ "@depth" ++
            toString promotion.oldDepth ++ " -> " ++ toString copy.id ++ "@depth" ++
            toString promotion.newDepth))
      | none => (root, none, [])
    else (root, none, [])

end StoryAtlas.Hub
