import StoryAtlas.Event.Beat
import StoryAtlas.Journal

/-!
# References between siblings

A node that refers to a sibling with children can show these children as its own: it borrows them by
id and moves to the place right after its sibling. The tree is walked from the root, and each list
of children is rearranged before the nodes in it are looked at.
-/

namespace StoryAtlas.Reference

namespace Borrowing

def report (node : Node) : Journal :=
  if node.children.isEmpty then []
  else Journal.warning ("node " ++ toString node.id ++ " has both ref and children")

/-- The beat with borrowed children instead of a reference. -/
def borrow (childIds : List Int) (beat : Beat) : Beat :=
  { beat with refChildren := some childIds, ref := none }

end Borrowing

namespace Sibling

/-- The last child with an id, and its place in the list. -/
def lastWithId (children : List Node) (id : Int) : Option (Node × Nat) :=
  children.zipIdx.reverse.find? fun (child : Node × Nat) => child.1.id == id

/-- The child at a place refers to another child that has children. -/
def convertible (children : List Node) (child : Node × Nat) : Bool :=
  match child.1.value.ref.bind (lastWithId children) with
  | some (target, place) => place != child.2 && !target.children.isEmpty
  | none => false

structure Row where
  done : List Node := []
  /-- The nodes that wait for the sibling they refer to. -/
  waiting : List Node
  converted : Nat := 0
  journal : Journal := []

/-- Puts a child down and after it the waiting nodes that refer to it. -/
def settle (row : Row) (child : Node) : Row :=
  let joining := row.waiting.filter fun (node : Node) => node.value.ref == some child.id
  let borrowed := joining.map fun (node : Node) =>
    node.withValue (Borrowing.borrow (child.children.map Node.id) node.value)
  { done := row.done ++ child :: borrowed
    waiting := row.waiting.filter fun (node : Node) => node.value.ref != some child.id
    converted := row.converted + joining.length
    journal := row.journal ++ joining.flatMap Borrowing.report }

/-- Rearranges one list of children. -/
def arrange (children : List Node) : Row :=
  let pending := (children.zipIdx.filter (convertible children)).map fun (child, _) => Node.id child
  if pending.isEmpty then { done := children, waiting := [] }
  else
    let waits (node : Node) : Bool := pending.contains node.id
    (children.filter fun child => !waits child).foldl settle { waiting := children.filter waits }

structure Converted where
  nodes : List Node
  count : Nat := 0
  journal : Journal := []

/-- Rearranges every list of children, the given number of levels deep. -/
def convertForest : Nat → List Node → Converted
  | 0, nodes => { nodes := nodes }
  | levels + 1, nodes =>
    nodes.foldl (fun done node =>
      let row := arrange node.children
      let below := convertForest levels row.done
      { nodes := done.nodes ++ [node.withChildren below.nodes]
        count := done.count + row.converted + below.count
        journal := done.journal ++ row.journal ++ below.journal }) { nodes := [] }

/-- Converts the references between siblings everywhere in a tree. -/
def convert (root : Node) : Node × Nat × Journal :=
  let converted := convertForest root.size [root]
  (converted.nodes.headD root, converted.count, converted.journal)

end Sibling

end StoryAtlas.Reference
