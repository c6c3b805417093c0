import StoryAtlas.Event.Place

/-!
# Who would be orphaned

Before a subtree is dropped it must be known whether a reference from outside points into it. The
guard numbers the nodes in walk order and keeps for each id the span of numbers of its subtree, so
that membership is a comparison; references are pairs of ids that grow as the pass goes on.
-/

namespace StoryAtlas

structure Guard where
  /-- The number of a node in the walk. -/
  entries : Register Int Nat
  /-- The last number of a node's subtree. -/
  exits : Register Int Nat
  /-- Referring id and target id. -/
  refs : List (Int × Int)

namespace Guard

/-- Targets are sought in the order of number and id, from this id on. -/
def leastTarget : Int := -1

def ofPlaced (root : Placed) : Guard where
  entries := Register.ofList (root.walk.map fun (node : Placed) => (node.id, node.place))
  exits := Register.ofList
    (root.climb.map fun (node : Placed) => (node.id, node.place + node.size - 1))
  refs := root.walk.filterMap fun (node : Placed) =>
    node.beat.ref.map fun target => (node.id, target)

def addRef (referrer target : Int) (guard : Guard) : Guard :=
  { guard with refs := guard.refs ++ [(referrer, target)] }

/-- The target has its number in the span. -/
def reaches (guard : Guard) (first last : Nat) (target : Int) : Bool :=
  match Register.get? target guard.entries with
  | some number => (first < number || (number == first && leastTarget ≤ target)) && number ≤ last
  | none => false

/-- The referrer is in the tree and has its number outside the span. -/
def standsOutside (guard : Guard) (first last : Nat) (referrer : Int) : Bool :=
  match Register.get? referrer guard.entries with
  | some number => !(first ≤ number && number ≤ last)
  | none => false

/-- Dropping the children of the node would leave a reference from outside without its target. -/
def wouldOrphan (guard : Guard) (candidate : Int) : Bool :=
  match Register.get? candidate guard.entries, Register.get? candidate guard.exits with
  | some first, some last =>
    guard.refs.any fun (referrer, target) =>
      guard.reaches first last target && guard.standsOutside first last referrer
  | _, _ => false

end Guard

end StoryAtlas
