import StoryAtlas.Chance.Marker
import StoryAtlas.Journal
import StoryAtlas.Share.Guard
import StoryAtlas.Share.Signature
import StoryAtlas.Text.Trim

/-!
# Sharing repeated subtrees

A subtree that repeats an earlier one is replaced by a reference to it. The nodes are visited level
by level, so the shallowest occurrence is the one that stays. A node is left alone if it is a choice
wrapper, too small, marked as rolled, or if dropping what is below it would orphan a reference from
outside.
-/

namespace StoryAtlas.Share

structure Options where
  iterations : Int := 2
  minSize : Int := 3
  signatureDepth : Int := 3
deriving DecidableEq, Repr

structure State where
  guard : Guard
  /-- The first node met with each signature, by id. -/
  keepers : Register Signature Int := []
  pruned : List Int := []
  collapsed : Register Nat Int := []
  removed : Nat := 0

def State.duplicates (state : State) : Nat := state.collapsed.length

/-- Whether a node may be shared at all. -/
def eligible (options : Options) (state : State) (node : Placed) : Bool :=
  !state.pruned.contains node.id && !node.children.isEmpty && node.beat.ref.isNone &&
    node.beat.kind != .choice && options.minSize ≤ node.size

def bearsMark (beat : Beat) : Bool :=
  match beat.text with
  | some text => Text.mentions text Roll.marker
  | none => false

/-- Whether a node repeats the one that stays and can go. -/
def redundant (state : State) (node keeper : Placed) : Bool :=
  Node.sameBelow node.forget (keeper.collapse state.collapsed).forget &&
    !bearsMark node.beat && !state.guard.wouldOrphan node.id

def State.drop (state : State) (node : Placed) (keeper : Int) : State :=
  { state with
    guard := state.guard.addRef node.id keeper
    pruned := state.pruned ++ node.descendantIds
    collapsed := Register.put node.place keeper state.collapsed
    removed := state.removed + (node.size - 1) }

def visit (options : Options) (byId : Register Int Placed) (state : State) (node : Placed) :
    State :=
  if eligible options state node then
    let signature := node.forget.signature options.signatureDepth.toNat
    match Register.get? signature state.keepers with
    | none => { state with keepers := Register.put signature node.id state.keepers }
    | some keeper =>
      match Register.get? keeper byId with
      | some first => if redundant state node first then state.drop node keeper else state
      | none => state
  else state

def sweep (options : Options) (root : Placed) : State :=
  let ordered := root.breadth
  let byId := Register.ofList (ordered.map fun (node : Placed) => (node.id, node))
  ordered.foldl (visit options byId) { guard := Guard.ofPlaced root }

structure Outcome where
  root : Node
  duplicates : Nat
  removed : Nat
  /-- The nodes removed by each sweep. -/
  perIteration : List Nat := []

/-- One sweep over the tree. -/
def once (options : Options) (root : Node) : Outcome :=
  let placed := root.placed
  let state := sweep options placed
  { root := (placed.collapse state.collapsed).forget
    duplicates := state.duplicates
    removed := state.removed }

def report (unit : String) (iteration : Nat) (found : Outcome) : Journal :=
  Journal.debug ("unit=" ++ unit ++ " dedup iteration " ++ toString iteration ++ ": " ++
    toString found.duplicates ++ " duplicates, " ++ toString found.removed ++ " nodes removed")

/-- Sweeps until nothing is removed, at most as often as said. -/
def sweeps (options : Options) (unit : String) : Nat → Nat → Node → Outcome × Journal
  | 0, _, root => ({ root := root, duplicates := 0, removed := 0 }, [])
  | left + 1, iteration, root =>
    let first := once options root
    let entry := report unit iteration first
    if first.removed = 0 then ({ first with perIteration := [0] }, entry)
    else
      let (rest, journal) := sweeps options unit left (iteration + 1) first.root
      ({ root := rest.root
         duplicates := first.duplicates + rest.duplicates
         removed := first.removed + rest.removed
         perIteration := first.removed :: rest.perIteration }, entry ++ journal)

def run (options : Options) (unit : String) (root : Node) : Outcome × Journal :=
  sweeps options unit (max 1 options.iterations).toNat 1 root

end StoryAtlas.Share
