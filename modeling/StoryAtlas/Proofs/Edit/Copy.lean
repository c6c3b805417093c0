import StoryAtlas.Proofs.Edit.Bare
import StoryAtlas.Proofs.Edit.Fresh
import StoryAtlas.Proofs.Edit.Frame
import StoryAtlas.Proofs.Split.Contract

/-!
# Copies of drafts

What an action builds for a node is a copy of its drafts: trees of the same shapes, in which every
node says what its draft says. What a node refers to is its draft's own reference, or for a source
the last node of the same copy that is a target of its number, or for a text what the search finds.
A replaced child may borrow the children of the first new child that has any, and this is the only
thing in which a copy says other than its draft.
-/

namespace StoryAtlas

namespace Edit

/-! ### What an action copies -/

namespace Action

/-- The copy of its drafts that an action puts in: what it adds, and for a replacement the node
itself with what is added to it. -/
def copy (state : State) (now : Working) (action : Action) : List Node :=
  match action with
  | replaceNode _ =>
    [.node ((action.remake state now).change now.beat) (action.remake state now).added]
  | _ => (action.remake state now).added

def lent (nodes : List Node) : Action → Option (List Int)
  | replaceChildren _ => firstChildIds nodes
  | _ => none

def findFor (state : State) (now : Working) (action : Action) (text : String) : Option Int :=
  (searchNode text false (action.excluded now) state.root).map fun node => node.beat.id

end Action

def lend (ids : Option (List Int)) (tree : DraftTree) : DraftTree :=
  if tree.value.borrowsFirst then
    tree.withValue { tree.value with refChildren := ids.or tree.value.refChildren }
  else tree

/-- The id of the last node whose draft is a target of a number. -/
def lastTarget (drafts : List DraftTree) (nodes : List Node) (number : Int) : Option Int :=
  ((((Rose.walkForest drafts).zip (Rose.walkForest nodes)).filter fun pair =>
    pair.1.value.refTarget = some number).map fun pair => Node.id pair.2).getLast?

/-- A beat that says what a draft says and refers to what the draft asks for. -/
structure Copied (target : Int → Option Int) (search : String → Option Int) (draft : Draft)
    (beat : Beat) : Prop where
  told : beat.told = draft.told
  source : ∀ number, draft.refSource = some number → beat.ref = target number
  search : ∀ text, draft.refCreate = some text → beat.ref = search text
  plain : draft.refSource = none → draft.refCreate = none → beat.ref = draft.ref

/-- Nodes that are a copy of drafts, each reference by number being resolved among them. -/
structure FaithfulTo (drafts : List DraftTree) (lent : Option (List Int))
    (search : String → Option Int) (nodes : List Node) : Prop where
  copied : List.Forall₂ (Rose.Matched (Copied (lastTarget drafts nodes) search))
    (drafts.map (lend lent)) nodes
  bare : ∀ node ∈ nodes, Node.Bare node

/-! ### One node -/

section Node

variable {targets : Register Int Int} {excluded : List Int} {root : Working}
  {target : Int → Option Int} {search : String → Option Int} {tree : DraftTree} {node : Node}

end Node

/-! ### What an action brings -/

section Brought

variable {action : Action} {state : State} {now : Working} {trees : List DraftTree}

namespace Action

end Action

end Brought

end Edit

end StoryAtlas
