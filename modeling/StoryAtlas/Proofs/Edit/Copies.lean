import StoryAtlas.Proofs.Edit.Copy
import StoryAtlas.Proofs.Edit.Targets

/-!
# The copies that an alteration builds

An alteration that brings drafts builds one copy of them for every node that it selects. References
by number are resolved in each copy alone, and no id is used in two of them: the steps take their
ids one after the other, and a node that is replaced keeps the one it has. At every selected node
that stays in the tree its copy stands as it was built, since no later step comes back to it.
-/

namespace StoryAtlas

namespace Edit

/-- The copy that a step builds in the state that it finds. -/
structure Copy where
  step : Step
  state : State

namespace Copy

def now (copy : Copy) : Working := copy.step.now copy.state

def drafts (copy : Copy) : List DraftTree := copy.step.action.drafts

def nodes (copy : Copy) : List Node := copy.step.action.copy copy.state copy.now

def ids (copy : Copy) : List Int := copy.nodes.flatMap Node.ids

def newIds (copy : Copy) : List Int := (copy.step.remake copy.state).added.flatMap Node.ids

/-- The id of the node, if that is replaced and keeps it. -/
def keptIds (copy : Copy) : List Int :=
  match copy.step.action with
  | .replaceNode _ => [copy.step.node.id]
  | _ => []

/-- The copy says what its drafts say, and only a replaced node has an id from before. -/
structure Faithful (copy : Copy) : Prop where
  toDrafts : FaithfulTo copy.drafts (copy.step.action.lent copy.nodes)
    (copy.step.action.findFor copy.state copy.now) copy.nodes
  ids : copy.ids = copy.keptIds ++ copy.newIds

/-- The copy stands at a node: as the node itself, as its children, or as the last of these. -/
def Stands (copy : Copy) (node : Node) : Prop :=
  match copy.step.action with
  | .replaceNode _ => copy.nodes = [node]
  | .replaceChildren _ => copy.nodes = node.children
  | _ => copy.nodes <:+ node.children

end Copy

end Edit

namespace Alteration

open Edit

end Alteration

namespace Edit

/-! ### The steps that build -/

section Steps

variable {unit : String} {steps : List Step} {state : State} {copy : Copy}

end Steps

/-! ### Where the copies stand -/

section Stands

variable {root : Node} {bound : Int} {done steps : List Step} {state : State} {plan : Plan}
  {copy : Copy} {unit : String}

end Stands

/-! ### One alteration -/

section Alteration

variable {alteration : Alteration} {unit : String} {nextId : Int} {root : Node} {copy : Copy}

end Alteration

end Edit

end StoryAtlas
