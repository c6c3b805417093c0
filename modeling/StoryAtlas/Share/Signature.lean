import StoryAtlas.Event.Beat

/-!
# When subtrees tell the same

Two nodes tell the same when the forests below them agree in everything but the ids. Comparing
signatures first is cheap: a signature holds what a node says, what each child says, and how many
descendants each child has at each depth up to a bound. Nodes that say and tell the same have the
same signature, but not the other way round.
-/

namespace StoryAtlas

namespace Beat

/-- The beat without its identity. -/
def content (beat : Beat) : Beat := { beat with id := 0 }

end Beat

structure ChildSignature where
  text : Option String
  label : Option String
  kind : Kind
  requirements : List String
  effects : List String
  ref : Option Int
  /-- The number of nodes one, two, … steps below. -/
  widths : List Nat
deriving DecidableEq, Repr

structure Signature where
  text : Option String
  label : Option String
  kind : Kind
  childCount : Nat
  children : List ChildSignature
deriving DecidableEq, Repr

namespace Node

def childSignature (depth : Nat) (child : Node) : ChildSignature :=
  let levels := child.levels
  { text := child.value.text
    label := child.value.label
    kind := child.value.kind
    requirements := child.value.requirements
    effects := child.value.effects
    ref := child.value.ref
    widths := (List.range depth).map fun step => (levels[step + 1]?.getD []).length }

def signature (depth : Nat) (node : Node) : Signature :=
  { text := node.value.text
    label := node.value.label
    kind := node.value.kind
    childCount := node.children.length
    children := node.children.map (childSignature depth) }

/-- The forests below two nodes have the same shape and the same content. -/
def sameBelow (first second : Node) : Bool :=
  Rose.sameForest (Rose.mapForest Beat.content first.children)
    (Rose.mapForest Beat.content second.children)

end Node

end StoryAtlas
