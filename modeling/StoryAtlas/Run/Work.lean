import StoryAtlas.Event.Tree

/-!
# Work on one tree

A stage takes a tree and does its passes over it. It yields the tree, unless a fault made the stage
give up on it, and in either case what its passes counted and reported until then. Stages are put
together by handing on the tree and adding up the rest, and a tree that was given up stays so.
-/

namespace StoryAtlas

structure Work where
  tree : Except Fault EventTree
  counts : List (String × Nat) := []
  journal : Journal := []

abbrev Stage := EventTree → Work

namespace Work

def ofTree (tree : EventTree) : Work := { tree := .ok tree }

def andThen (work : Work) (stage : Stage) : Work :=
  match work.tree with
  | .error _ => work
  | .ok tree =>
    let next := stage tree
    { tree := next.tree
      counts := work.counts ++ next.counts
      journal := work.journal ++ next.journal }

end Work

namespace Stage

/-- Does nothing. -/
def idle : Stage := Work.ofTree

/-- A stage that is left out of some runs. -/
def onlyIf (condition : Bool) (stage : Stage) : Stage := if condition then stage else idle

def inOrder (stages : List Stage) : Stage := fun tree =>
  stages.foldl Work.andThen (Work.ofTree tree)

/-- A stage that needs a root; an event without one is left as it is. -/
def onRoot (work : EventTree → Node → Work) : Stage := fun tree =>
  match tree.root with
  | some root => work tree root
  | none => Work.ofTree tree

/-- The work of a pass that leaves another root and counts under one name. -/
def counted (tree : EventTree) (name : String) (root : Node) (count : Nat)
    (journal : Journal := []) :
    Work where
  tree := .ok { tree with root := some root }
  counts := [(name, count)]
  journal := journal

/-- As `counted`, for a pass that may fail. -/
def attempted (tree : EventTree) (name : String) : Except Fault (Node × Nat) → Work
  | .ok (root, count) => counted tree name root count
  | .error fault => { tree := .error fault }

end Stage

end StoryAtlas
