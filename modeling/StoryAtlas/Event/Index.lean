import StoryAtlas.Event.Place

/-!
# Looking nodes up by id

An index is built in one pass over the levels of a tree. It finds the node with an id, the parent of
a node and its depth. Where an id is repeated, the last node that carries it counts, in the place of
the first.
-/

namespace StoryAtlas

structure Index where
  nodes : Register Int Placed := []
  parents : Register Int Placed := []
  depths : Register Int Nat := []

namespace Index

def noteChild (parent : Placed) (index : Index) (child : Placed) : Index :=
  { index with
    parents := Register.put child.id parent index.parents
    depths :=
      Register.put child.id ((Register.get? parent.id index.depths).getD 0 + 1) index.depths }

def noteNode (index : Index) (node : Placed) : Index :=
  node.children.foldl (noteChild node)
    { index with nodes := Register.put node.id node index.nodes }

def ofPlaced (root : Placed) : Index :=
  root.breadth.foldl noteNode { depths := [(root.id, 0)] }

def ofRoot (root : Node) : Index := ofPlaced root.placed

def node? (index : Index) (id : Int) : Option Placed := Register.get? id index.nodes

def parent? (index : Index) (node : Placed) : Option Placed := Register.get? node.id index.parents

def depth (index : Index) (node : Placed) : Nat := (Register.get? node.id index.depths).getD 0

end Index

end StoryAtlas
