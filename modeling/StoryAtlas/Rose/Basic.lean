/-!
# Rose trees

A rose tree is a value with a list of children. A forest is a list of trees, and every function on
trees comes with its companion on forests, so that both are by recursion on the data.

Trees are seen in two orders. `walk` lists the subtrees with every node before its children and
every child's part before the next child's. `levels` lists them depth by depth, and `breadth` is the
levels one after the other.
-/

namespace StoryAtlas

inductive Rose (α : Type) where
  | node (value : α) (children : List (Rose α))
deriving Repr

namespace Rose

variable {α β : Type}

instance [Inhabited α] : Inhabited (Rose α) := ⟨.node default []⟩

def value : Rose α → α
  | node value _ => value

def children : Rose α → List (Rose α)
  | node _ children => children

@[simp] theorem value_node (a : α) (cs : List (Rose α)) : (node a cs).value = a := rfl

@[simp] theorem children_node (a : α) (cs : List (Rose α)) : (node a cs).children = cs := rfl

@[simp] theorem node_value_children : ∀ t : Rose α, node t.value t.children = t
  | node _ _ => rfl

/-- Keeps the children and changes the value. -/
def withValue (a : α) (t : Rose α) : Rose α := node a t.children

/-- Keeps the value and changes the children. -/
def withChildren (cs : List (Rose α)) (t : Rose α) : Rose α := node t.value cs

mutual

/-- The number of nodes. -/
def size : Rose α → Nat
  | node _ children => sizeForest children + 1

def sizeForest : List (Rose α) → Nat
  | [] => 0
  | t :: ts => size t + sizeForest ts

end

mutual

/-- The subtrees, each before those of its children. -/
def walk : Rose α → List (Rose α)
  | node value children => node value children :: walkForest children

def walkForest : List (Rose α) → List (Rose α)
  | [] => []
  | t :: ts => walk t ++ walkForest ts

end

mutual

/-- The subtrees, each after those of its children. -/
def climb : Rose α → List (Rose α)
  | node value children => climbForest children ++ [node value children]

def climbForest : List (Rose α) → List (Rose α)
  | [] => []
  | t :: ts => climb t ++ climbForest ts

end

mutual

def map (f : α → β) : Rose α → Rose β
  | node value children => node (f value) (mapForest f children)

def mapForest (f : α → β) : List (Rose α) → List (Rose β)
  | [] => []
  | t :: ts => map f t :: mapForest f ts

end

/-- Puts two lists of levels side by side. -/
def joinLevels {γ : Type} : List (List γ) → List (List γ) → List (List γ)
  | [], rest => rest
  | level :: levels, [] => level :: levels
  | level :: levels, other :: others => (level ++ other) :: joinLevels levels others

mutual

/-- The subtrees by depth. -/
def levels : Rose α → List (List (Rose α))
  | node value children => [node value children] :: levelsForest children

def levelsForest : List (Rose α) → List (List (Rose α))
  | [] => []
  | t :: ts => joinLevels (levels t) (levelsForest ts)

end

/-- The subtrees level by level. -/
def breadth (t : Rose α) : List (Rose α) := t.levels.flatten

/-- The subtrees level by level, each with its depth. -/
def breadthWithDepth (t : Rose α) : List (Rose α × Nat) :=
  (t.levels.zipIdx.map fun (level, depth) => level.map fun s => (s, depth)).flatten

/-- The depth of the deepest node. -/
def height (t : Rose α) : Nat := t.levels.length - 1

/-- The number of nodes at a depth below the root. -/
def countAtDepth (t : Rose α) (depth : Nat) : Nat := (t.levels[depth]?.getD []).length

mutual

/-- Numbers the nodes in the order of the walk, so that each has an identity of its own. -/
def enumerate (next : Nat) : Rose α → Rose (Nat × α)
  | node value children => node (next, value) (enumerateForest (next + 1) children)

def enumerateForest (next : Nat) : List (Rose α) → List (Rose (Nat × α))
  | [] => []
  | t :: ts => enumerate next t :: enumerateForest (next + size t) ts

end

mutual

/-- Edits the topmost subtrees that pass the test. -/
def editWhere (test : α → Bool) (edit : Rose α → Rose α) : Rose α → Rose α
  | node value children =>
    if test value then edit (node value children)
    else node value (editForest test edit children)

def editForest (test : α → Bool) (edit : Rose α → Rose α) : List (Rose α) → List (Rose α)
  | [] => []
  | t :: ts => editWhere test edit t :: editForest test edit ts

end

mutual

/-- Drops the subtrees below the root whose value passes the test. -/
def prune (drops : α → Bool) : Rose α → Rose α
  | node value children => node value (pruneForest drops children)

def pruneForest (drops : α → Bool) : List (Rose α) → List (Rose α)
  | [] => []
  | t :: ts => if drops t.value then pruneForest drops ts else prune drops t :: pruneForest drops ts

end

mutual

/-- Computes a new value for every node from its whole subtree. -/
def annotate (f : Rose α → β) : Rose α → Rose β
  | node value children => node (f (node value children)) (annotateForest f children)

def annotateForest (f : Rose α → β) : List (Rose α) → List (Rose β)
  | [] => []
  | t :: ts => annotate f t :: annotateForest f ts

end

mutual

/-- Computes new values in the order of the walk, and stops at the first failure. -/
def attempt {ε : Type} (f : α → Except ε β) : Rose α → Except ε (Rose β)
  | node value children =>
    match f value with
    | .error fault => .error fault
    | .ok changed => (attemptForest f children).map (node changed)

def attemptForest {ε : Type} (f : α → Except ε β) : List (Rose α) → Except ε (List (Rose β))
  | [] => .ok []
  | t :: ts =>
    match attempt f t with
    | .error fault => .error fault
    | .ok changed => (attemptForest f ts).map (changed :: ·)

end

mutual

/-- Equality decided through the values. -/
def same [BEq α] : Rose α → Rose α → Bool
  | node a cs, node b ds => a == b && sameForest cs ds

def sameForest [BEq α] : List (Rose α) → List (Rose α) → Bool
  | [], [] => true
  | t :: ts, u :: us => same t u && sameForest ts us
  | _, _ => false

end

end Rose

end StoryAtlas
