import StoryAtlas.Proofs.Rose.Agenda
import StoryAtlas.Proofs.Share.Guard

/-!
# The tour that numbers the nodes

The spans of a guard can be taken on one tour through the tree, with a clock that ticks whenever a
node is entered. A node stays on the stack below its children and is met again when all of them are
done with, which is when the last number of its subtree is known. Who refers to whom is noted on the
way.

What the tour notes over a forest is what is noted for the nodes of the numbered forest: the entries
and the referrers in the order of the walk, and the exits in the order in which the nodes are left.
-/

namespace StoryAtlas

/-- The ids that refer to an id, in the order in which they were noted. -/
abbrev Referrers := Register Int (List Int)

namespace Referrers

def of (target : Int) (referrers : Referrers) : List Int := (Register.get? target referrers).getD []

def note (referrer target : Int) (referrers : Referrers) : Referrers :=
  Register.put target (of target referrers ++ [referrer]) referrers

def noteNode (referrers : Referrers) (id : Int) (beat : Beat) : Referrers :=
  match beat.ref with
  | some target => note id target referrers
  | none => referrers

theorem mem_of_note {referrer target other : Int} {id : Int} {referrers : Referrers} :
    id ∈ of other (note referrer target referrers) ↔
      (id = referrer ∧ other = target) ∨ id ∈ of other referrers := by
  rw [of, note, Register.get?_put]
  by_cases hsame : other = target
  · rw [if_pos hsame, Option.getD_some, List.mem_append, List.mem_singleton, hsame, or_comm]
    simp
  · rw [if_neg hsame]
    simp [hsame, of]

end Referrers

structure Tour where
  clock : Nat := 0
  entries : Register Int Nat := []
  exits : Register Int Nat := []
  referrers : Referrers := []

namespace Tour

def enter (node : Node) (tour : Tour) : Tour :=
  { tour with
    clock := tour.clock + 1
    entries := Register.put node.id tour.clock tour.entries
    referrers := tour.referrers.noteNode node.id node.value }

def leave (node : Node) (tour : Tour) : Tour :=
  { tour with exits := Register.put node.id (tour.clock - 1) tour.exits }

/-- The steps that are left to make: a node that is entered has to be left as well. -/
def steps : List (Node × Bool) → Nat
  | [] => 0
  | (_, true) :: stack => steps stack + 1
  | (node, false) :: stack => steps stack + 2 * node.size

theorem steps_forest (nodes : List Node) (stack : List (Node × Bool)) :
    steps ((nodes.map fun node => (node, false)) ++ stack) =
      steps stack + 2 * Rose.sizeForest nodes := by
  induction nodes with
  | nil => rfl
  | cons node nodes ih =>
      rw [List.map_cons, List.cons_append, steps, ih, Rose.sizeForest]
      omega

/-- Goes on with the node on top of the stack, which is entered or, if it is marked, left. -/
def follow (tour : Tour) : List (Node × Bool) → Tour
  | [] => tour
  | (node, true) :: stack => follow (tour.leave node) stack
  | (node, false) :: stack =>
    follow (tour.enter node)
      ((node.children.map fun child => (child, false)) ++ (node, true) :: stack)
termination_by stack => steps stack
decreasing_by
  · exact Nat.lt_succ_self _
  · rw [steps_forest, steps, steps, Rose.size_eq node]
    omega

def ofRoot (root : Node) : Tour := follow {} [(root, false)]

/-- The tour with what there is to note of a numbered forest. -/
def along (forest : List Placed) (tour : Tour) : Tour where
  clock := tour.clock + (Rose.walkForest forest).length
  entries := (Rose.walkForest forest).foldl
    (fun entries node => Register.put (Placed.id node) (Placed.place node) entries) tour.entries
  exits := (Rose.climbForest forest).foldl
    (fun exits node => Register.put (Placed.id node) (Placed.place node + node.size - 1) exits)
    tour.exits
  referrers := (Rose.walkForest forest).foldl
    (fun referrers node => referrers.noteNode (Placed.id node) (Placed.beat node)) tour.referrers

theorem along_cons (tree : Placed) (forest : List Placed) (tour : Tour) :
    tour.along (tree :: forest) = (tour.along [tree]).along forest := by
  simp only [along, Rose.walkForest, Rose.climbForest, List.append_nil, List.foldl_append,
    List.length_append, Nat.add_assoc]

theorem clock_along_enumerate (node : Node) (tour : Tour) :
    (tour.along [Rose.enumerate tour.clock node]).clock = tour.clock + node.size := by
  rw [along, Rose.walkForest_singleton, Rose.length_walk, Rose.size_enumerate]

theorem follow_forest (nodes : List Node)
    (h : ∀ node ∈ nodes, ∀ tour stack, follow tour ((node, false) :: stack) =
      follow (tour.along [Rose.enumerate tour.clock node]) stack)
    (tour : Tour) (stack : List (Node × Bool)) :
    follow tour ((nodes.map fun node => (node, false)) ++ stack) =
      follow (tour.along (Rose.enumerateForest tour.clock nodes)) stack := by
  induction nodes generalizing tour with
  | nil => rfl
  | cons node nodes ih =>
      rw [List.map_cons, List.cons_append, h node (by simp),
        ih fun other hother => h other (by simp [hother]), clock_along_enumerate,
        Rose.enumerateForest, along_cons _ (Rose.enumerateForest (tour.clock + node.size) nodes)]

/-- A node is entered before its children are, and left after them. -/
theorem along_node (beat : Beat) (children : List Node) (tour : Tour) :
    tour.along [Rose.enumerate tour.clock (.node beat children)] =
      ((tour.enter (.node beat children)).along
        (Rose.enumerateForest (tour.clock + 1) children)).leave (.node beat children) := by
  have hsize : (Rose.enumerate tour.clock (.node beat children)).size =
      (Rose.walkForest (Rose.enumerateForest (tour.clock + 1) children)).length + 1 := by
    rw [← Rose.length_walk]
    rfl
  have hlast : tour.clock + (Rose.enumerate tour.clock (.node beat children)).size - 1 =
      tour.clock + 1 +
        (Rose.walkForest (Rose.enumerateForest (tour.clock + 1) children)).length - 1 := by
    omega
  simp only [along, leave, enter, Rose.walkForest_singleton, Rose.climbForest, List.append_nil,
    Tour.mk.injEq]
  refine ⟨?_, rfl, ?_, rfl⟩
  · rw [Rose.length_walk, hsize]
    omega
  · rw [Rose.enumerate, Rose.climb, List.foldl_append, ← hlast]
    rfl

theorem follow_node (node : Node) (tour : Tour) (stack : List (Node × Bool)) :
    follow tour ((node, false) :: stack) =
      follow (tour.along [Rose.enumerate tour.clock node]) stack := by
  induction node using Rose.induction_on generalizing tour stack with
  | node beat children ih =>
      rw [follow, Rose.children_node, follow_forest children ih, follow, along_node]
      rfl

theorem ofRoot_eq (root : Node) : ofRoot root = along [root.placed] {} := by
  rw [ofRoot, follow_node, follow]
  rfl

end Tour

end StoryAtlas
