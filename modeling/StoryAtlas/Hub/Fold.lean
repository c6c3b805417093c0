import StoryAtlas.Hub.Group
import StoryAtlas.Journal
import StoryAtlas.Reference.Chase
import StoryAtlas.Text.Quoted
import StoryAtlas.Text.Trim

/-!
# Folding hubs

The members of a hub group collapse onto one of them: the shallowest, of these the one with the most
children, of these the one with the smallest id. The others become references to it. Afterwards
every reference to a collapsed member is followed to its end. A unit that is not to be changed is
only surveyed, and its hubs are reported.
-/

namespace StoryAtlas.Hub

structure Outcome where
  root : Node
  groups : Nat
  refsCreated : Nat := 0
  refsResolved : Nat := 0
  candidates : List String := []

structure State where
  redirects : Register Int Int := []
  removed : List Int := []
  collapsed : Register Nat Int := []

namespace State

def childCount (state : State) (node : Placed) : Nat :=
  if Register.holds node.place state.collapsed then 0 else node.children.length

/-- The member that stays comes first under this order. -/
def before (state : State) (a b : Member) : Bool :=
  let childrenOfA := state.childCount a.node
  let childrenOfB := state.childCount b.node
  if a.depth ≠ b.depth then a.depth < b.depth
  else if childrenOfA ≠ childrenOfB then childrenOfB < childrenOfA
  else a.node.id ≤ b.node.id

def refersOn (state : State) (node : Placed) : Bool :=
  Register.holds node.id state.redirects || state.removed.contains node.id ||
    Register.holds node.place state.collapsed || node.beat.ref.isSome

/-- Collapses one member onto the canonical node. -/
def fold (canonical : Int) (state : State) (member : Member) : State :=
  let node := member.node
  if Register.holds node.id state.redirects ∨ node.id = canonical then state
  else
    let redirected := { state with redirects := Register.put node.id canonical state.redirects }
    if state.removed.contains node.id then redirected
    else
      { redirected with
        removed := state.removed ++ (node.collapse state.collapsed).descendantIds
        collapsed := Register.put node.place canonical state.collapsed }

def foldGroup (state : State) (group : Group) : State :=
  match group.members.mergeSort state.before with
  | canonical :: others =>
    if state.refersOn canonical.node then state
    else others.foldl (fold canonical.node.id) state
  | [] => state

end State

/-- How much of a text is shown in a report. -/
def reportedLength : Nat := 30

def first (group : Group) : Option Member :=
  (group.members.mergeSort (State.before {})).head?

def reportCandidate (unit : String) (group : Group) : Journal :=
  match first group with
  | some member =>
    let text := member.node.beat.text.getD ""
    Journal.info ("unit=" ++ unit ++ " hub candidate id=" ++ toString member.node.id ++ " text=" ++
      Text.quoted (Text.clip reportedLength text) ++ " (" ++ toString group.members.length ++
      " matching nodes, " ++ toString member.node.children.length ++ " children)")
  | none => []

def survey (unit : String) (root : Node) (found : List Group) : Outcome × Journal :=
  ({ root := root
     groups := found.length
     candidates := found.map fun group =>
       ((first group).bind fun member => member.node.beat.text).getD "" },
    found.flatMap (reportCandidate unit))

def run (minChoices : Int) (enabled : Bool) (unit : String) (root : Node) : Outcome × Journal :=
  let placed := root.placed
  let found := (groups minChoices placed).filter fun group => 2 ≤ group.members.length
  if enabled then
    let state := found.foldl State.foldGroup {}
    let created := state.collapsed.length
    if state.redirects.isEmpty then ({ root := root, groups := found.length }, [])
    else
      let (settled, resolved) :=
        Reference.resolvePlaced state.redirects (placed.collapse state.collapsed)
      ({ root := settled.forget
         groups := found.length
         refsCreated := created
         refsResolved := resolved },
        Journal.info ("unit=" ++ unit ++ " hub patterns: " ++ toString created ++
          " refs created across " ++ toString found.length ++ " groups"))
  else survey unit root found

end StoryAtlas.Hub
