import StoryAtlas.Event.Index
import StoryAtlas.Journal
import StoryAtlas.Total

/-!
# References past wrappers

After choices have been separated from their outcomes, a reference may name a wrapper where the
outcome is meant, and after fights have been split, the fight where what follows it is meant. These
passes move such references on. The first goes down through wrappers that have one child each, at
most `hopLimit` of them and one more; the second goes one step and leaves the references of fights
alone.
-/

namespace StoryAtlas.Reference

def hopLimit : Nat := 10

/-- Where a reference ends up, by how many hops, and what is to be reported. -/
structure Descent where
  ref : Int
  hops : Nat := 0
  journal : Journal := []

def reportFork (unit : String) (referrer : Int) (target : Placed) : Journal :=
  Journal.warning ("unit=" ++ unit ++ " ref " ++ toString referrer ++ " -> " ++
    toString target.id ++ " targets a choice node with " ++ toString target.children.length ++
    " children")

def reportHops (unit : String) (referrer : Int) : Journal :=
  Journal.warning ("unit=" ++ unit ++ " ref normalization exceeded hop limit from node " ++
    toString referrer)

/-- Goes down from a target as long as it is a wrapper; the first argument counts the hops left. -/
def descend (unit : String) (referrer : Int) : Nat → Placed → Descent
  | 0, target => { ref := target.id, journal := reportHops unit referrer }
  | left + 1, target =>
    if target.beat.kind = .choice then
      match target.children with
      | [child] =>
        let below := descend unit referrer left child
        { below with hops := below.hops + 1 }
      | _ => { ref := target.id, journal := reportFork unit referrer target }
    else { ref := target.id }

/-- What becomes of the reference of a node that is no wrapper itself. -/
def pastWrappers (unit : String) (index : Index) (node : Placed) : Option Descent := do
  let target ← node.beat.ref
  if node.beat.kind = .choice then none
  else return descend unit node.id (hopLimit + 1) (← index.node? target)

structure Retargeted where
  root : Node
  count : Nat
  journal : Journal := []

def skipWrappers (unit : String) (root : Node) : Retargeted :=
  let placed := root.placed
  let index := Index.ofPlaced placed
  let descents := placed.walk.filterMap (pastWrappers unit index)
  { root := placed.annotate fun node =>
      match pastWrappers unit index node with
      | some descent =>
        if descent.hops = 0 then Placed.beat node
        else { Placed.beat node with ref := some descent.ref }
      | none => Placed.beat node
    count := total (descents.map Descent.hops)
    journal := descents.flatMap Descent.journal }

/-- The dialogue that follows a fight as its only child. -/
def afterFight (node : Node) : Option (Int × Int) :=
  match node with
  | .node beat [.node next _] =>
    if beat.kind = .combat ∧ next.kind = .dialogue then some (beat.id, next.id) else none
  | _ => none

/-- The new reference of a beat, if it has to move. -/
def pastFight (following : Register Int Int) (beat : Beat) : Option Int := do
  let target ← beat.ref
  let next ← Register.get? target following
  if beat.kind = .combat ∨ next = beat.id then none else some next

def reportFight (unit : String) (following : Register Int Int) (beat : Beat) : Journal :=
  match pastFight following beat with
  | some next =>
    Journal.debug ("unit=" ++ unit ++ " ref " ++ toString beat.id ++ ": combat " ++
      toString (beat.ref.getD 0) ++ " -> post-combat " ++ toString next)
  | none => []

def skipFights (unit : String) (root : Node) : Retargeted :=
  let following := Register.ofList (root.walk.filterMap afterFight)
  let beats := root.walk.map Rose.value
  { root := root.map fun beat =>
      match pastFight following beat with
      | some next => { beat with ref := some next }
      | none => beat
    count := (beats.filter fun beat => (pastFight following beat).isSome).length
    journal := beats.flatMap (reportFight unit following) }

end StoryAtlas.Reference
