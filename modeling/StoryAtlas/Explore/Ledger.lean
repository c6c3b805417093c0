import StoryAtlas.Explore.Limits
import StoryAtlas.Journal
import StoryAtlas.Register
import StoryAtlas.Story.Bytecode
import StoryAtlas.Story.Play
import StoryAtlas.Unit.Menu

/-!
# The ledger of an exploration

An exploration numbers its nodes, counts them against the budgets, and remembers which places it has
seen and which menu is the hub. All this is one ledger, which is handed from step to step together
with the play of the story. What does not change during an exploration is its setting.
-/

namespace StoryAtlas.Explore

/-- What an exploration is about. -/
structure Setting where
  unit : String
  script : Script
  limits : Limits := {}
  bytecode : Bytecode := {}
  menu : Option Menu := none
  convergence : Option Convergence := none

/-- The menu that later nodes are compared with. -/
structure HubSnapshot where
  hubId : Int
  labels : List String
  threshold : Float

structure Ledger where
  nextId : Int := 0
  nodeTotal : Int := 0
  /-- Whether the count was started anew for the deep levels. -/
  restarted : Bool := false
  /-- The first node at each place, by the hash of the place. -/
  states : Register String Int := []
  hubId : Option Int := none
  hub : Option HubSnapshot := none
  /-- The last node of each repeated menu. -/
  converged : Register String Int := []
  truncatedBranches : Nat := 0
  depthHits : Nat := 0
  thresholdWarned : Bool := false
  journal : Journal := []

namespace Ledger

def truncated (ledger : Ledger) : Bool := 0 < ledger.truncatedBranches || 0 < ledger.depthHits

def note (entries : Journal) (ledger : Ledger) : Ledger :=
  { ledger with journal := ledger.journal ++ entries }

/-- Takes the next id without counting a node. -/
def takeId (ledger : Ledger) : Int × Ledger :=
  (ledger.nextId, { ledger with nextId := ledger.nextId + 1 })

def countNode (ledger : Ledger) : Ledger := { ledger with nodeTotal := ledger.nodeTotal + 1 }

/-- Takes the next id for a node and counts it. -/
def newNode (ledger : Ledger) : Int × Ledger := ledger.countNode.takeId

/-- Starts the count anew when the deep levels are first entered. -/
def enter (limits : Limits) (depth : Int) (ledger : Ledger) : Ledger :=
  if depth = limits.siblingFirstDepth ∧ !ledger.restarted then
    { ledger with restarted := true, nodeTotal := 0 }
  else ledger

/-- Remembers the first node at a place. -/
def remember (hash : String) (id : Int) (ledger : Ledger) : Ledger :=
  if Register.holds hash ledger.states then ledger
  else { ledger with states := Register.put hash id ledger.states }

end Ledger

/-- Where an exploration stands: the play and the ledger. -/
structure World where
  play : Play
  ledger : Ledger := {}

/-- A step of an exploration. A step that fails keeps what it wrote into the ledger. -/
abbrev Step (α : Type) := World → Except Fault α × World

namespace World

def update (change : Ledger → Ledger) (world : World) : World :=
  { world with ledger := change world.ledger }

def note (entries : Journal) (world : World) : World := world.update (Ledger.note entries)

end World

end StoryAtlas.Explore
