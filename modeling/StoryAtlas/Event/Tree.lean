import StoryAtlas.Audit
import StoryAtlas.Event.Payload
import StoryAtlas.Total

/-!
# The tree of an event

An event has a name, a type and an artwork, which are handed on as they came, and at most one tree.
The tree is kept together with the next free id, so that what is added later never takes an id that
is in use, and with the stray values that it was read with.
-/

namespace StoryAtlas

structure EventTree where
  name : String
  kind : Json := .null
  artwork : Json := .null
  root : Option Node := none
  nextId : Int := 0
  strays : Strays := []

namespace EventTree

def size (tree : EventTree) : Nat := (tree.root.map Rose.size).getD 0

def rootPayload (tree : EventTree) : Json :=
  Json.ofOption (Node.toPayloadWith tree.strays) tree.root

def toPayload (tree : EventTree) : Json :=
  .obj [("name", .str tree.name), ("type", tree.kind), ("artwork", tree.artwork),
    ("rootNode", tree.rootPayload)]

def readRoot : Json → Except Fault (Option Node)
  | .null => .ok none
  | payload => (Node.ofPayload payload).map some

/-- Reads an event; the ids that follow are above those of its tree. -/
def ofPayload (payload : Json) : Except Fault EventTree :=
  match payload.get? "name" with
  | some (.str name) => do
    let rootPayload := (payload.get? "rootNode").getD .null
    let root ← readRoot rootPayload
    return {
      name := name
      kind := (payload.get? "type").getD .null
      artwork := (payload.get? "artwork").getD .null
      root := root
      nextId := (root.map Node.freshId).getD 0
      strays := Strays.ofPayload rootPayload }
  | _ => .error .unnamedTree

/-- The links of an event that lead nowhere. -/
def dangling (tree : EventTree) : List Dangling :=
  (tree.root.map (Dangling.inTree tree.name tree.strays)).getD []

/-- What stops the search for them. -/
def auditFault? (tree : EventTree) : Option Fault :=
  tree.root.bind (Dangling.treeFault? tree.strays)

end EventTree

namespace Dangling

def reportTree (found : List Dangling) : Journal :=
  found.flatMap fun link => Journal.warning ("invalid ref " ++ link.describe)

def summary (perTree : List (String × List Dangling)) : Journal :=
  let count := total (perTree.map fun found => found.2.length)
  if perTree.isEmpty then Journal.info "no invalid refs found"
  else
    Journal.warning ("found " ++ toString count ++ " invalid refs across " ++
      toString perTree.length ++ " units: " ++ Text.join ", " (perTree.map (·.1)))

/-- All links that lead nowhere, tree by tree, and the report of them. -/
def inTrees (trees : List EventTree) : List Dangling × Journal :=
  let perTree :=
    (trees.map fun tree => (tree.name, tree.dangling)).filter fun found => !found.2.isEmpty
  (perTree.flatMap (·.2), perTree.flatMap (fun found => reportTree found.2) ++ summary perTree)

/-- What stops the audit of trees, of which each is reported before the next is searched. -/
def faultInTrees? (trees : List EventTree) : Option Fault :=
  trees.findSome? fun tree => tree.auditFault?.or (tree.dangling.findSome? showFault?)

end Dangling

end StoryAtlas
