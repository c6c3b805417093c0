import StoryAtlas.Event.Beat
import StoryAtlas.Explore.Ledger
import StoryAtlas.Json.Display

/-!
# The hub of a menu

The first node with the hub text becomes the hub; with a threshold, its choices apart from the exits
are remembered. A later node matches the hub if it offers enough of these choices again, or nothing
but all the exits where the menu says so. Nodes below a choice that match are turned into references
to the hub.
-/

namespace StoryAtlas.Explore

/-- The choices of a hub that count: those with a label that is no exit, each once. -/
def hubLabels (menu : Menu) (labels : List String) : List String :=
  (labels.filter fun label => !label.isEmpty && !menu.isExit label).eraseDups

def reportHub (unit : String) (id : Int) (labels : List String) : Journal :=
  Journal.debug ("unit=" ++ unit ++ " captured hub snapshot at id=" ++ toString id ++ ": " ++
    (Json.ofStrings labels).literal)

namespace Ledger

/-- Registers a node with the hub text. -/
def registerHub (unit : String) (menu : Menu) (id : Int) (labels : List String)
    (ledger : Ledger) : Ledger :=
  let known := { ledger with hubId := some (ledger.hubId.getD id) }
  match menu.threshold, ledger.hub with
  | some threshold, none =>
    let counted := hubLabels menu labels
    if counted.isEmpty then known
    else
      { known with hub := some ⟨id, counted, threshold⟩ }.note (reportHub unit id counted)
  | _, _ => known

end Ledger

/-- The labels that some nodes carry, each once. -/
def labelsOf (children : List Node) : List String :=
  (children.filterMap fun child => present child.value.label).eraseDups

/-- The share of the hub's choices found, in hundredths. -/
def matchedShare (hub : HubSnapshot) (labels : List String) : Float :=
  let matched := (hub.labels.filter labels.contains).length
  matched.toFloat / hub.labels.length.toFloat * 100.0

def offersOnlyExits (menu : Option Menu) (labels : List String) : Bool :=
  match menu with
  | some menu =>
    menu.passOnlyExits && labels.all menu.isExit && labels.length == menu.exitPatterns.length
  | none => false

/-- Children with labels that repeat the hub's menu. -/
def matchesHub (menu : Option Menu) (hub : HubSnapshot) (children : List Node) : Bool :=
  let labels := labelsOf children
  !labels.isEmpty && (hub.threshold ≤ matchedShare hub labels || offersOnlyExits menu labels)

def reportThreshold (unit : String) (threshold : Float) : Journal :=
  Journal.warning ("unit=" ++ unit ++ " hubChoiceMatchThreshold (" ++
    Json.floatLiteral threshold ++ "%) is above 100% and will never match")

/-- Reports a threshold that no share can reach, once, when labels are first compared. -/
def Ledger.warnThreshold (unit : String) (hub : HubSnapshot) (compared : Bool)
    (ledger : Ledger) : Ledger :=
  if compared && hub.threshold > 100.0 && !ledger.thresholdWarned then
    { ledger with thresholdWarned := true }.note (reportThreshold unit hub.threshold)
  else ledger

/-- Whether the children of a node are compared with the hub at all. -/
def comparable (hub : HubSnapshot) (node : Node) : Bool :=
  node.value.id != hub.hubId && !(labelsOf node.children).isEmpty

mutual

/-- Turns the topmost matching nodes of a tree into references to the hub. -/
def foldHub (menu : Option Menu) (hub : HubSnapshot) : Node → Node
  | .node beat children =>
    if !children.isEmpty && beat.id != hub.hubId && matchesHub menu hub children then
      .node { beat with ref := some hub.hubId } []
    else .node beat (foldHubs menu hub children)

def foldHubs (menu : Option Menu) (hub : HubSnapshot) : List Node → List Node
  | [] => []
  | node :: nodes => foldHub menu hub node :: foldHubs menu hub nodes

end

/-- Whether folding some trees compares any labels; the trees themselves are looked at first. -/
def comparesAny (hub : HubSnapshot) (nodes : List Node) : Bool :=
  (Rose.walkForest nodes).any (comparable hub)

end StoryAtlas.Explore
