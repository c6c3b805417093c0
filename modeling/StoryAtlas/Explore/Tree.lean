import StoryAtlas.Explore.Hub
import StoryAtlas.Explore.Knot
import StoryAtlas.Explore.Scene

/-!
# Exploring a story

An exploration visits every branch of a story and makes a tree of what it finds. A visit ends with a
reference where the text or the place was met before, with nothing where the budget is used up, and
with a leaf where there are no choices. Otherwise each choice is taken in turn from the same point
of the play, and the visits behind the choices make the children.

Near the root all choices of a node are taken before the first of them is explored, further down
each is explored as it is taken. A choice that fails is reported and left out. Whatever happens
behind a choice, the play goes on from where the choice was taken.

The number of levels left bounds the recursion; below the last level there is only a marker.
-/

namespace StoryAtlas.Explore

def depthText : String := "[Max depth reached]"

def endText : String := "[End]"

def choiceText : String := "[Choice point]"

/-- A visit yields a tree or drops its branch. -/
abbrev Visitor := Visit → Step (Option Node)

def reportDrain (unit : String) (fault : Fault) : Journal :=
  Journal.warning ("unit=" ++ unit ++ " story runtime error while continuing: " ++ fault.message)

/-- Reads the lines up to the next choices; a fault is reported and ends the stretch. -/
def drain (setting : Setting) (world : World) : Stretch × World :=
  let (drained, play) := world.play.drain setting.script setting.bytecode.rolls
  let world := { world with play := play }
  match drained.fault with
  | some fault => (drained.stretch, world.note (reportDrain setting.unit fault))
  | none => (drained.stretch, world)

/-- Drains the story and looks at where it stands. -/
def look (setting : Setting) (visit : Visit) : Step Scene := fun world =>
  let (stretch, world) := drain setting world
  match world.play.labels setting.script, world.play.location setting.script with
  | .ok labels, .ok location =>
    (.ok (Scene.ofStretch setting.bytecode.lexicon visit.edge stretch labels location), world)
  | .error fault, _ => (.error fault, world)
  | .ok _, .error fault => (.error fault, world)

def reportDepth (setting : Setting) : Journal :=
  Journal.warning ("unit=" ++ setting.unit ++ " reached max depth (" ++
    toString setting.limits.maxDepth ++ "), truncating branch")

def markerBeat (id : Int) : Beat :=
  Beat.settle { id := id, kind := .ending, text := some depthText }

/-- The end of a branch that is too deep. -/
def marker (setting : Setting) : Step (Option Node) := fun world =>
  let noted := world.ledger.note (reportDepth setting)
  let (id, ledger) := { noted with depthHits := noted.depthHits + 1 }.newNode
  (.ok (some (.node (markerBeat id) [])), { world with ledger := ledger })

/-- What the visits behind the choices of a node have in common. -/
structure Frame where
  id : Int
  depth : Int
  stateKey : String
  isHub : Bool
  ancestors : Register String Int

/-- A choice with its number, and the play after it was taken. -/
structure Taken where
  number : Nat
  label : ChoiceLabel
  play : Play

def Frame.edge (frame : Frame) (number : Nat) : String :=
  frame.stateKey ++ "_c" ++ toString number

/-- The menu of a hub whose choices lead straight back, unless the choice is an exit. -/
def Frame.returning (setting : Setting) (frame : Frame) (label : ChoiceLabel) : Option Menu :=
  match setting.menu with
  | some menu =>
    if frame.isHub && !menu.usesThreshold && !menu.isExit label.text then some menu else none
  | none => none

/-- The node of a choice that leads straight back to the hub. -/
def returnBeat (id hubId : Int) (label : ChoiceLabel) (stretch : Stretch) (content : Extract) :
    Beat :=
  Beat.settle {
    id := id
    kind := Kind.ofText content.text false
    text := some content.text
    label := some label.text
    requirements := label.requirements
    effects := content.effects
    continues := some stretch.continues
    ref := some hubId }

/-- Looks ahead behind a choice of a hub; the play stays where it is. -/
def peek (setting : Setting) (frame : Frame) (label : ChoiceLabel) (world : World) :
    Option Node × World :=
  match frame.returning setting label with
  | none => (none, world)
  | some menu =>
    let (stretch, ahead) := drain setting world
    let world := { ahead with play := world.play }
    let content := Extract.ofText setting.bytecode.lexicon stretch.text
    if menu.isExit content.text then (none, world)
    else
      let (id, ledger) := world.ledger.newNode
      (some (.node (returnBeat id frame.id label stretch content) []),
        { world with ledger := ledger })

/-- Gives a child the label and the requirements of its choice. -/
def labelBeat (label : ChoiceLabel) (beat : Beat) : Beat :=
  { beat with
    label := some label.text
    requirements :=
      if !label.requirements.isEmpty then label.requirements
      else if beat.requirements.isEmpty && label.text == Beat.defaultLabel then
        [Beat.defaultRequirement]
      else beat.requirements }

/-- Folds the nodes below a child that offer the hub's menu again. -/
def foldBelow (setting : Setting) (child : Node) (world : World) : Node × World :=
  match world.ledger.hub with
  | some hub =>
    if child.value.id = hub.hubId then (child, world)
    else
      (child.withChildren (foldHubs setting.menu hub child.children),
        world.update (Ledger.warnThreshold setting.unit hub (comparesAny hub child.children)))
  | none => (child, world)

/-- The child behind a choice that was taken. -/
def childBehind (setting : Setting) (next : Visitor) (frame : Frame) (number : Nat)
    (label : ChoiceLabel) : Step (Option Node) := fun world =>
  match peek setting frame label world with
  | (some node, world) => (.ok (some node), world)
  | (none, world) =>
    match next ⟨frame.depth + 1, frame.edge number, frame.ancestors⟩ world with
    | (.error fault, world) => (.error fault, world)
    | (.ok none, world) => (.ok none, world)
    | (.ok (some child), world) =>
      let (folded, world) :=
        foldBelow setting (child.withValue (labelBeat label child.value)) world
      (.ok (some folded), world)

def reportChoice (unit verb : String) (number : Nat) (fault : Fault) : Journal :=
  Journal.warning ("unit=" ++ unit ++ " error " ++ verb ++ " choice " ++ toString number ++ ": " ++
    fault.message)

/-- Explores behind one choice and comes back to the play from which it was taken. -/
def exploreTaken (setting : Setting) (next : Visitor) (frame : Frame) (verb : String)
    (taken : Taken) (world : World) : Option Node × World :=
  match childBehind setting next frame taken.number taken.label
      { world with play := taken.play } with
  | (.ok child, after) => (child, { after with play := world.play })
  | (.error fault, after) =>
    (none,
      { after.note (reportChoice setting.unit verb taken.number fault) with play := world.play })

/-- Takes all choices from the same point, and reports those that cannot be taken. -/
def takeAll (setting : Setting) (play : Play) : List (ChoiceLabel × Nat) → List Taken × Journal
  | [] => ([], [])
  | (label, number) :: choices =>
    let (rest, journal) := takeAll setting play choices
    match play.choose setting.script number with
    | .ok after => (⟨number, label, after⟩ :: rest, journal)
    | .error fault => (rest, reportChoice setting.unit "selecting" number fault ++ journal)

def exploreAll (setting : Setting) (next : Visitor) (frame : Frame) :
    List Taken → World → List Node × World
  | [], world => ([], world)
  | taken :: others, world =>
    let (child, world) := exploreTaken setting next frame "building" taken world
    let (rest, world) := exploreAll setting next frame others world
    (child.toList ++ rest, world)

/-- Takes every choice first and then explores behind each. -/
def siblingFirst (setting : Setting) (next : Visitor) (frame : Frame)
    (choices : List (ChoiceLabel × Nat)) (world : World) : List Node × World :=
  let (taken, journal) := takeAll setting world.play choices
  exploreAll setting next frame taken (world.note journal)

/-- Takes each choice and explores behind it before the next. -/
def depthFirst (setting : Setting) (next : Visitor) (frame : Frame) :
    List (ChoiceLabel × Nat) → World → List Node × World
  | [], world => ([], world)
  | (label, number) :: choices, world =>
    match world.play.choose setting.script number with
    | .error fault =>
      depthFirst setting next frame choices
        (world.note (reportChoice setting.unit "exploring" number fault))
    | .ok after =>
      let (child, world) :=
        exploreTaken setting next frame "exploring" ⟨number, label, after⟩ world
      let (rest, world) := depthFirst setting next frame choices world
      (child.toList ++ rest, world)

def exploreChoices (setting : Setting) (next : Visitor) (frame : Frame) (scene : Scene)
    (world : World) : List Node × World :=
  let choices := scene.choices.zipIdx
  if setting.limits.isShallow frame.depth then siblingFirst setting next frame choices world
  else depthFirst setting next frame choices world

/-- The fields of a node with children, split where a fight or a command stands in the middle. -/
def partsOf (setting : Setting) (scene : Scene) (children : List Node) (nextId : Int) :
    Segment.Parts :=
  let lexicon := setting.bytecode.lexicon
  let continues := scene.stretch.continues
  let raw := scene.stretch.text
  if scene.kind = .combat then
    { Segment.splitFight lexicon raw scene.content.effects children nextId with
      continues := some continues }
  else if scene.kind = .dialogue ∧ setting.limits.splitDialogue then
    Segment.splitDialogue lexicon raw scene.clean scene.content.effects scene.stretch.count children
      nextId
  else
    { text := some scene.clean
      effects := scene.content.effects
      children := children
      continues := some continues }

/-- A node split off takes the next id. -/
def claim (parts : Segment.Parts) (ledger : Ledger) : Ledger :=
  if parts.created.isSome then ledger.newNode.2 else ledger

def orElse (text : Option String) (standard : String) : String := (present text).getD standard

/-- A node whose children repeat the hub's menu. -/
def hubReference (id hubId : Int) (scene : Scene) (parts : Segment.Parts) : Beat :=
  Beat.settle {
    id := id
    kind := if scene.kind = .choice then .dialogue else scene.kind
    text := some (orElse parts.text choiceText)
    effects := parts.effects
    continues := parts.continues
    ref := some hubId }

def fullBeat (id : Int) (scene : Scene) (parts : Segment.Parts) : Beat :=
  Beat.settle {
    id := id
    kind := scene.kind
    text :=
      if scene.kind = .combat ∧ (present parts.text).isNone then none
      else some (orElse parts.text choiceText)
    effects := parts.effects
    continues := parts.continues }

/-- The hub that a node repeats: one with a smaller id, whose menu its children offer. -/
def repeatedHub (setting : Setting) (id : Int) (children : List Node) (ledger : Ledger) :
    Option Int :=
  match ledger.hub with
  | some hub =>
    if !children.isEmpty && hub.hubId < id && matchesHub setting.menu hub children then
      some hub.hubId
    else none
  | none => none

/-- Reports a hopeless threshold if the children are compared with a hub. -/
def warnRepeated (setting : Setting) (id : Int) (children : List Node) (ledger : Ledger) : Ledger :=
  match ledger.hub with
  | some hub =>
    ledger.warnThreshold setting.unit hub (hub.hubId < id && !(labelsOf children).isEmpty)
  | none => ledger

def converge (signature : Option String) (id : Int) (children : List Node) (ledger : Ledger) :
    Ledger :=
  match signature with
  | some key =>
    if children.isEmpty then ledger
    else { ledger with converged := Register.put key id ledger.converged }
  | none => ledger

/-- Makes the node of a scene whose choices have been explored. -/
def finish (setting : Setting) (scene : Scene) (signature : Option String) (id : Int)
    (children : List Node) (ledger : Ledger) : Node × Ledger :=
  let parts := partsOf setting scene children ledger.nextId
  let ledger := warnRepeated setting id parts.children (claim parts ledger)
  match repeatedHub setting id parts.children ledger with
  | some hubId => (.node (hubReference id hubId scene parts) [], ledger)
  | none =>
    (.node (fullBeat id scene parts) parts.children, converge signature id parts.children ledger)

def isHubScene (setting : Setting) (scene : Scene) : Bool :=
  match setting.menu with
  | some menu => menu.isHubText scene.clean
  | none => false

def registerHub (setting : Setting) (scene : Scene) (id : Int) (ledger : Ledger) : Ledger :=
  match setting.menu with
  | some menu =>
    if menu.isHubText scene.clean then ledger.registerHub setting.unit menu id scene.labels
    else ledger
  | none => ledger

/-- Visits what lies behind the choices of a scene, unless the menu is known already. -/
def openScene (setting : Setting) (next : Visitor) (visit : Visit) (scene : Scene) (id : Int)
    (world : World) : Node × World :=
  let isHub := isHubScene setting scene
  let world := world.update (registerHub setting scene id)
  let signature := scene.signature setting isHub
  match signature.bind fun key => Register.get? key world.ledger.converged with
  | some ref => (.node (scene.refBeat id ref) [], world)
  | none =>
    let frame : Frame :=
      { id := id
        depth := visit.depth
        stateKey := scene.stateKey
        isHub := isHub
        ancestors := scene.pathBelow setting.limits visit id }
    let (children, world) := exploreChoices setting next frame scene world
    let (node, ledger) := finish setting scene signature id children world.ledger
    (node, { world with ledger := ledger })

/-- A scene that says nothing and offers nothing. -/
def bareBeat (id : Int) (scene : Scene) : Beat :=
  Beat.settle {
    id := id
    kind := if scene.kind = .combat then .combat else .ending
    effects := scene.content.effects }

/-- A scene without choices. -/
def leafBeat (id : Int) (scene : Scene) : Beat :=
  Beat.settle {
    id := id
    kind := if scene.kind = .dialogue then .ending else scene.kind
    text := some (if scene.clean.isEmpty then endText else scene.clean)
    effects := scene.content.effects
    continues := some scene.stretch.continues }

/-- Makes a node without children out of a beat that needs an id. -/
def single (beat : Int → Beat) (world : World) : Except Fault (Option Node) × World :=
  let (id, ledger) := world.ledger.newNode
  (.ok (some (.node (beat id) [])), { world with ledger := ledger })

/-- Drops a branch for which there is no budget. -/
def dropBranch (setting : Setting) (visit : Visit) (scene : Scene) : Step (Option Node) :=
  fun world =>
    (.ok none, (world.note (scene.reportBudget setting visit.depth)).update fun ledger =>
      { ledger with truncatedBranches := ledger.truncatedBranches + 1 })

/-- Remembers the place of a new node, if places are remembered. -/
def rememberPlace (setting : Setting) (scene : Scene) (id : Int) (ledger : Ledger) : Ledger :=
  if setting.limits.detectRepeatedStates then ledger.remember scene.stateHash id else ledger

/-- Makes the tree of a scene. -/
def settleScene (setting : Setting) (next : Visitor) (visit : Visit) (scene : Scene) :
    Step (Option Node) := fun world =>
  match scene.textLoop setting.limits visit with
  | some ref => single (scene.refBeat · ref) world
  | none =>
  match scene.repeatedState setting.limits world.ledger with
  | some ref => single (scene.refBeat · ref) world
  | none =>
  if setting.limits.budget visit.depth ≤ world.ledger.nodeTotal then
    dropBranch setting visit scene world
  else
  match scene.branching setting branchingCommand with
  | some command =>
    match expand setting command scene.content.effects world.ledger with
    | (.ok node, ledger) => (.ok (some node), { world with ledger := ledger })
    | (.error fault, ledger) => (.error fault, { world with ledger := ledger })
  | none =>
  if scene.clean.isEmpty && scene.choices.isEmpty then single (bareBeat · scene) world
  else
    let (id, ledger) := world.ledger.newNode
    let world := { world with ledger := rememberPlace setting scene id ledger }
    if scene.choices.isEmpty then (.ok (some (.node (leafBeat id scene) [])), world)
    else
      let (node, world) := openScene setting next visit scene id world
      (.ok (some node), world)

/-- One visit, with the visitor of the level below. -/
def visitWith (setting : Setting) (next : Visitor) : Visitor := fun visit world =>
  match look setting visit world with
  | (.ok scene, world) => settleScene setting next visit scene world
  | (.error fault, world) => (.error fault, world)

/-- Visits with so many levels left. -/
def visitLevels (setting : Setting) : Nat → Visitor
  | 0 => fun visit world =>
    marker setting (world.update (Ledger.enter setting.limits visit.depth))
  | levels + 1 => fun visit world =>
    visitWith setting (visitLevels setting levels) visit
      (world.update (Ledger.enter setting.limits visit.depth))

/-- The world before the first visit. -/
def start (setting : Setting) : World := { play := Play.opening setting.script }

/-- Explores a whole story. -/
def run (setting : Setting) : Except Fault (Option Node) × World :=
  visitLevels setting (setting.limits.maxDepth + 1).toNat ⟨0, "", []⟩ (start setting)

end StoryAtlas.Explore
