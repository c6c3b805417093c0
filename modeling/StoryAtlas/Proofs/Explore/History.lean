import StoryAtlas.Proofs.Explore.Order

/-!
# The history of an exploration

An exploration leaves a tree and a ledger. What it met on the way is written down here beside it: a
stop for every scene that it settled, with the world in which it did so, and a glance for every
choice of a hub behind which it only looked ahead. Below a stop stand the stops behind its choices,
in the order in which they were made, so the history is a forest like the tree itself. It also has
the stops of which the tree shows nothing, be it that the budget was used up or that the nodes were
folded onto the hub.

`Tracing` is the rule for a property of a stretch of an exploration: of the ledger before and after
it, the nodes that it made and the entries that it wrote down. There is a case for each way to
settle a stop and one for putting two stretches together, and then the property holds of every
visit.

`Chronicled` says that the history is no second exploration: it begins with the stop of which the
tree was made, every stop in it was settled by the builder, whose choices the builder explored
exactly if the stop opens, and below an opened stop nothing is left out.
-/

namespace StoryAtlas.Explore

/-- What a visit found, and the world in which that is settled. -/
structure Stop where
  visit : Visit
  scene : Scene
  world : World

namespace Stop

/-- The id of the node that is made of the stop, if it is a new node. -/
def id (stop : Stop) : Int := stop.world.ledger.nextId

def frame (setting : Setting) (stop : Stop) : Frame := frameOf setting stop.visit stop.scene stop.id

/-- The choices of the stop are explored. -/
structure Opens (setting : Setting) (stop : Stop) : Prop where
  choices : stop.scene.choices ≠ []
  noLoop : stop.scene.textLoop setting.limits stop.visit = none
  noState : stop.scene.repeatedState setting.limits stop.world.ledger = none
  budget : stop.world.ledger.nodeTotal < setting.limits.budget stop.visit.depth
  noMenu : knownMenu setting stop.scene stop.world.ledger = none

instance (setting : Setting) (stop : Stop) : Decidable (stop.Opens setting) :=
  decidable_of_iff (stop.scene.choices.isEmpty = false ∧
      stop.scene.textLoop setting.limits stop.visit = none ∧
      stop.scene.repeatedState setting.limits stop.world.ledger = none ∧
      stop.world.ledger.nodeTotal < setting.limits.budget stop.visit.depth ∧
      knownMenu setting stop.scene stop.world.ledger = none)
    ⟨fun ⟨choices, noLoop, noState, budget, noMenu⟩ =>
        ⟨by simpa using choices, noLoop, noState, budget, noMenu⟩,
      fun ⟨choices, noLoop, noState, budget, noMenu⟩ =>
        ⟨by simpa using choices, noLoop, noState, budget, noMenu⟩⟩

def signature (setting : Setting) (stop : Stop) : Option String :=
  stop.scene.signature setting (isHubScene setting stop.scene)

/-- What is made of a stop whose choices have been explored. -/
def finished (setting : Setting) (stop : Stop) (children : List Node) (ledger : Ledger) :
    Node × Ledger :=
  finish setting stop.scene (stop.signature setting) stop.id children ledger

/-- The scene was seen when the story was read up to where its play stands. -/
def Looked (setting : Setting) (stop : Stop) : Prop :=
  ∃ world, look setting stop.visit world = (.ok stop.scene, stop.world)

/-- The ways in which a stop is settled without exploring choices. -/
inductive Closes (setting : Setting) (stop : Stop) : Except Fault (Option Node) × World → Prop
  | textLoop (ref : Int) (found : stop.scene.textLoop setting.limits stop.visit = some ref) :
      Closes setting stop (.ok (some (.node (stop.scene.refBeat stop.id ref) [])),
        { stop.world with ledger := stop.world.ledger.newNode.2 })
  | repeatedState (ref : Int)
      (found : stop.scene.repeatedState setting.limits stop.world.ledger = some ref) :
      Closes setting stop (.ok (some (.node (stop.scene.refBeat stop.id ref) [])),
        { stop.world with ledger := stop.world.ledger.newNode.2 })
  | dropped : Closes setting stop
      (.ok none, (dropBranch setting stop.visit stop.scene stop.world).2)
  | expanded (command : String) (node : Node) (ledger : Ledger)
      (found : stop.scene.branching setting branchingCommand = some command)
      (made : expand setting command stop.scene.content.effects stop.world.ledger =
        (.ok node, ledger)) :
      Closes setting stop (.ok (some node), { stop.world with ledger := ledger })
  | unexpanded (command : String) (fault : Fault) (ledger : Ledger)
      (found : stop.scene.branching setting branchingCommand = some command)
      (failed : expand setting command stop.scene.content.effects stop.world.ledger =
        (.error fault, ledger)) :
      Closes setting stop (.error fault, { stop.world with ledger := ledger })
  | bare : Closes setting stop (.ok (some (.node (bareBeat stop.id stop.scene) [])),
      { stop.world with ledger := stop.world.ledger.newNode.2 })
  | leaf : Closes setting stop (.ok (some (.node (leafBeat stop.id stop.scene) [])),
      remembered setting stop.scene stop.world)
  | converged (ref : Int) (known : knownMenu setting stop.scene stop.world.ledger = some ref) :
      Closes setting stop (.ok (some (.node (stop.scene.refBeat stop.id ref) [])),
        opened setting stop.scene stop.world)

variable {setting : Setting} {next : Visitor} {stop : Stop}

theorem knownMenu_opened (setting : Setting) (scene : Scene) (world : World) :
    knownMenu setting scene (opened setting scene world).ledger =
      knownMenu setting scene world.ledger := by
  unfold knownMenu
  rw [converged_opened]

/-- A stop with choices that is new and within the budget is opened. -/
theorem settleScene_new (choices : stop.scene.choices ≠ [])
    (noLoop : stop.scene.textLoop setting.limits stop.visit = none)
    (noState : stop.scene.repeatedState setting.limits stop.world.ledger = none)
    (budget : stop.world.ledger.nodeTotal < setting.limits.budget stop.visit.depth) :
    settleScene setting next stop.visit stop.scene stop.world =
      (.ok (some (openScene setting next stop.visit stop.scene stop.id
          (remembered setting stop.scene stop.world)).1),
        (openScene setting next stop.visit stop.scene stop.id
          (remembered setting stop.scene stop.world)).2) := by
  have hchoices : stop.scene.choices.isEmpty = false := by simpa using choices
  have hbranching : stop.scene.branching setting branchingCommand = none := by
    simp [Scene.branching, choices]
  rw [settleScene_eq, noLoop, noState]
  dsimp only
  rw [if_neg (Int.not_le.2 budget), settleNew, hbranching]
  dsimp only
  rw [hchoices, Bool.and_false, if_neg Bool.false_ne_true, if_neg Bool.false_ne_true]
  rfl

/-- A stop that opens is finished with what lies behind its choices. -/
theorem settleScene_of_opens (h : stop.Opens setting) :
    settleScene setting next stop.visit stop.scene stop.world =
      (.ok (some (stop.finished setting (explored setting next stop.visit stop.scene stop.world).1
          (explored setting next stop.visit stop.scene stop.world).2.ledger).1),
        { (explored setting next stop.visit stop.scene stop.world).2 with
          ledger := (stop.finished setting
            (explored setting next stop.visit stop.scene stop.world).1
            (explored setting next stop.visit stop.scene stop.world).2.ledger).2 }) := by
  have hmenu : knownMenu setting stop.scene (registerHub setting stop.scene stop.id
      (remembered setting stop.scene stop.world).ledger) = none :=
    (knownMenu_opened setting stop.scene stop.world).trans h.noMenu
  rw [settleScene_new h.choices h.noLoop h.noState h.budget, openScene_unknown hmenu]
  rfl

/-- A stop that does not open is settled without exploring choices. -/
theorem closes_of_not_opens (h : ¬stop.Opens setting) :
    Closes setting stop (settleScene setting next stop.visit stop.scene stop.world) := by
  rw [settleScene_eq]
  cases hloop : stop.scene.textLoop setting.limits stop.visit with
  | some ref => exact .textLoop ref hloop
  | none =>
  cases hstate : stop.scene.repeatedState setting.limits stop.world.ledger with
  | some ref => exact .repeatedState ref hstate
  | none =>
  dsimp only
  split
  · exact .dropped
  next hbudget =>
  unfold settleNew
  split
  · next command hcommand =>
    split
    · next node ledger hexpand => exact .expanded command node ledger hcommand hexpand
    · next fault ledger hexpand => exact .unexpanded command fault ledger hcommand hexpand
  split
  · exact .bare
  split
  · exact .leaf
  next hchoices =>
  have hknown := knownMenu_opened setting stop.scene stop.world
  cases hmenu : knownMenu setting stop.scene stop.world.ledger with
  | none =>
      exact absurd ⟨by simpa using hchoices, hloop, hstate, Int.not_le.1 hbudget, hmenu⟩ h
  | some ref =>
      rw [hmenu] at hknown
      rw [openScene_known hknown]
      exact .converged ref hmenu

/-! ### What a stop does to the ledger -/

/-- Opening a scene may remember its place, and no other. -/
theorem states_opened (setting : Setting) (scene : Scene) (world : World) :
    (opened setting scene world).ledger.states = world.ledger.states ∨
      (opened setting scene world).ledger.states =
        Register.put scene.stateHash world.ledger.nextId world.ledger.states := by
  obtain ⟨states, hremembered, hstates⟩ :=
    rememberPlace_eq setting scene world.ledger.nextId world.ledger.newNode.2
  obtain ⟨hubId, hub, entries, hregistered, -⟩ :=
    registerHub_eq setting scene world.ledger.nextId (remembered setting scene world).ledger
  rw [opened, World.update, hregistered, remembered, hremembered]
  exact hstates

theorem holds_opened (detect : setting.limits.detectRepeatedStates = true) (scene : Scene)
    (world : World) :
    Register.holds scene.stateHash (opened setting scene world).ledger.states := by
  obtain ⟨hubId, hub, entries, hregistered, -⟩ :=
    registerHub_eq setting scene world.ledger.nextId (remembered setting scene world).ledger
  rw [opened, World.update, hregistered]
  change Register.holds scene.stateHash
    (rememberPlace setting scene world.ledger.nextId world.ledger.newNode.2).states
  rw [rememberPlace, if_pos detect, Ledger.remember]
  split
  · assumption
  · exact Register.holds_put.2 (.inl rfl)

theorem remembered_expand {command : String} {effects : List String} {ledger later : Ledger}
    {made : Except Fault Node} (h : expand setting command effects ledger = (made, later)) :
    later.states = ledger.states ∧ later.converged = ledger.converged := by
  obtain ⟨nextId, nodeTotal, hexpand⟩ := expand_eq setting ledger command effects
  rw [h] at hexpand
  cases hexpand
  exact ⟨rfl, rfl⟩

/-- A stop that is closed remembers its place at most, under the id of the node made of it. -/
theorem Closes.states {outcome : Except Fault (Option Node)} {after : World}
    (h : stop.Closes setting (outcome, after)) :
    after.ledger.states = stop.world.ledger.states ∨
      (after.ledger.states =
          Register.put stop.scene.stateHash stop.id stop.world.ledger.states ∧
        ∃ node, outcome = .ok (some node) ∧ node.value.id = stop.id) := by
  cases h with
  | textLoop ref found => exact .inl rfl
  | repeatedState ref found => exact .inl rfl
  | dropped => exact .inl rfl
  | expanded command node ledger found made => exact .inl (remembered_expand made).1
  | unexpanded command fault ledger found failed => exact .inl (remembered_expand failed).1
  | bare => exact .inl rfl
  | leaf =>
      obtain ⟨states, hremembered, hstates⟩ :=
        rememberPlace_eq setting stop.scene stop.world.ledger.nextId stop.world.ledger.newNode.2
      rw [remembered, hremembered]
      exact hstates.imp_right fun hput => ⟨hput, _, rfl, rfl⟩
  | converged ref known =>
      exact (states_opened setting stop.scene stop.world).imp_right fun hput =>
        ⟨hput, _, rfl, rfl⟩

theorem Closes.converged_eq {outcome : Except Fault (Option Node)} {after : World}
    (h : stop.Closes setting (outcome, after)) :
    after.ledger.converged = stop.world.ledger.converged := by
  cases h with
  | textLoop ref found => rfl
  | repeatedState ref found => rfl
  | dropped => rfl
  | expanded command node ledger found made => exact (remembered_expand made).2
  | unexpanded command fault ledger found failed => exact (remembered_expand failed).2
  | bare => rfl
  | leaf =>
      obtain ⟨states, hremembered, -⟩ :=
        rememberPlace_eq setting stop.scene stop.world.ledger.nextId stop.world.ledger.newNode.2
      rw [remembered, hremembered]
      rfl
  | converged ref known => exact converged_opened setting stop.scene stop.world

/-- A finished stop may remember its menu; no place is remembered then. -/
theorem finished_books (setting : Setting) (stop : Stop) (children : List Node) (ledger : Ledger) :
    (stop.finished setting children ledger).2.states = ledger.states ∧
      ((stop.finished setting children ledger).2.converged = ledger.converged ∨
        ∃ key, stop.signature setting = some key ∧
          (stop.finished setting children ledger).2.converged =
            Register.put key stop.id ledger.converged) := by
  obtain ⟨nodeTotal, warned, converged, entries, hledger, hmenu⟩ :=
    ledger_finish setting stop.scene stop.id ledger (stop.signature setting) children
  rw [finished, hledger]
  exact ⟨rfl, hmenu⟩

theorem id_finished (setting : Setting) (stop : Stop) (children : List Node) (ledger : Ledger) :
    (stop.finished setting children ledger).1.value.id = stop.id := by
  obtain ⟨hubId, hnode⟩ | hnode :=
    finish_node setting stop.scene (stop.signature setting) stop.id children ledger
  · rw [finished, hnode]
    rfl
  · rw [finished, hnode]
    rfl

theorem le_nextId_finished (setting : Setting) (stop : Stop) (children : List Node)
    (ledger : Ledger) : ledger.nextId ≤ (stop.finished setting children ledger).2.nextId := by
  rw [finished, nextId_finish]
  split <;> omega

/-- A stop was made where the play shows its labels and its location. -/
theorem Looked.scene_eq (h : stop.Looked setting) :
    ∃ stretch labels location, stop.world.play.labels setting.script = .ok labels ∧
      stop.world.play.location setting.script = .ok location ∧
      stop.scene = Scene.ofStretch setting.bytecode.lexicon stop.visit.edge stretch labels
        location := by
  obtain ⟨world, hlook⟩ := h
  unfold look at hlook
  dsimp only at hlook
  split at hlook
  · next labels location hlabels hlocation =>
    obtain ⟨hscene, hworld⟩ := Prod.mk.inj hlook
    exact ⟨_, labels, location, hworld ▸ hlabels, hworld ▸ hlocation, (Except.ok.inj hscene).symm⟩
  · cases (Prod.mk.inj hlook).1
  · cases (Prod.mk.inj hlook).1

end Stop

inductive Entry where
  /-- A stop with what was made of it. -/
  | settled (stop : Stop) (outcome : Except Fault (Option Node))
  /-- What was read ahead behind a choice of a hub, and the node made of it. -/
  | glanced (stretch : Stretch) (node : Node)

namespace Entry

def stop? : Entry → Option Stop
  | settled stop _ => some stop
  | glanced _ _ => none

def node? : Entry → Option Node
  | settled _ outcome => outcome.toOption.join
  | glanced _ node => some node

end Entry

/-! ### Writing the history -/

/-- The choices that were taken before, each with the world in which it is its turn. -/
def turnsAll (setting : Setting) (next : Visitor) (frame : Frame) :
    List Taken → World → List (Taken × World)
  | [], _ => []
  | taken :: others, world =>
    (taken, world) :: turnsAll setting next frame others
      (exploreTaken setting next frame "building" taken world).2

/-- The choices that are taken in turn, each with the world in which it is its turn. -/
def turnsDeep (setting : Setting) (next : Visitor) (frame : Frame) :
    List (ChoiceLabel × Nat) → World → List (Taken × World)
  | [], _ => []
  | (label, number) :: choices, world =>
    match world.play.choose setting.script number with
    | .error fault =>
      turnsDeep setting next frame choices
        (world.note (reportChoice setting.unit "exploring" number fault))
    | .ok after =>
      (⟨number, label, after⟩, world) :: turnsDeep setting next frame choices
        (exploreTaken setting next frame "exploring" ⟨number, label, after⟩ world).2

/-- The choices of a scene that are explored, each with the world in which it is its turn. -/
def turns (setting : Setting) (next : Visitor) (frame : Frame) (scene : Scene) (world : World) :
    List (Taken × World) :=
  let choices := scene.choices.zipIdx
  if setting.limits.isShallow frame.depth then
    let (taken, journal) := takeAll setting world.play choices
    turnsAll setting next frame taken (world.note journal)
  else turnsDeep setting next frame choices world

/-- What is written down behind a choice, given what the visit behind it writes down. -/
def logTaken (setting : Setting) (frame : Frame) (log : Visit → World → List (Rose Entry))
    (turn : Taken × World) : List (Rose Entry) :=
  let ahead := { turn.2 with play := turn.1.play }
  match peek setting frame turn.1.label ahead with
  | (some node, _) => [.node (.glanced (drain setting ahead).1 node) []]
  | (none, world) => log (frame.behind turn.1.number) world

theorem logTaken_of_some {setting : Setting} {frame : Frame} {node : Node} {ahead now : World}
    {log : Visit → World → List (Rose Entry)} {taken : Taken}
    (h : peek setting frame taken.label { ahead with play := taken.play } = (some node, now)) :
    logTaken setting frame log (taken, ahead) =
      [.node (.glanced (drain setting { ahead with play := taken.play }).1 node) []] := by
  unfold logTaken
  dsimp only
  rw [h]

theorem logTaken_of_none {setting : Setting} {frame : Frame} {ahead now : World}
    {log : Visit → World → List (Rose Entry)} {taken : Taken}
    (h : peek setting frame taken.label { ahead with play := taken.play } = (none, now)) :
    logTaken setting frame log (taken, ahead) = log (frame.behind taken.number) now := by
  unfold logTaken
  dsimp only
  rw [h]

def logBelow (setting : Setting) (next : Visitor) (log : Visit → World → List (Rose Entry))
    (stop : Stop) : List (Rose Entry) :=
  if stop.Opens setting then
    (turns setting next (stop.frame setting) stop.scene
      (opened setting stop.scene stop.world)).flatMap (logTaken setting (stop.frame setting) log)
  else []

/-- What a visit with so many levels left writes down. -/
def history (setting : Setting) : Nat → Visit → World → List (Rose Entry)
  | 0, _, _ => []
  | levels + 1, visit, world =>
    match look setting visit (world.update (Ledger.enter setting.limits visit.depth)) with
    | (.error _, _) => []
    | (.ok scene, world) =>
      let stop : Stop := ⟨visit, scene, world⟩
      let next := visitLevels setting levels
      [.node (.settled stop (settleScene setting next visit scene world).1)
        (logBelow setting next (history setting levels) stop)]

/-- The history of a whole exploration. -/
def chronicle (setting : Setting) : List (Rose Entry) :=
  history setting (setting.limits.maxDepth + 1).toNat ⟨0, "", []⟩ (start setting)

/-- The entries of a history, each before those below it. -/
def entries (forest : List (Rose Entry)) : List Entry := (Rose.walkForest forest).map Rose.value

def stops (forest : List (Rose Entry)) : List Stop := (entries forest).filterMap Entry.stop?

@[simp] theorem entries_nil : entries [] = [] := rfl

theorem entries_append (forest others : List (Rose Entry)) :
    entries (forest ++ others) = entries forest ++ entries others := by
  simp only [entries, Rose.walkForest_append, List.map_append]

theorem entries_node (entry : Entry) (below : List (Rose Entry)) :
    entries [.node entry below] = entry :: entries below := by
  simp only [entries, Rose.walkForest_singleton, Rose.walk_node, List.map_cons, Rose.value_node]

/-! ### One choice in turn after the other -/

/-- What comes of choices that are explored in turn, each in the world that stands beside it. -/
inductive InTurn (setting : Setting) (next : Visitor) (frame : Frame) (play : Play) :
    List (Taken × World) → World → List Node × World → Prop
  | none {world now : World} (noted : Noted world now) :
      InTurn setting next frame play [] world ([], now)
  | turn {later : List (Taken × World)} {taken : Taken} {world now : World}
      {result : List Node × World} (verb : String) (noted : Noted world now)
      (chosen : play.choose setting.script taken.number = .ok taken.play)
      (rest : InTurn setting next frame play later
        (exploreTaken setting next frame verb taken now).2 result) :
      InTurn setting next frame play ((taken, now) :: later) world
        ((exploreTaken setting next frame verb taken now).1.toList ++ result.1, result.2)

variable {setting : Setting} {next : Visitor} {frame : Frame} {play : Play} {world now : World}

theorem InTurn.of_noted {later : List (Taken × World)} {result : List Node × World}
    (h : InTurn setting next frame play later now result) (hnow : Noted world now) :
    InTurn setting next frame play later world result := by
  cases h with
  | none noted => exact .none (hnow.trans noted)
  | turn verb noted chosen rest => exact .turn verb (hnow.trans noted) chosen rest

theorem inTurn_exploreAll (choices : List (ChoiceLabel × Nat)) (world : World) :
    InTurn setting next frame play
      (turnsAll setting next frame (takeAll setting play choices).1 world) world
      (exploreAll setting next frame (takeAll setting play choices).1 world) := by
  induction choices generalizing world with
  | nil => exact .none (.refl world)
  | cons choice choices ih =>
      rw [takeAll]
      dsimp only
      split
      · next after hafter => exact .turn "building" (.refl world) hafter (ih _)
      · exact ih world

theorem inTurn_depthFirst (choices : List (ChoiceLabel × Nat)) (world : World) :
    InTurn setting next frame world.play (turnsDeep setting next frame choices world) world
      (depthFirst setting next frame choices world) := by
  induction choices generalizing world with
  | nil => exact .none (.refl world)
  | cons choice choices ih =>
      obtain ⟨label, number⟩ := choice
      rw [depthFirst, turnsDeep]
      cases hchosen : world.play.choose setting.script number with
      | error fault =>
          exact (ih (world.note (reportChoice setting.unit "exploring" number fault))).of_noted
            ⟨_, rfl⟩
      | ok after =>
          refine .turn "exploring" (.refl world) hchosen ?_
          have hrest := ih
            (exploreTaken setting next frame "exploring" ⟨number, label, after⟩ world).2
          rw [play_exploreTaken] at hrest
          exact hrest

/-- The turns are those in which the choices of a scene are explored. -/
theorem inTurn_exploreChoices (setting : Setting) (next : Visitor) (frame : Frame) (scene : Scene)
    (world : World) :
    InTurn setting next frame world.play (turns setting next frame scene world) world
      (exploreChoices setting next frame scene world) := by
  unfold exploreChoices turns siblingFirst
  dsimp only
  split
  · exact (inTurn_exploreAll _ _).of_noted ⟨_, rfl⟩
  · exact inTurn_depthFirst ..

theorem InTurn.chosen {later : List (Taken × World)} {result : List Node × World}
    (h : InTurn setting next frame play later world result) :
    ∀ turn ∈ later, play.choose setting.script turn.1.number = .ok turn.1.play := by
  induction h with
  | none noted => exact nofun
  | turn verb noted chosen rest ih =>
      intro turn hturn
      rcases List.mem_cons.1 hturn with rfl | hturn
      · exact chosen
      · exact ih turn hturn

/-! ### A rule for stretches of an exploration -/

/-- The two ledgers have the same next id and remember the same places and menus. -/
structure SameBooks (before after : Ledger) : Prop where
  nextId : after.nextId = before.nextId
  states : after.states = before.states
  converged : after.converged = before.converged

namespace SameBooks

variable {before middle after : Ledger}

theorem refl (ledger : Ledger) : SameBooks ledger ledger := ⟨rfl, rfl, rfl⟩

theorem trans (first : SameBooks before middle) (second : SameBooks middle after) :
    SameBooks before after :=
  ⟨second.nextId.trans first.nextId, second.states.trans first.states,
    second.converged.trans first.converged⟩

theorem note (entries : Journal) (ledger : Ledger) : SameBooks ledger (ledger.note entries) :=
  ⟨rfl, rfl, rfl⟩

theorem enter (limits : Limits) (depth : Int) (ledger : Ledger) :
    SameBooks ledger (ledger.enter limits depth) :=
  ⟨Ledger.nextId_enter .., Ledger.states_enter .., Ledger.converged_enter ..⟩

theorem of_noted (h : Noted world now) : SameBooks world.ledger now.ledger := by
  obtain ⟨entries, rfl⟩ := h
  exact .note entries world.ledger

theorem look (setting : Setting) (visit : Visit) (world : World) :
    SameBooks world.ledger (look setting visit world).2.ledger := by
  rw [look_eq, drain_eq]
  exact .note ..

theorem foldBelow (setting : Setting) (child : Node) (world : World) :
    SameBooks world.ledger (foldBelow setting child world).2.ledger := by
  obtain h | ⟨hub, warned, entries, -, -, h⟩ := foldBelow_eq setting child world
  · rw [h]
    exact .refl _
  · rw [h]
    exact ⟨rfl, rfl, rfl⟩

end SameBooks

def handed (setting : Setting) (label : ChoiceLabel) (child : Node) (world : World) :
    Node × World :=
  foldBelow setting (child.withValue (labelBeat label child.value)) world

theorem SameBooks.handed (setting : Setting) (label : ChoiceLabel) (child : Node) (world : World) :
    SameBooks world.ledger (handed setting label child world).2.ledger := .foldBelow ..

/-- What is kept by every stretch of an exploration, of the ledger before, the ledger after, the
nodes made and the entries written down. -/
structure Tracing (setting : Setting) (P : Ledger → Ledger → List Node → List Entry → Prop) :
    Prop where
  idle : ∀ {before after : Ledger}, SameBooks before after → P before after [] []
  append : ∀ {before middle after : Ledger} {nodes others : List Node} {log more : List Entry},
    P before middle nodes log → P middle after others more →
    P before after (nodes ++ others) (log ++ more)
  handed : ∀ {before : Ledger} {world : World} {child : Node} {log : List Entry}
    (label : ChoiceLabel), P before world.ledger [child] log →
    P before (handed setting label child world).2.ledger [(handed setting label child world).1] log
  glanced : ∀ {before after : Ledger} (frame : Frame) (label : ChoiceLabel) (stretch : Stretch),
    SameBooks before.newNode.2 after →
    P before after [glanceNode setting frame label before.nextId stretch]
      [.glanced stretch (glanceNode setting frame label before.nextId stretch)]
  cut : ∀ {before after : Ledger}, SameBooks before.newNode.2 after →
    P before after [.node (markerBeat before.nextId) []] []
  closed : ∀ {stop : Stop} {outcome : Except Fault (Option Node)} {after : World},
    stop.Looked setting → ¬stop.Opens setting → stop.Closes setting (outcome, after) →
    Numbered stop.id after.ledger.nextId (yielded outcome) →
    P stop.world.ledger after.ledger (yielded outcome) [.settled stop outcome]
  opened : ∀ {stop : Stop} {children : List Node} {after : Ledger} {log : List Entry},
    stop.Looked setting → stop.Opens setting → Numbered (stop.id + 1) after.nextId children →
    P (opened setting stop.scene stop.world).ledger after children log →
    P stop.world.ledger (stop.finished setting children after).2
      [(stop.finished setting children after).1]
      (.settled stop (.ok (some (stop.finished setting children after).1)) :: log)

section

variable {P : Ledger → Ledger → List Node → List Entry → Prop} {before middle after : Ledger}
  {nodes : List Node} {written : List Entry} {log : Visit → World → List (Rose Entry)}

theorem Tracing.after_idle (rule : Tracing setting P) (hsame : SameBooks before middle)
    (h : P middle after nodes written) : P before after nodes written :=
  rule.append (rule.idle hsame) h

theorem Tracing.before_idle (rule : Tracing setting P) (h : P before middle nodes written)
    (hsame : SameBooks middle after) : P before after nodes written := by
  have := rule.append h (rule.idle hsame)
  rwa [List.append_nil, List.append_nil] at this

/-- The visitor keeps the property with what is written down beside it. -/
def Keeps (P : Ledger → Ledger → List Node → List Entry → Prop) (next : Visitor)
    (log : Visit → World → List (Rose Entry)) : Prop :=
  ∀ visit world, P world.ledger (next visit world).2.ledger (yielded (next visit world).1)
    (entries (log visit world))

theorem kept_exploreTaken (rule : Tracing setting P) (hnext : Keeps P next log) (verb : String)
    (taken : Taken) (world : World) :
    P world.ledger (exploreTaken setting next frame verb taken world).2.ledger
      (exploreTaken setting next frame verb taken world).1.toList
      (entries (logTaken setting frame log (taken, world))) := by
  unfold exploreTaken childBehind
  obtain ⟨reports, hpeek⟩ | ⟨menu, reports, -, hpeek⟩ :=
    peek_eq setting frame taken.label { world with play := taken.play }
  · rw [logTaken_of_none hpeek, hpeek]
    dsimp only
    have hvisit := hnext (frame.behind taken.number)
      { play := taken.play, ledger := world.ledger.note reports }
    have hstart := rule.after_idle (.note reports world.ledger) hvisit
    rw [Frame.behind] at hstart ⊢
    generalize next _ _ = found at hstart ⊢
    obtain ⟨fault | _ | child, after⟩ := found
    · exact rule.before_idle hstart (.note ..)
    · exact hstart
    · exact rule.handed taken.label hstart
  · rw [logTaken_of_some hpeek, hpeek]
    exact rule.glanced frame taken.label _ ⟨rfl, rfl, rfl⟩

theorem InTurn.kept (rule : Tracing setting P) (hnext : Keeps P next log)
    {later : List (Taken × World)} {result : List Node × World}
    (h : InTurn setting next frame play later world result) :
    P world.ledger result.2.ledger result.1
      (entries (later.flatMap (logTaken setting frame log))) := by
  induction h with
  | none noted => exact rule.idle (.of_noted noted)
  | turn verb noted chosen rest ih =>
      rw [List.flatMap_cons, entries_append]
      exact rule.append
        (rule.after_idle (.of_noted noted) (kept_exploreTaken rule hnext verb _ _)) ih

theorem kept_settleScene (rule : Tracing setting P) {stop : Stop} (hstop : stop.Looked setting)
    (hevolve : Evolving setting next) (hnumbering : Numbering next) (hnext : Keeps P next log) :
    P stop.world.ledger (settleScene setting next stop.visit stop.scene stop.world).2.ledger
      (yielded (settleScene setting next stop.visit stop.scene stop.world).1)
      (.settled stop (settleScene setting next stop.visit stop.scene stop.world).1 ::
        entries (logBelow setting next log stop)) := by
  rw [logBelow]
  by_cases hopens : stop.Opens setting
  · have hchildren : Numbered (opened setting stop.scene stop.world).ledger.nextId
        (explored setting next stop.visit stop.scene stop.world).2.ledger.nextId
        (explored setting next stop.visit stop.scene stop.world).1 :=
      numbered_exploreChoices hevolve hnumbering
    rw [nextId_opened] at hchildren
    rw [if_pos hopens, Stop.settleScene_of_opens hopens]
    exact rule.opened hstop hopens hchildren
      ((inTurn_exploreChoices setting next (stop.frame setting) stop.scene _).kept rule hnext)
  · rw [if_neg hopens]
    exact rule.closed hstop hopens (Stop.closes_of_not_opens hopens)
      (numbered_settleScene hevolve hnumbering)

theorem keeps_visitLevels (rule : Tracing setting P) (levels : Nat) :
    Keeps P (visitLevels setting levels) (history setting levels) := by
  induction levels with
  | zero =>
      intro visit world
      have hcut : P (world.ledger.enter setting.limits visit.depth)
          (marker setting (world.update (Ledger.enter setting.limits visit.depth))).2.ledger
          [.node (markerBeat (world.ledger.enter setting.limits visit.depth).nextId) []] [] :=
        rule.cut ⟨rfl, rfl, rfl⟩
      exact rule.after_idle (.enter ..) hcut
  | succ levels ih =>
      intro visit world
      have hlook := SameBooks.look setting visit
        (world.update (Ledger.enter setting.limits visit.depth))
      have hlooked := (SameBooks.enter setting.limits visit.depth world.ledger).trans hlook
      simp only [visitLevels, visitWith, history]
      generalize hfound : look setting visit _ = found at hlooked
      obtain ⟨fault | scene, after⟩ := found
      · exact rule.idle hlooked
      · have hstop : Stop.Looked setting ⟨visit, scene, after⟩ := ⟨_, hfound⟩
        dsimp only
        rw [entries_node]
        exact rule.after_idle hlooked (kept_settleScene rule hstop
          (evolving_visitLevels setting levels) (numbering_visitLevels setting levels) ih)

/-- What every stretch keeps holds of a whole exploration and its history. -/
theorem kept_run (rule : Tracing setting P) :
    P {} (run setting).2.ledger (yielded (run setting).1) (entries (chronicle setting)) :=
  keeps_visitLevels rule _ ⟨0, "", []⟩ (start setting)

end

/-! ### What stands below a stop -/

/-- The lower stop is found when a choice of the upper one is taken and the story read on. -/
structure Stop.Follows (setting : Setting) (upper : Stop) (number : Nat) (lower : Stop) : Prop where
  visit : lower.visit = (upper.frame setting).behind number
  play : ∃ taken, upper.world.play.choose setting.script number = .ok taken ∧
    lower.world.play = (taken.drain setting.script setting.bytecode.rolls).2

namespace Stop

/-- The levels that the limits leave below the stop. -/
def levels (setting : Setting) (stop : Stop) : Nat :=
  (setting.limits.maxDepth - stop.visit.depth).toNat

/-- How the builder visits what lies behind the choices of the stop. -/
def onward (setting : Setting) (stop : Stop) : Visitor := visitLevels setting (stop.levels setting)

/-- What the builder makes of the stop. -/
def settle (setting : Setting) (stop : Stop) : Except Fault (Option Node) × World :=
  settleScene setting (stop.onward setting) stop.visit stop.scene stop.world

/-- What the builder finds behind the choices of the stop if it explores them. -/
def explore (setting : Setting) (stop : Stop) : List Node × World :=
  explored setting (stop.onward setting) stop.visit stop.scene stop.world

/-- The choices of the stop, each with the world in which it is its turn. -/
def inTurn (setting : Setting) (stop : Stop) : List (Taken × World) :=
  turns setting (stop.onward setting) (stop.frame setting) stop.scene
    (opened setting stop.scene stop.world)

/-- The builder made the outcome of the stop, and it explored the choices exactly if the stop opens.
Below the stop then stands what was met behind each choice in its turn, and else nothing. -/
structure Settled (setting : Setting) (stop : Stop) (outcome : Except Fault (Option Node))
    (below : List (Rose Entry)) : Prop where
  looked : stop.Looked setting
  outcome_eq : outcome = (stop.settle setting).1
  settle_of_opens : stop.Opens setting → stop.settle setting =
    (.ok (some (stop.finished setting (stop.explore setting).1 (stop.explore setting).2.ledger).1),
      { (stop.explore setting).2 with
        ledger := (stop.finished setting (stop.explore setting).1
          (stop.explore setting).2.ledger).2 })
  inTurn_explore : stop.Opens setting → InTurn setting (stop.onward setting) (stop.frame setting)
    stop.world.play (stop.inTurn setting) (opened setting stop.scene stop.world)
    (stop.explore setting)
  below_of_opens : stop.Opens setting → below = (stop.inTurn setting).flatMap
    (logTaken setting (stop.frame setting) (history setting (stop.levels setting)))
  closes_of_not_opens : ¬stop.Opens setting → stop.Closes setting (stop.settle setting)
  below_of_not_opens : ¬stop.Opens setting → below = []

theorem settled_of_looked {stop : Stop} (h : stop.Looked setting) :
    stop.Settled setting (stop.settle setting).1
      (logBelow setting (stop.onward setting) (history setting (stop.levels setting)) stop) where
  looked := h
  outcome_eq := rfl
  settle_of_opens hopens := settleScene_of_opens hopens
  inTurn_explore _ := inTurn_exploreChoices setting _ _ _ (opened setting stop.scene stop.world)
  below_of_opens hopens := if_pos hopens
  closes_of_not_opens hopens := closes_of_not_opens hopens
  below_of_not_opens hopens := if_neg hopens

end Stop

/-- Stops were settled by the builder, and what stands below an entry lies behind a choice of an
opened stop. -/
structure Linked (setting : Setting) (entry : Entry) (below : List (Rose Entry)) : Prop where
  settled : ∀ stop outcome, entry = .settled stop outcome → stop.Settled setting outcome below
  below : ∀ child ∈ below, ∃ upper, entry.stop? = some upper ∧ upper.Opens setting ∧
    ∀ lower, child.value.stop? = some lower → ∃ number, upper.Follows setting number lower

theorem everywhere_glanced {stretch : Stretch} {node : Node} :
    Rose.Everywhere (Linked setting) (.node (.glanced stretch node) []) := by
  refine Rose.everywhere_node.2 ⟨⟨fun stop outcome h => ?_, nofun⟩, nofun⟩
  exact Entry.noConfusion h

/-- The stop of a visit stands where the story was read up to. -/
theorem history_root {levels : Nat} {visit : Visit} {tree : Rose Entry}
    (htree : tree ∈ history setting levels visit world) {stop : Stop}
    (hstop : tree.value.stop? = some stop) :
    stop.visit = visit ∧ SameBooks world.ledger stop.world.ledger ∧
      stop.world.play = (world.play.drain setting.script setting.bytecode.rolls).2 := by
  cases levels with
  | zero => cases htree
  | succ levels =>
      have hlook := look_eq setting visit (world.update (Ledger.enter setting.limits visit.depth))
      have hbooks := SameBooks.look setting visit
        (world.update (Ledger.enter setting.limits visit.depth))
      rw [history] at htree
      generalize look setting visit _ = found at hlook hbooks htree
      obtain ⟨fault | scene, now⟩ := found
      · cases htree
      · rw [List.mem_singleton.1 htree, Rose.value_node, Entry.stop?] at hstop
        obtain rfl := Option.some.inj hstop
        refine ⟨rfl, (SameBooks.enter ..).trans hbooks, ?_⟩
        rw [drain_eq] at hlook
        exact congrArg World.play hlook

theorem logTaken_cases (setting : Setting) (frame : Frame)
    (log : Visit → World → List (Rose Entry)) (taken : Taken) (world : World) :
    (∃ stretch node, logTaken setting frame log (taken, world) =
      [.node (.glanced stretch node) []]) ∨
    ∃ reports, logTaken setting frame log (taken, world) =
      log (frame.behind taken.number)
        { play := taken.play, ledger := world.ledger.note reports } := by
  obtain ⟨reports, hpeek⟩ | ⟨menu, reports, -, hpeek⟩ :=
    peek_eq setting frame taken.label { world with play := taken.play }
  · exact .inr ⟨reports, logTaken_of_none hpeek⟩
  · exact .inl ⟨_, _, logTaken_of_some hpeek⟩

theorem mem_logBelow {levels : Nat} {stop : Stop} {tree : Rose Entry}
    (h : tree ∈ logBelow setting next (history setting levels) stop) :
    stop.Opens setting ∧
      ((∃ stretch node, tree = .node (.glanced stretch node) []) ∨
        ∃ number taken ledger, stop.world.play.choose setting.script number = .ok taken ∧
          tree ∈ history setting levels ((stop.frame setting).behind number)
            { play := taken, ledger := ledger }) := by
  unfold logBelow at h
  split at h
  swap
  · cases h
  next hopens =>
  obtain ⟨⟨taken, turn⟩, hturn, htree⟩ := List.mem_flatMap.1 h
  have hchosen := (inTurn_exploreChoices setting next (stop.frame setting) stop.scene
    (opened setting stop.scene stop.world)).chosen _ hturn
  refine ⟨hopens, ?_⟩
  obtain ⟨stretch, node, hlog⟩ | ⟨reports, hlog⟩ :=
    logTaken_cases setting (stop.frame setting) (history setting levels) taken turn
  · rw [hlog] at htree
    exact .inl ⟨stretch, node, List.mem_singleton.1 htree⟩
  · rw [hlog] at htree
    exact .inr ⟨taken.number, taken.play, _, hchosen, htree⟩

theorem linked_history {levels : Nat} {visit : Visit}
    (hlevels : levels = (setting.limits.maxDepth + 1 - visit.depth).toNat) (world : World) :
    ∀ tree ∈ history setting levels visit world, tree.Everywhere (Linked setting) := by
  induction levels generalizing visit world with
  | zero => exact nofun
  | succ levels ih =>
      intro tree htree
      rw [history] at htree
      generalize hlook : look setting visit _ = found at htree
      obtain ⟨fault | scene, now⟩ := found
      · cases htree
      have hleft : levels = (setting.limits.maxDepth - visit.depth).toNat := by omega
      rw [List.mem_singleton.1 htree]
      refine Rose.everywhere_node.2 ⟨⟨fun stop outcome hstop => ?_, fun child hchild => ?_⟩,
        fun child hchild => ?_⟩
      · obtain ⟨rfl, rfl⟩ := Entry.settled.inj hstop
        have hlooked : Stop.Looked setting ⟨visit, scene, now⟩ := ⟨_, hlook⟩
        rw [hleft]
        exact Stop.settled_of_looked hlooked
      · obtain ⟨hopens, hbehind⟩ := mem_logBelow hchild
        refine ⟨_, rfl, hopens, fun lower hlower => ?_⟩
        obtain ⟨stretch, node, rfl⟩ | ⟨number, taken, ledger, hchosen, htree⟩ := hbehind
        · cases hlower
        · obtain ⟨hvisit, -, hplay⟩ := history_root htree hlower
          exact ⟨number, hvisit, taken, hchosen, hplay⟩
      · obtain ⟨-, ⟨stretch, node, rfl⟩ | ⟨number, taken, ledger, -, htree⟩⟩ := mem_logBelow hchild
        · exact everywhere_glanced
        · refine ih ?_ _ _ htree
          change levels = (setting.limits.maxDepth + 1 - (visit.depth + 1)).toNat
          omega

theorem linked_of_mem_chronicle {tree : Rose Entry} (htree : tree ∈ chronicle setting) :
    tree.Everywhere (Linked setting) :=
  linked_history (congrArg Int.toNat (Int.sub_zero _).symm) _ tree htree

theorem mem_stops {forest : List (Rose Entry)} {stop : Stop} :
    stop ∈ stops forest ↔ ∃ tree ∈ Rose.walkForest forest, tree.value.stop? = some stop := by
  simp only [stops, entries, List.mem_filterMap, List.mem_map]
  constructor
  · rintro ⟨_, ⟨tree, htree, rfl⟩, hstop⟩
    exact ⟨tree, htree, hstop⟩
  · rintro ⟨tree, htree, hstop⟩
    exact ⟨tree.value, ⟨tree, htree, rfl⟩, hstop⟩

theorem stop?_eq_some {entry : Entry} {stop : Stop} (h : entry.stop? = some stop) :
    ∃ outcome, entry = .settled stop outcome := by
  cases entry with
  | settled other outcome => exact ⟨outcome, by rw [Option.some.inj h]⟩
  | glanced stretch node => cases h

theorem mem_stops_of_mem {forest : List (Rose Entry)} {stop : Stop}
    {outcome : Except Fault (Option Node)} (h : .settled stop outcome ∈ entries forest) :
    stop ∈ stops forest :=
  List.mem_filterMap.2 ⟨_, h, rfl⟩

theorem settled_of_mem_stops {forest : List (Rose Entry)} {stop : Stop}
    (h : stop ∈ stops forest) : ∃ outcome, .settled stop outcome ∈ entries forest := by
  obtain ⟨entry, hentry, hstop⟩ := List.mem_filterMap.1 h
  obtain ⟨outcome, rfl⟩ := stop?_eq_some hstop
  exact ⟨outcome, hentry⟩

theorem linked_chronicle {tree : Rose Entry} (htree : tree ∈ Rose.walkForest (chronicle setting)) :
    Linked setting tree.value tree.children := by
  obtain ⟨root, hroot, hwalk⟩ := Rose.mem_walkForest.1 htree
  exact linked_of_mem_chronicle hroot tree hwalk

/-- An exploration settles a first stop, unless it is cut or fails before. -/
theorem run_eq_settle (setting : Setting) :
    (chronicle setting = [] ∧
      (setting.limits.maxDepth < 0 ∨ ∃ fault, (run setting).1 = .error fault)) ∨
    ∃ stop below, chronicle setting = [.node (.settled stop (run setting).1) below] ∧
      run setting = stop.settle setting := by
  unfold chronicle run
  cases hlevels : (setting.limits.maxDepth + 1).toNat with
  | zero => exact .inl ⟨rfl, .inl (by omega)⟩
  | succ levels =>
      simp only [history, visitLevels, visitWith]
      generalize look setting ⟨0, "", []⟩ _ = found
      obtain ⟨fault | scene, now⟩ := found
      · exact .inl ⟨rfl, .inr ⟨fault, rfl⟩⟩
      · have hleft : levels = (setting.limits.maxDepth - 0).toNat := by omega
        rw [hleft]
        exact .inr ⟨⟨⟨0, "", []⟩, scene, now⟩, _, rfl, rfl⟩

/-- The history tells what the builder did: it begins with the stop of which the tree was made, and
what it has of a stop is what the builder made of it. -/
structure Chronicled (setting : Setting) : Prop where
  first : (chronicle setting = [] ∧
      (setting.limits.maxDepth < 0 ∨ ∃ fault, (run setting).1 = .error fault)) ∨
    ∃ stop below, chronicle setting = [.node (.settled stop (run setting).1) below] ∧
      run setting = stop.settle setting
  settled : ∀ tree ∈ Rose.walkForest (chronicle setting), ∀ stop outcome,
    tree.value = .settled stop outcome → stop.Settled setting outcome tree.children

theorem chronicled (setting : Setting) : Chronicled setting where
  first := run_eq_settle setting
  settled _ htree := (linked_chronicle htree).settled

theorem settled_of_mem {stop : Stop} {outcome : Except Fault (Option Node)}
    (h : .settled stop outcome ∈ entries (chronicle setting)) :
    ∃ below, stop.Settled setting outcome below := by
  obtain ⟨tree, htree, hvalue⟩ := List.mem_map.1 h
  exact ⟨tree.children, (linked_chronicle htree).settled stop outcome hvalue⟩

theorem looked_of_mem_stops {stop : Stop} (h : stop ∈ stops (chronicle setting)) :
    stop.Looked setting := by
  obtain ⟨outcome, hentry⟩ := settled_of_mem_stops h
  obtain ⟨below, hsettled⟩ := settled_of_mem hentry
  exact hsettled.looked

/-- A stop is the first one of the exploration, or lies behind a choice of another. -/
theorem first_or_follows {stop : Stop} (h : stop ∈ stops (chronicle setting)) :
    (stop.visit = ⟨0, "", []⟩ ∧ SameBooks {} stop.world.ledger) ∨
      ∃ upper ∈ stops (chronicle setting), ∃ number, upper.Opens setting ∧
        upper.Follows setting number stop := by
  obtain ⟨tree, htree, hstop⟩ := mem_stops.1 h
  obtain ⟨root, hroot, hwalk⟩ := Rose.mem_walkForest.1 htree
  rcases Rose.mem_walk.1 hwalk with rfl | hbelow
  · obtain ⟨hvisit, hbooks, -⟩ := history_root hroot hstop
    exact .inl ⟨hvisit, hbooks⟩
  · obtain ⟨parent, hparent, hchild⟩ := Rose.exists_parent_of_mem_below hbelow
    have hparent' : parent ∈ Rose.walkForest (chronicle setting) :=
      Rose.mem_walkForest.2 ⟨root, hroot, hparent⟩
    obtain ⟨upper, hupper, hopens, hfollows⟩ := (linked_chronicle hparent').below tree hchild
    obtain ⟨number, hnumber⟩ := hfollows stop hstop
    exact .inr ⟨upper, mem_stops.2 ⟨parent, hparent', hupper⟩, number, hopens, hnumber⟩

end StoryAtlas.Explore
