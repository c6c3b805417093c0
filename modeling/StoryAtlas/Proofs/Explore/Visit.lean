import Mathlib.Data.List.Enum
import StoryAtlas.Proofs.Explore.Ledger

/-!
# What a visit can do

An invariant of an exploration is proved visit by visit. The two relations here say once all that
can happen: `Settles` lists the ways in which the tree of a scene is made, and `Explores` the ways
in which one choice is explored. Behind both stands nothing but the definitions, so each invariant
is a case analysis over their constructors.

The children of a node are explored one choice after the other, near the root in two rounds and
further down in one. `exploreChoices_rule` is the loop rule for both orders: what holds before the
first choice and is kept by each choice, explored or not, holds after the last.
-/

namespace StoryAtlas.Explore

variable {setting : Setting} {next : Visitor} {visit : Visit} {scene : Scene} {frame : Frame}
  {world : World}

/-! ### Looking -/

def drainReport (setting : Setting) (world : World) : Journal :=
  match (world.play.drain setting.script setting.bytecode.rolls).1.fault with
  | some fault => reportDrain setting.unit fault
  | none => []

theorem drain_eq (setting : Setting) (world : World) :
    drain setting world =
      ((world.play.drain setting.script setting.bytecode.rolls).1.stretch,
        { play := (world.play.drain setting.script setting.bytecode.rolls).2
          ledger := world.ledger.note (drainReport setting world) }) := by
  unfold drain drainReport
  generalize world.play.drain setting.script setting.bytecode.rolls = result
  obtain ⟨⟨stretch, used, fault⟩, play⟩ := result
  cases fault with
  | none => simp only [Ledger.note, List.append_nil]
  | some fault => rfl

theorem look_eq (setting : Setting) (visit : Visit) (world : World) :
    (look setting visit world).2 = (drain setting world).2 := by
  unfold look
  dsimp only
  split <;> rfl

theorem look_eq_ok {scene : Scene} (h : (look setting visit world).1 = .ok scene) :
    ∃ labels location,
      (drain setting world).2.play.labels setting.script = .ok labels ∧
      scene = Scene.ofStretch setting.bytecode.lexicon visit.edge (drain setting world).1 labels
        location := by
  unfold look at h
  dsimp only at h
  split at h
  · next labels location hlabels hlocation =>
    exact ⟨labels, location, hlabels, (Except.ok.inj h).symm⟩
  · cases h
  · cases h

/-! ### Settling a scene -/

/-- The world in which a new node has been numbered and its place remembered. -/
def remembered (setting : Setting) (scene : Scene) (world : World) : World :=
  { world with
    ledger := rememberPlace setting scene world.ledger.nextId world.ledger.newNode.2 }

/-- The world in which the choices of a new node are explored. -/
def opened (setting : Setting) (scene : Scene) (world : World) : World :=
  (remembered setting scene world).update (registerHub setting scene world.ledger.nextId)

def frameOf (setting : Setting) (visit : Visit) (scene : Scene) (id : Int) : Frame where
  id := id
  depth := visit.depth
  stateKey := scene.stateKey
  isHub := isHubScene setting scene
  ancestors := scene.pathBelow setting.limits visit id

def explored (setting : Setting) (next : Visitor) (visit : Visit) (scene : Scene) (world : World) :
    List Node × World :=
  exploreChoices setting next (frameOf setting visit scene world.ledger.nextId) scene
    (opened setting scene world)

/-- The ways in which the tree of a scene is made. -/
inductive Settles (setting : Setting) (next : Visitor) (visit : Visit) (scene : Scene)
    (world : World) : Except Fault (Option Node) × World → Prop
  | textLoop (ref : Int) (found : scene.textLoop setting.limits visit = some ref) :
      Settles setting next visit scene world
        (.ok (some (.node (scene.refBeat world.ledger.nextId ref) [])),
          { world with ledger := world.ledger.newNode.2 })
  | repeatedState (ref : Int) (noLoop : scene.textLoop setting.limits visit = none)
      (found : scene.repeatedState setting.limits world.ledger = some ref) :
      Settles setting next visit scene world
        (.ok (some (.node (scene.refBeat world.ledger.nextId ref) [])),
          { world with ledger := world.ledger.newNode.2 })
  | dropped (spent : setting.limits.budget visit.depth ≤ world.ledger.nodeTotal) :
      Settles setting next visit scene world (.ok none, (dropBranch setting visit scene world).2)
  | expanded (command : String) (node : Node) (ledger : Ledger)
      (found : scene.branching setting branchingCommand = some command)
      (made : expand setting command scene.content.effects world.ledger = (.ok node, ledger)) :
      Settles setting next visit scene world (.ok (some node), { world with ledger := ledger })
  | unexpanded (command : String) (fault : Fault) (ledger : Ledger)
      (found : scene.branching setting branchingCommand = some command)
      (failed : expand setting command scene.content.effects world.ledger = (.error fault, ledger)) :
      Settles setting next visit scene world (.error fault, { world with ledger := ledger })
  | bare (silent : scene.clean.isEmpty) (noChoices : scene.choices = []) :
      Settles setting next visit scene world
        (.ok (some (.node (bareBeat world.ledger.nextId scene) [])),
          { world with ledger := world.ledger.newNode.2 })
  | leaf (noChoices : scene.choices = []) :
      Settles setting next visit scene world
        (.ok (some (.node (leafBeat world.ledger.nextId scene) [])),
          remembered setting scene world)
  | converged (key : String) (ref : Int)
      (signed : scene.signature setting (isHubScene setting scene) = some key)
      (found : Register.get? key (opened setting scene world).ledger.converged = some ref) :
      Settles setting next visit scene world
        (.ok (some (.node (scene.refBeat world.ledger.nextId ref) [])),
          opened setting scene world)
  | opened (noLoop : scene.textLoop setting.limits visit = none)
      (noState : scene.repeatedState setting.limits world.ledger = none)
      (budget : world.ledger.nodeTotal < setting.limits.budget visit.depth)
      (children : List Node) (after : World)
      (found : explored setting next visit scene world = (children, after)) :
      Settles setting next visit scene world
        (.ok (some (finish setting scene (scene.signature setting (isHubScene setting scene))
            world.ledger.nextId children after.ledger).1),
          { after with
            ledger := (finish setting scene (scene.signature setting (isHubScene setting scene))
              world.ledger.nextId children after.ledger).2 })

theorem settles_openScene (noLoop : scene.textLoop setting.limits visit = none)
    (noState : scene.repeatedState setting.limits world.ledger = none)
    (budget : world.ledger.nodeTotal < setting.limits.budget visit.depth) :
    Settles setting next visit scene world
      (.ok (some (openScene setting next visit scene world.ledger.nextId
          (remembered setting scene world)).1),
        (openScene setting next visit scene world.ledger.nextId
          (remembered setting scene world)).2) := by
  unfold openScene
  dsimp only
  split
  · next ref hbind =>
    obtain ⟨key, hkey, href⟩ := Option.bind_eq_some_iff.1 hbind
    exact .converged key ref hkey href
  · exact .opened noLoop noState budget _ _ rfl

theorem settles (setting : Setting) (next : Visitor) (visit : Visit) (scene : Scene)
    (world : World) :
    Settles setting next visit scene world (settleScene setting next visit scene world) := by
  unfold settleScene
  split
  · next ref href => exact .textLoop ref href
  next noLoop =>
  split
  · next ref href => exact .repeatedState ref noLoop href
  next noState =>
  split
  · next spent => exact .dropped spent
  next unspent =>
  split
  · next command hcommand =>
    split
    · next node ledger hexpand => exact .expanded command node ledger hcommand hexpand
    · next fault ledger hexpand => exact .unexpanded command fault ledger hcommand hexpand
  split
  · next silent =>
    obtain ⟨hclean, hchoices⟩ := Bool.and_eq_true_iff.1 silent
    exact .bare hclean (List.isEmpty_iff.1 hchoices)
  dsimp only
  split
  · next noChoices => exact .leaf (List.isEmpty_iff.1 noChoices)
  · exact settles_openScene noLoop noState (Int.not_le.1 unspent)

theorem branching_ne_some (noknots : setting.bytecode.knots = []) (command : String) :
    scene.branching setting branchingCommand ≠ some command := by
  intro hcommand
  simp [Scene.branching, noknots] at hcommand

/-! ### Exploring a choice -/

def Frame.behind (frame : Frame) (number : Nat) : Visit :=
  ⟨frame.depth + 1, frame.edge number, frame.ancestors⟩

/-- The ways in which a choice that was taken is explored. -/
inductive Explores (setting : Setting) (next : Visitor) (frame : Frame) (verb : String)
    (taken : Taken) (world : World) : Option Node × World → Prop
  | returned (menu : Menu) (stretch : Stretch) (content : Extract) (entries : Journal)
      (found : frame.returning setting taken.label = some menu) :
      Explores setting next frame verb taken world
        (some (.node (returnBeat world.ledger.nextId frame.id taken.label stretch content) []),
          { world with ledger := (world.ledger.note entries).newNode.2 })
  | failed (entries : Journal) (fault : Fault) (after : World)
      (found : next (frame.behind taken.number)
        { play := taken.play, ledger := world.ledger.note entries } = (.error fault, after)) :
      Explores setting next frame verb taken world
        (none,
          { world with
            ledger := after.ledger.note (reportChoice setting.unit verb taken.number fault) })
  | dropped (entries : Journal) (after : World)
      (found : next (frame.behind taken.number)
        { play := taken.play, ledger := world.ledger.note entries } = (.ok none, after)) :
      Explores setting next frame verb taken world (none, { world with ledger := after.ledger })
  | built (entries : Journal) (child : Node) (after : World)
      (found : next (frame.behind taken.number)
        { play := taken.play, ledger := world.ledger.note entries } = (.ok (some child), after)) :
      Explores setting next frame verb taken world
        (some (foldBelow setting (child.withValue (labelBeat taken.label child.value)) after).1,
          { world with
            ledger := (foldBelow setting (child.withValue (labelBeat taken.label child.value))
              after).2.ledger })

/-- The node of a choice behind which an exploration only looked ahead. -/
def glanceNode (setting : Setting) (frame : Frame) (label : ChoiceLabel) (id : Int)
    (stretch : Stretch) : Node :=
  .node (returnBeat id frame.id label stretch
    (Extract.ofText setting.bytecode.lexicon stretch.text)) []

/-- Looking ahead makes the node that leads back, or leaves nothing but reports. -/
theorem peek_eq (setting : Setting) (frame : Frame) (label : ChoiceLabel) (world : World) :
    (∃ entries, peek setting frame label world =
      (none, { world with ledger := world.ledger.note entries })) ∨
    ∃ menu entries, frame.returning setting label = some menu ∧
      peek setting frame label world =
        (some (glanceNode setting frame label world.ledger.nextId (drain setting world).1),
          { world with ledger := (world.ledger.note entries).newNode.2 }) := by
  unfold peek
  split
  · exact .inl ⟨[], by simp only [Ledger.note, List.append_nil]⟩
  next menu hmenu =>
  rw [drain_eq]
  dsimp only
  split
  · exact .inl ⟨_, rfl⟩
  · exact .inr ⟨menu, _, hmenu, rfl⟩

theorem explores (setting : Setting) (next : Visitor) (frame : Frame) (verb : String)
    (taken : Taken) (world : World) :
    Explores setting next frame verb taken world
      (exploreTaken setting next frame verb taken world) := by
  unfold exploreTaken childBehind
  obtain ⟨entries, hpeek⟩ | ⟨menu, entries, hmenu, hpeek⟩ :=
    peek_eq setting frame taken.label { world with play := taken.play }
  · rw [hpeek]
    dsimp only
    generalize hnext : next _ _ = result
    obtain ⟨fault | _ | child, after⟩ := result
    · exact .failed entries fault after hnext
    · exact .dropped entries after hnext
    · exact .built entries child after hnext
  · rw [hpeek]
    exact .returned menu _ _ entries hmenu

theorem play_exploreTaken (setting : Setting) (next : Visitor) (frame : Frame) (verb : String)
    (taken : Taken) (world : World) :
    (exploreTaken setting next frame verb taken world).2.play = world.play := by
  have h := explores setting next frame verb taken world
  generalize exploreTaken setting next frame verb taken world = result at h ⊢
  cases h <;> rfl

/-! ### What a visit never takes back -/

def Evolving (setting : Setting) (next : Visitor) : Prop :=
  ∀ visit world, Evolves setting world.ledger (next visit world).2.ledger

theorem Evolving.of_eq (hnext : Evolving setting next) {visit : Visit} {world after : World}
    {result : Except Fault (Option Node)} (h : next visit world = (result, after)) :
    Evolves setting world.ledger after.ledger := by
  have := hnext visit world
  rwa [h] at this

theorem evolves_foldBelow (setting : Setting) (child : Node) (world : World) :
    Evolves setting world.ledger (foldBelow setting child world).2.ledger := by
  unfold foldBelow
  split
  · split
    · exact .refl ..
    · exact .warnThreshold ..
  · exact .refl ..

theorem evolves_exploreTaken (hnext : Evolving setting next) (verb : String) (taken : Taken) :
    Evolves setting world.ledger
      (exploreTaken setting next frame verb taken world).2.ledger := by
  have h := explores setting next frame verb taken world
  have noted : ∀ entries, Evolves setting world.ledger (world.ledger.note entries) :=
    fun entries => .note setting entries world.ledger
  generalize exploreTaken setting next frame verb taken world = result at h ⊢
  cases h with
  | returned menu stretch content entries found =>
      exact (noted entries).trans (.of_eq (List.Subset.refl _) rfl rfl rfl)
  | failed entries fault after found =>
      exact ((noted entries).trans (hnext.of_eq found)).trans (.note ..)
  | dropped entries after found => exact (noted entries).trans (hnext.of_eq found)
  | built entries child after found =>
      exact ((noted entries).trans (hnext.of_eq found)).trans (evolves_foldBelow ..)

/-! ### Exploring all choices -/

/-- A loop over the choices with the number of choices done, the nodes made and the world. -/
structure LoopRule (setting : Setting) (next : Visitor) (frame : Frame) (labels : List ChoiceLabel)
    (world : World) (K : Nat → List Node → World → Prop) : Prop where
  start : K 0 [] world
  /-- A report changes nothing. -/
  noted : ∀ done nodes now entries, K done nodes now → K done nodes (now.note entries)
  /-- A choice that could not be taken was reported. -/
  skipped : ∀ done nodes now, K done nodes now →
    (∃ verb fault, reportChoice setting.unit verb done fault ⊆ now.ledger.journal) →
    K (done + 1) nodes now
  taken : ∀ done nodes now label verb after, K done nodes now → labels[done]? = some label →
    world.play.choose setting.script done = .ok after → now.play = world.play →
    K (done + 1) (nodes ++ (exploreTaken setting next frame verb ⟨done, label, after⟩ now).1.toList)
      (exploreTaken setting next frame verb ⟨done, label, after⟩ now).2

variable {labels : List ChoiceLabel} {K : Nat → List Node → World → Prop}

theorem getElem?_of_drop_eq_cons {label : ChoiceLabel} {rest : List ChoiceLabel} {done : Nat}
    (h : labels.drop done = label :: rest) :
    labels[done]? = some label ∧ labels.drop (done + 1) = rest := by
  constructor
  · rw [← List.head?_drop, h, List.head?_cons]
  · rw [← List.tail_drop, h, List.tail_cons]

theorem LoopRule.depthFirst (rule : LoopRule setting next frame labels world K)
    (rest : List ChoiceLabel) (done : Nat) (nodes : List Node) (now : World)
    (hrest : labels.drop done = rest) (hplay : now.play = world.play) (h : K done nodes now) :
    K (done + rest.length)
      (nodes ++ (Explore.depthFirst setting next frame (rest.zipIdx done) now).1)
      (Explore.depthFirst setting next frame (rest.zipIdx done) now).2 := by
  induction rest generalizing done nodes now with
  | nil =>
      simpa only [Explore.depthFirst, List.zipIdx_nil, List.append_nil, List.length_nil,
        Nat.add_zero] using h
  | cons label rest ih =>
      obtain ⟨hlabel, hdrop⟩ := getElem?_of_drop_eq_cons hrest
      rw [List.zipIdx_cons, List.length_cons, Nat.add_comm rest.length, ← Nat.add_assoc,
        Explore.depthFirst]
      split
      · next fault hfault =>
        refine ih (done + 1) nodes _ hdrop hplay (rule.skipped _ _ _ (rule.noted _ _ _ _ h) ?_)
        exact ⟨"exploring", fault, List.subset_append_right _ _⟩
      · next after hafter =>
        dsimp only
        rw [← List.append_assoc]
        apply ih (done + 1) _ _ hdrop ((play_exploreTaken ..).trans hplay)
        exact rule.taken done nodes now label _ after h hlabel (hplay ▸ hafter) hplay

theorem LoopRule.exploreAll (rule : LoopRule setting next frame labels world K)
    (hnext : Evolving setting next) (rest : List ChoiceLabel) (done : Nat) (nodes : List Node)
    (now : World) (hrest : labels.drop done = rest) (hplay : now.play = world.play)
    (hreported : (takeAll setting world.play (rest.zipIdx done)).2 ⊆ now.ledger.journal)
    (h : K done nodes now) :
    K (done + rest.length)
      (nodes ++ (Explore.exploreAll setting next frame
        (takeAll setting world.play (rest.zipIdx done)).1 now).1)
      (Explore.exploreAll setting next frame
        (takeAll setting world.play (rest.zipIdx done)).1 now).2 := by
  induction rest generalizing done nodes now with
  | nil =>
      simpa only [takeAll, Explore.exploreAll, List.zipIdx_nil, List.append_nil, List.length_nil,
        Nat.add_zero] using h
  | cons label rest ih =>
      obtain ⟨hlabel, hdrop⟩ := getElem?_of_drop_eq_cons hrest
      rw [List.zipIdx_cons, takeAll] at hreported ⊢
      rw [List.length_cons, Nat.add_comm rest.length, ← Nat.add_assoc]
      dsimp only at hreported ⊢
      split at hreported
      · next after hafter =>
        simp only [Explore.exploreAll]
        rw [← List.append_assoc]
        refine ih (done + 1) _ _ hdrop ((play_exploreTaken ..).trans hplay)
          (List.Subset.trans hreported (evolves_exploreTaken hnext _ _).journal) ?_
        exact rule.taken done nodes now label _ after h hlabel hafter hplay
      · next fault hfault =>
        rw [List.append_subset] at hreported
        exact ih (done + 1) nodes now hdrop hplay hreported.2
          (rule.skipped _ _ _ h ⟨"selecting", fault, hreported.1⟩)

/-- What a loop over the choices keeps holds after all of them, in either order of exploration. -/
theorem exploreChoices_rule (hnext : Evolving setting next)
    (rule : LoopRule setting next frame scene.choices world K) :
    K scene.choices.length (exploreChoices setting next frame scene world).1
      (exploreChoices setting next frame scene world).2 := by
  unfold exploreChoices siblingFirst
  dsimp only
  split
  · have h := rule.exploreAll hnext scene.choices 0 []
      (world.note (takeAll setting world.play scene.choices.zipIdx).2) rfl rfl
      (List.subset_append_right _ _) (rule.noted _ _ _ _ rule.start)
    rwa [Nat.zero_add] at h
  · have h := rule.depthFirst scene.choices 0 [] world rfl rfl rule.start
    rwa [Nat.zero_add] at h

/-! ### Visits of any depth -/

theorem evolves_exploreChoices (hnext : Evolving setting next) :
    Evolves setting world.ledger
      (exploreChoices setting next frame scene world).2.ledger :=
  exploreChoices_rule (K := fun _ _ now => Evolves setting world.ledger now.ledger) hnext
    { start := .refl ..
      noted := fun _ _ _ _ h => h.trans (.note ..)
      skipped := fun _ _ _ h _ => h
      taken := fun _ _ _ _ _ _ h _ _ _ => h.trans (evolves_exploreTaken hnext _ _) }

theorem evolves_newNode (setting : Setting) (ledger : Ledger) :
    Evolves setting ledger ledger.newNode.2 :=
  .of_eq (List.Subset.refl _) rfl rfl rfl

theorem evolves_remembered (setting : Setting) (scene : Scene) (world : World) :
    Evolves setting world.ledger (remembered setting scene world).ledger :=
  (evolves_newNode setting world.ledger).trans (.rememberPlace ..)

theorem evolves_opened (setting : Setting) (scene : Scene) (world : World) :
    Evolves setting world.ledger (opened setting scene world).ledger :=
  (evolves_remembered setting scene world).trans (.registerHub ..)

theorem evolves_settleScene (hnext : Evolving setting next) :
    Evolves setting world.ledger (settleScene setting next visit scene world).2.ledger := by
  have h := settles setting next visit scene world
  generalize settleScene setting next visit scene world = result at h ⊢
  cases h with
  | textLoop ref found => exact evolves_newNode ..
  | repeatedState ref noLoop found => exact evolves_newNode ..
  | dropped spent => exact (Evolves.note ..).trans (.drop ..)
  | expanded command node ledger found made =>
      have h := Evolves.expand setting command scene.content.effects world.ledger
      rwa [made] at h
  | unexpanded command fault ledger found failed =>
      have h := Evolves.expand setting command scene.content.effects world.ledger
      rwa [failed] at h
  | bare silent noChoices => exact evolves_newNode ..
  | leaf noChoices => exact evolves_remembered ..
  | converged key ref signed found => exact evolves_opened ..
  | opened noLoop noState budget children after found =>
      have h : Evolves setting (opened setting scene world).ledger
          (explored setting next visit scene world).2.ledger := evolves_exploreChoices hnext
      rw [found] at h
      exact ((evolves_opened ..).trans h).trans (.finish ..)

theorem evolves_look (setting : Setting) (visit : Visit) (world : World) :
    Evolves setting world.ledger (look setting visit world).2.ledger := by
  rw [look_eq, drain_eq]
  exact .note ..

theorem evolves_visitWith (hnext : Evolving setting next) :
    Evolves setting world.ledger (visitWith setting next visit world).2.ledger := by
  have hlook := evolves_look setting visit world
  unfold visitWith
  split
  · next scene after h =>
    rw [h] at hlook
    exact hlook.trans (evolves_settleScene hnext)
  · next fault after h =>
    rw [h] at hlook
    exact hlook

theorem evolving_visitLevels (setting : Setting) (levels : Nat) :
    Evolving setting (visitLevels setting levels) := by
  induction levels with
  | zero =>
      intro visit world
      exact (Evolves.enter ..).trans (.of_eq (List.subset_append_left _ _) rfl rfl rfl)
  | succ levels ih =>
      intro visit world
      have hentered : Evolves setting world.ledger
          (world.update (Ledger.enter setting.limits visit.depth)).ledger := .enter ..
      exact hentered.trans (evolves_visitWith ih)

theorem exists_root_of_map {β : Type} {f : Node → β} {value : β}
    {outcome : Except Fault (Option Node)} (h : outcome.toOption.join.map f = some value) :
    ∃ root, outcome = .ok (some root) ∧ f root = value := by
  obtain ⟨root, hroot, hvalue⟩ := Option.map_eq_some_iff.1 h
  obtain fault | _ | node := outcome
  · cases hroot
  · cases hroot
  · exact ⟨root, by rw [Option.some.inj hroot], hvalue⟩

/-! ### The hub stays

The menu that later nodes are compared with is captured once, and only where the menu of the unit has
a threshold. From then on no step forgets it or exchanges it for another. So a node that was folded
onto the hub refers to the hub that the finished exploration still knows.
-/

theorem hub_remembered (setting : Setting) (scene : Scene) (world : World) :
    (remembered setting scene world).ledger.hub = world.ledger.hub := by
  obtain ⟨states, hledger, -⟩ :=
    rememberPlace_eq setting scene world.ledger.nextId world.ledger.newNode.2
  rw [remembered, hledger]
  rfl

theorem hub_finish (setting : Setting) (scene : Scene) (signature : Option String) (id : Int)
    (children : List Node) (ledger : Ledger) :
    (finish setting scene signature id children ledger).2.hub = ledger.hub := by
  obtain ⟨nodeTotal, warned, converged, entries, hledger, -⟩ :=
    ledger_finish setting scene id ledger signature children
  rw [hledger]
  rfl

theorem keeping_visitLevels (setting : Setting) (levels : Nat) (visit : Visit) (world : World) :
    HubKept setting world.ledger (visitLevels setting levels visit world).2.ledger :=
  (evolving_visitLevels setting levels visit world).hub

theorem hub_run (nothreshold : ∀ menu, setting.menu = some menu → menu.usesThreshold = false) :
    (run setting).2.ledger.hub = none :=
  (keeping_visitLevels setting _ _ _).eq_none rfl nothreshold

end StoryAtlas.Explore
