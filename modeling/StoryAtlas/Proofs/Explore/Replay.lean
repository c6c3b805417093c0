import StoryAtlas.Proofs.Explore.Links
import StoryAtlas.Proofs.Story.Fight

/-!
# Playing the story along the tree

All branches of an exploration share one play, which is put back after each choice. That this is done
right shows in the tree: the positions of the choices on the way to a node, taken one after the other
from the start of the story, lead to what the node tells. Under a node the positions grow, and each is
that of a choice on offer there. If nothing was reported, no choice is left out.

Texts are not split here and there is no menu, so that a node tells of one stretch of the story.
-/

namespace StoryAtlas.Explore

variable {setting : Setting} {quiet quieter : Prop} {path : List Nat} {chosen : Option ChoiceLabel}
  {play : Play} {beat : Beat} {children : List Node}

/-! ### What a node tells -/

/-- Reads on and takes the choice at the next position, as long as there are positions. -/
def playAlong (setting : Setting) : List Nat → Play → Except Fault Play
  | [], play => .ok play
  | position :: path, play => do
    let after ← (play.drain setting.script setting.bytecode.rolls).2.choose setting.script position
    playAlong setting path after

def offeredAt (setting : Setting) (play : Play) : Except Fault (List String) :=
  (play.drain setting.script setting.bytecode.rolls).2.labels setting.script

/-- What the next stretch of the story says and does. -/
def toldAt (setting : Setting) (play : Play) : Extract :=
  Extract.ofText setting.bytecode.lexicon
    (play.drain setting.script setting.bytecode.rolls).1.stretch.text

def requirementsOf : Option ChoiceLabel → List String
  | none => []
  | some label =>
    if label.requirements.isEmpty && label.text == Beat.defaultLabel then [Beat.defaultRequirement]
    else label.requirements

/-- The text of a node, or what stands for an empty one. -/
def Shows (text : Option String) (told : String) : Prop :=
  text = some told ∨ told = "" ∧ text ∈ [none, some endText, some choiceText]

/-- A beat tells of the next stretch of a play, and of the choice that was taken last. -/
structure Tells (setting : Setting) (play : Play) (chosen : Option ChoiceLabel) (beat : Beat) :
    Prop where
  effects : beat.effects = (toldAt setting play).effects
  text : Shows beat.text (toldAt setting play).text
  label : beat.label = chosen.map ChoiceLabel.text
  requirements : beat.requirements = requirementsOf chosen

/-- A tree is what the story tells along a path, and its children along the paths that go on. Where
all is quiet, no choice is left out. -/
inductive Replays (setting : Setting) (quiet : Prop) :
    List Nat → Option ChoiceLabel → Node → Prop
  | marker {path : List Nat} {chosen : Option ChoiceLabel} {beat : Beat}
      (deep : setting.limits.maxDepth < path.length) (text : beat.text = some depthText)
      (label : beat.label = chosen.map ChoiceLabel.text)
      (requirements : beat.requirements = requirementsOf chosen) :
      Replays setting quiet path chosen (.node beat [])
  | scene {path : List Nat} {chosen : Option ChoiceLabel} {beat : Beat} {children : List Node}
      {play : Play} {labels : List String} {positions : List Nat}
      (reached : playAlong setting path (Play.opening setting.script) = .ok play)
      (offered : offeredAt setting play = .ok labels)
      (tells : Tells setting play chosen beat)
      (increasing : positions.Pairwise (· < ·))
      (onOffer : ∀ position ∈ positions, position < labels.length)
      (paired : positions.length = children.length)
      (below : ∀ branch ∈ positions.zip children,
        Replays setting quiet (path ++ [branch.1])
          (labels[branch.1]?.map ChoiceLabel.ofText) branch.2)
      (complete : quiet → beat.ref = none → children.length = labels.length) :
      Replays setting quiet path chosen (.node beat children)

theorem playAlong_append {play mid : Play} {more : List Nat}
    (h : playAlong setting path play = .ok mid) :
    playAlong setting (path ++ more) play = playAlong setting more mid := by
  induction path generalizing play with
  | nil =>
      cases h
      rfl
  | cons position path ih =>
      obtain ⟨after, hafter, hrest⟩ := bind_eq_ok.1 h
      rw [List.cons_append, playAlong, hafter]
      exact ih hrest

theorem playAlong_choose {position : Nat} {after : Play}
    (hreached : playAlong setting path (Play.opening setting.script) = .ok play)
    (hafter : (play.drain setting.script setting.bytecode.rolls).2.choose setting.script position =
      .ok after) :
    playAlong setting (path ++ [position]) (Play.opening setting.script) = .ok after := by
  rw [playAlong_append hreached, playAlong, hafter]
  rfl

/-- What has all choices where all is quiet has them where it is quieter still. -/
theorem Replays.mono {node : Node} (h : Replays setting quiet path chosen node)
    (hquiet : quieter → quiet) : Replays setting quieter path chosen node := by
  induction h with
  | marker deep text label requirements => exact .marker deep text label requirements
  | scene reached offered tells increasing onOffer paired below complete ih =>
      exact .scene reached offered tells increasing onOffer paired ih
        fun hquieter href => complete (hquiet hquieter) href

/-! ### The label of a node -/

theorem requirements_labelBeat (label : ChoiceLabel) (h : beat.requirements = []) :
    (labelBeat label beat).requirements = requirementsOf (some label) := by
  unfold labelBeat requirementsOf
  dsimp only
  rw [h]
  cases hrequired : label.requirements with
  | nil => simp
  | cons first others => simp

theorem Replays.labelled {node : Node} (h : Replays setting quiet path none node)
    (label : ChoiceLabel) :
    Replays setting quiet path (some label) (node.withValue (labelBeat label node.value)) := by
  cases h with
  | marker deep text label' requirements =>
      exact .marker deep text rfl (requirements_labelBeat label requirements)
  | scene reached offered tells increasing onOffer paired below complete =>
      refine .scene reached offered ?_ increasing onOffer paired below complete
      exact ⟨tells.effects, tells.text, rfl, requirements_labelBeat label tells.requirements⟩

/-! ### The branches of a node -/

def Ledger.Quiet (ledger : Ledger) : Prop := ∀ entry ∈ ledger.journal, entry.severity ≠ .warning

theorem Ledger.Quiet.of_subset {ledger later : Ledger} (h : later.Quiet)
    (hjournal : ledger.journal ⊆ later.journal) : ledger.Quiet :=
  fun entry hentry => h entry (hjournal hentry)

theorem Ledger.not_quiet {ledger : Ledger} {message : String}
    (h : Journal.warning message ⊆ ledger.journal) : ¬ledger.Quiet := by
  intro hquiet
  exact hquiet _ (h List.mem_cons_self) rfl

/-- The nodes found behind the first choices of a place, after so many of them are done. -/
structure Branches (setting : Setting) (path : List Nat) (choices : List ChoiceLabel) (done : Nat)
    (nodes : List Node) (ledger : Ledger) : Prop where
  hub : ledger.hub = none
  replayed : ∃ positions : List Nat, positions.Pairwise (· < ·) ∧
    (∀ position ∈ positions, position < done) ∧ positions.length = nodes.length ∧
    ∀ branch ∈ positions.zip nodes,
      Replays setting ledger.Quiet (path ++ [branch.1]) choices[branch.1]? branch.2
  complete : ledger.Quiet → nodes.length = done

variable {choices : List ChoiceLabel} {done : Nat} {nodes : List Node} {ledger later : Ledger}

namespace Branches

theorem nil (h : ledger.hub = none) : Branches setting path choices 0 [] ledger where
  hub := h
  replayed := ⟨[], List.Pairwise.nil, by simp, rfl, by simp⟩
  complete _ := rfl

theorem keep (h : Branches setting path choices done nodes ledger) (hhub : later.hub = none)
    (hjournal : ledger.journal ⊆ later.journal) :
    Branches setting path choices done nodes later := by
  have hquiet : later.Quiet → ledger.Quiet := fun hlater => hlater.of_subset hjournal
  obtain ⟨positions, hincreasing, hdone, hpaired, hbelow⟩ := h.replayed
  refine ⟨hhub, ⟨positions, hincreasing, hdone, hpaired, ?_⟩, fun hlater => ?_⟩
  · exact fun branch hbranch => (hbelow branch hbranch).mono hquiet
  · exact h.complete (hquiet hlater)

theorem skip (h : Branches setting path choices done nodes ledger) (hloud : ¬ledger.Quiet) :
    Branches setting path choices (done + 1) nodes ledger := by
  obtain ⟨positions, hincreasing, hdone, hpaired, hbelow⟩ := h.replayed
  refine ⟨h.hub, ⟨positions, hincreasing, ?_, hpaired, hbelow⟩, fun hquiet => absurd hquiet hloud⟩
  exact fun position hposition => Nat.lt_succ_of_lt (hdone position hposition)

theorem add {child : Node} (h : Branches setting path choices done nodes ledger)
    (hchild : Replays setting ledger.Quiet (path ++ [done]) choices[done]? child) :
    Branches setting path choices (done + 1) (nodes ++ [child]) ledger := by
  obtain ⟨positions, hincreasing, hdone, hpaired, hbelow⟩ := h.replayed
  refine ⟨h.hub, ⟨positions ++ [done], ?_, ?_, ?_, ?_⟩, ?_⟩
  · rw [List.pairwise_append]
    refine ⟨hincreasing, List.pairwise_singleton _ _, fun position hposition last hlast => ?_⟩
    rw [List.mem_singleton.1 hlast]
    exact hdone position hposition
  · intro position hposition
    rcases List.mem_append.1 hposition with hposition | hposition
    · exact Nat.lt_succ_of_lt (hdone position hposition)
    · rw [List.mem_singleton.1 hposition]
      exact Nat.lt_succ_self done
  · rw [List.length_append, List.length_append, hpaired]
    rfl
  · intro branch hbranch
    rw [List.zip_append hpaired, List.mem_append] at hbranch
    rcases hbranch with hbranch | hbranch
    · exact hbelow branch hbranch
    · rw [List.zip_cons_cons, List.zip_nil_left, List.mem_singleton] at hbranch
      rw [hbranch]
      exact hchild
  · intro hquiet
    rw [List.length_append, h.complete hquiet]
    rfl

end Branches

/-! ### Visits -/

/-- The outcome of a visit is what the story tells along a path, or it was reported. -/
structure Retraced (setting : Setting) (path : List Nat)
    (outcome : Except Fault (Option Node) × World) : Prop where
  hub : outcome.2.ledger.hub = none
  dropped : outcome.1 = .ok none → ¬outcome.2.ledger.Quiet
  built : ∀ node, outcome.1 = .ok (some node) →
    Replays setting outcome.2.ledger.Quiet path none node

/-- A visitor that, with enough levels left, tells what the story tells from where the play stands. -/
def Retracing (setting : Setting) (levels : Nat) (next : Visitor) : Prop :=
  ∀ path visit world, playAlong setting path (Play.opening setting.script) = .ok world.play →
    setting.limits.maxDepth < path.length + levels → world.ledger.hub = none →
    Retraced setting path (next visit world)

variable {next : Visitor} {levels : Nat} {visit : Visit} {scene : Scene} {frame : Frame}
  {world : World}

theorem Retracing.of_eq (hnext : Retracing setting levels next) {after : World}
    {result : Except Fault (Option Node)} (h : next visit world = (result, after))
    (hreached : playAlong setting path (Play.opening setting.script) = .ok world.play)
    (hdeep : setting.limits.maxDepth < path.length + levels) (hhub : world.ledger.hub = none) :
    Retraced setting path (result, after) :=
  h ▸ hnext path visit world hreached hdeep hhub

theorem Retraced.of_node {node : Node} {after : World} (hhub : after.ledger.hub = none)
    (hnode : Replays setting after.ledger.Quiet path none node) :
    Retraced setting path (.ok (some node), after) := by
  refine ⟨hhub, fun hdropped => (nomatch hdropped), fun other hother => ?_⟩
  cases hother
  exact hnode

theorem Retraced.of_fault {fault : Fault} {after : World} (hhub : after.ledger.hub = none) :
    Retraced setting path (.error fault, after) :=
  ⟨hhub, fun hdropped => (nomatch hdropped), fun _ hnode => nomatch hnode⟩

theorem branches_exploreTaken (hevolve : Evolving setting next)
    (hnext : Retracing setting levels next) (nomenu : setting.menu = none)
    (hdeep : setting.limits.maxDepth < path.length + (levels + 1))
    (verb : String) {taken : Taken} (hlabel : choices[done]? = some taken.label)
    (hreached : playAlong setting (path ++ [done]) (Play.opening setting.script) = .ok taken.play)
    (h : Branches setting path choices done nodes world.ledger) :
    Branches setting path choices (done + 1)
      (nodes ++ (exploreTaken setting next frame verb taken world).1.toList)
      (exploreTaken setting next frame verb taken world).2.ledger := by
  have hjournal : world.ledger.journal ⊆
      (exploreTaken setting next frame verb taken world).2.ledger.journal :=
    (evolves_exploreTaken hevolve verb taken).journal
  have hbelow : setting.limits.maxDepth < (path ++ [done]).length + levels := by
    rw [List.length_append, List.length_singleton]
    omega
  have hexplores := explores setting next frame verb taken world
  generalize exploreTaken setting next frame verb taken world = result at hexplores hjournal ⊢
  cases hexplores with
  | returned menu stretch content entries found =>
      unfold Frame.returning at found
      rw [nomenu] at found
      cases found
  | failed entries fault after found =>
      have hretraced := hnext.of_eq found hreached hbelow h.hub
      rw [Option.toList_none, List.append_nil]
      have hkept : Branches setting path choices done nodes
          (after.ledger.note (reportChoice setting.unit verb taken.number fault)) :=
        h.keep hretraced.hub hjournal
      exact hkept.skip (Ledger.not_quiet (List.subset_append_right _ _))
  | dropped entries after found =>
      have hretraced := hnext.of_eq found hreached hbelow h.hub
      rw [Option.toList_none, List.append_nil]
      exact (h.keep hretraced.hub hjournal).skip (hretraced.dropped rfl)
  | built entries child after found =>
      have hretraced := hnext.of_eq found hreached hbelow h.hub
      rw [foldBelow_eq_self hretraced.hub] at hjournal ⊢
      apply (h.keep hretraced.hub hjournal).add
      rw [hlabel]
      exact (hretraced.built child rfl).labelled taken.label

/-- Both orders of exploration keep the branches. -/
theorem branches_exploreChoices (hevolve : Evolving setting next)
    (hnext : Retracing setting levels next) (nomenu : setting.menu = none)
    (hdeep : setting.limits.maxDepth < path.length + (levels + 1))
    (hreached : playAlong setting path (Play.opening setting.script) = .ok play)
    (hread : world.play = (play.drain setting.script setting.bytecode.rolls).2)
    (hhub : world.ledger.hub = none) :
    Branches setting path scene.choices scene.choices.length
      (exploreChoices setting next frame scene world).1
      (exploreChoices setting next frame scene world).2.ledger := by
  refine exploreChoices_rule
    (K := fun done nodes now => Branches setting path scene.choices done nodes now.ledger) hevolve
    { start := .nil hhub
      noted := fun _ _ now entries h => ?_
      skipped := fun done _ now h hskipped => ?_
      taken := fun done _ now label verb after h hlabel hafter _ => ?_ }
  · exact h.keep h.hub (List.subset_append_left _ entries)
  · obtain ⟨verb, fault, hreported⟩ := hskipped
    exact h.skip (Ledger.not_quiet hreported)
  · rw [hread] at hafter
    exact branches_exploreTaken hevolve hnext nomenu hdeep verb hlabel
      (playAlong_choose hreached hafter) h

/-! ### The tree of a scene -/

/-- A scene is what the story tells and offers at the end of a path. -/
structure Met (setting : Setting) (path : List Nat) (play : Play) (labels : List String)
    (scene : Scene) : Prop where
  reached : playAlong setting path (Play.opening setting.script) = .ok play
  offered : offeredAt setting play = .ok labels
  choices : scene.choices = labels.map ChoiceLabel.ofText
  content : scene.content = toldAt setting play
  calm : scene.kind ≠ .combat

variable {labels : List String}

theorem met_look (visit : Visit) (calm : setting.script.Calm)
    (hreached : playAlong setting path (Play.opening setting.script) = .ok world.play)
    (h : (look setting visit world).1 = .ok scene) :
    ∃ labels, Met setting path world.play labels scene := by
  obtain ⟨labels, location, hlabels, rfl⟩ := look_eq_ok h
  rw [drain_eq] at hlabels ⊢
  refine ⟨labels, hreached, hlabels, rfl, rfl, ?_⟩
  exact Kind.ofText_ne_combat (Play.calm_drain calm world.play) _

/-- A node without children tells all if it refers to another or nothing is on offer. -/
theorem Met.childless (met : Met setting path play labels scene)
    (heffects : beat.effects = scene.content.effects) (htext : Shows beat.text scene.content.text)
    (hlabel : beat.label = none) (hrequirements : beat.requirements = [])
    (hcomplete : beat.ref = none → scene.choices = []) :
    Replays setting quiet path none (.node beat []) := by
  rw [met.content] at heffects htext
  refine .scene met.reached met.offered ⟨heffects, htext, hlabel, hrequirements⟩
    List.Pairwise.nil (by simp) rfl (by simp) fun _ href => ?_
  have hchoices := hcomplete href
  rw [met.choices, List.map_eq_nil_iff] at hchoices
  rw [hchoices]
  rfl

theorem Met.parent (met : Met setting path play labels scene)
    (heffects : beat.effects = scene.content.effects) (htext : Shows beat.text scene.content.text)
    (hlabel : beat.label = none) (hrequirements : beat.requirements = [])
    (h : Branches setting path scene.choices scene.choices.length nodes ledger) :
    Replays setting ledger.Quiet path none (.node beat nodes) := by
  obtain ⟨positions, hincreasing, hdone, hpaired, hbelow⟩ := h.replayed
  have hcomplete := h.complete
  rw [met.content] at heffects htext
  rw [met.choices, List.length_map] at hdone hcomplete
  refine .scene met.reached met.offered ⟨heffects, htext, hlabel, hrequirements⟩ hincreasing hdone
    hpaired (fun branch hbranch => ?_) fun hquiet _ => hcomplete hquiet
  have hreplayed := hbelow branch hbranch
  rwa [met.choices, List.getElem?_map] at hreplayed

theorem shows_orElse {told placeholder : String}
    (h : some placeholder ∈ [none, some endText, some choiceText]) :
    Shows (some (if told.isEmpty then placeholder else told)) told := by
  split
  · next hempty => exact .inr ⟨String.isEmpty_iff.1 hempty, h⟩
  · exact .inl rfl

theorem Met.replays_refBeat (met : Met setting path play labels scene) (id ref : Int) :
    Replays setting quiet path none (.node (scene.refBeat id ref) []) :=
  met.childless rfl (.inl rfl) rfl rfl fun href => nomatch href

theorem Met.replays_bareBeat (met : Met setting path play labels scene) (id : Int)
    (silent : scene.clean.isEmpty) (noChoices : scene.choices = []) :
    Replays setting quiet path none (.node (bareBeat id scene) []) := by
  have htext : scene.content.text = "" := String.isEmpty_iff.1 silent
  exact met.childless rfl (.inr ⟨htext, List.mem_cons_self⟩) rfl rfl fun _ => noChoices

theorem Met.replays_leafBeat (met : Met setting path play labels scene) (id : Int)
    (noChoices : scene.choices = []) :
    Replays setting quiet path none (.node (leafBeat id scene) []) :=
  met.childless rfl (shows_orElse (by simp)) rfl rfl fun _ => noChoices

/-- Where nothing is split, a node has the text, the effects and the children of its scene. -/
theorem partsOf_eq (calm : scene.kind ≠ .combat) (whole : setting.limits.splitDialogue = false)
    (children : List Node) (nextId : Int) :
    partsOf setting scene children nextId = {
      text := some scene.clean
      effects := scene.content.effects
      children := children
      continues := some scene.stretch.continues } := by
  unfold partsOf
  dsimp only
  rw [if_neg calm, if_neg (by simp [whole])]

theorem shows_fullBeat (calm : scene.kind ≠ .combat) {parts : Segment.Parts}
    (h : parts.text = some scene.clean) (id : Int) :
    Shows (fullBeat id scene parts).text scene.content.text := by
  have htext : (fullBeat id scene parts).text =
      some (if scene.clean.isEmpty then choiceText else scene.clean) := by
    rw [fullBeat, Beat.settle]
    dsimp only
    rw [if_neg fun hfight => calm hfight.1, h, orElse, present]
    split <;> rfl
  rw [htext]
  exact shows_orElse (by simp)

theorem Met.replays_finish (met : Met setting path play labels scene)
    (whole : setting.limits.splitDialogue = false) (signature : Option String) (id : Int)
    (h : Branches setting path scene.choices scene.choices.length nodes ledger) :
    (finish setting scene signature id nodes ledger).2.hub = none ∧
      Replays setting (finish setting scene signature id nodes ledger).2.Quiet path none
        (finish setting scene signature id nodes ledger).1 := by
  have hquiet : (finish setting scene signature id nodes ledger).2.Quiet → ledger.Quiet :=
    fun hfinished => hfinished.of_subset (Evolves.finish setting scene ..).journal
  rw [finish_eq_of_hub setting scene signature id nodes h.hub,
    partsOf_eq met.calm whole nodes ledger.nextId] at hquiet ⊢
  refine ⟨?_, Replays.mono ?_ hquiet⟩
  · obtain ⟨converged, hledger, -⟩ := converge_eq id ledger signature nodes
    change (converge signature id nodes ledger).hub = none
    rw [hledger]
    exact h.hub
  · exact met.parent rfl (shows_fullBeat met.calm rfl id) rfl rfl h

theorem hub_opened (nomenu : setting.menu = none) (h : world.ledger.hub = none) :
    (opened setting scene world).ledger.hub = none := by
  rw [opened, World.update, registerHub, nomenu]
  exact (hub_remembered setting scene world).trans h

theorem retraced_settleScene (hevolve : Evolving setting next)
    (hnext : Retracing setting levels next) (nomenu : setting.menu = none)
    (noknots : setting.bytecode.knots = []) (whole : setting.limits.splitDialogue = false)
    (hdeep : setting.limits.maxDepth < path.length + (levels + 1))
    (met : Met setting path play labels scene)
    (hread : world.play = (play.drain setting.script setting.bytecode.rolls).2)
    (hhub : world.ledger.hub = none) :
    Retraced setting path (settleScene setting next visit scene world) := by
  have h := settles setting next visit scene world
  have unbranched : ∀ command, scene.branching setting branchingCommand ≠ some command :=
    branching_ne_some noknots
  generalize settleScene setting next visit scene world = result at h ⊢
  cases h with
  | textLoop ref found => exact .of_node hhub (met.replays_refBeat _ ref)
  | repeatedState ref noLoop found => exact .of_node hhub (met.replays_refBeat _ ref)
  | dropped spent =>
      refine ⟨hhub, fun _ => ?_, fun node hnode => nomatch hnode⟩
      exact Ledger.not_quiet (List.subset_append_right _ _)
  | expanded command node ledger found made => exact absurd found (unbranched command)
  | unexpanded command fault ledger found failed => exact absurd found (unbranched command)
  | bare silent noChoices => exact .of_node hhub (met.replays_bareBeat _ silent noChoices)
  | leaf noChoices =>
      have hremembered := (hub_remembered setting scene world).trans hhub
      exact .of_node hremembered (met.replays_leafBeat _ noChoices)
  | converged key ref signed found =>
      exact .of_node (hub_opened nomenu hhub) (met.replays_refBeat _ ref)
  | opened noLoop noState budget children after found =>
      have hbranches : Branches setting path scene.choices scene.choices.length
          (explored setting next visit scene world).1
          (explored setting next visit scene world).2.ledger :=
        branches_exploreChoices hevolve hnext nomenu hdeep met.reached hread (hub_opened nomenu hhub)
      rw [found] at hbranches
      obtain ⟨hfinished, hnode⟩ := met.replays_finish whole _ world.ledger.nextId hbranches
      exact .of_node hfinished hnode

theorem retraced_visitWith (hevolve : Evolving setting next)
    (hnext : Retracing setting levels next) (nomenu : setting.menu = none)
    (noknots : setting.bytecode.knots = []) (whole : setting.limits.splitDialogue = false)
    (calm : setting.script.Calm) (hdeep : setting.limits.maxDepth < path.length + (levels + 1))
    (hreached : playAlong setting path (Play.opening setting.script) = .ok world.play)
    (hhub : world.ledger.hub = none) :
    Retraced setting path (visitWith setting next visit world) := by
  have hlook : (look setting visit world).2 = (drain setting world).2 := look_eq setting visit world
  unfold visitWith
  split
  · next scene after h =>
    obtain ⟨labels, met⟩ := met_look visit calm hreached (by rw [h])
    rw [h, drain_eq] at hlook
    cases hlook
    exact retraced_settleScene hevolve hnext nomenu noknots whole hdeep met rfl hhub
  · next fault after h =>
    rw [h, drain_eq] at hlook
    cases hlook
    exact .of_fault hhub

theorem retracing_visitLevels (nomenu : setting.menu = none)
    (noknots : setting.bytecode.knots = []) (whole : setting.limits.splitDialogue = false)
    (calm : setting.script.Calm) (levels : Nat) :
    Retracing setting levels (visitLevels setting levels) := by
  induction levels with
  | zero =>
      intro path visit world hreached hdeep hhub
      refine .of_node ((Ledger.hub_enter ..).trans hhub) ?_
      exact .marker (by simpa using hdeep) rfl rfl rfl
  | succ levels ih =>
      intro path visit world hreached hdeep hhub
      refine retraced_visitWith (evolving_visitLevels setting levels) ih nomenu noknots whole calm
        (by simpa using hdeep) hreached ?_
      exact (Ledger.hub_enter ..).trans hhub

/-- Every tree that an exploration makes of a calm story is what the story tells along its paths. -/
theorem replays_run {root : Node} (nomenu : setting.menu = none)
    (noknots : setting.bytecode.knots = []) (whole : setting.limits.splitDialogue = false)
    (calm : setting.script.Calm) (h : (run setting).1 = .ok (some root)) :
    Replays setting (run setting).2.ledger.Quiet [] none root := by
  have hretracing := retracing_visitLevels nomenu noknots whole calm
    (setting.limits.maxDepth + 1).toNat
  refine (hretracing [] ⟨0, "", []⟩ (start setting) rfl ?_ rfl).built root h
  rw [List.length_nil]
  omega

def brook : Setting where
  unit := "Brook"
  script := {
    passages := [
      ("start", {
        lines := [some "A brook."]
        choices := [⟨"Drink", "start", true⟩, ⟨"Go on", "road", false⟩] }),
      ("road", { lines := [some "The road goes on."] })] }
  limits := { splitDialogue := false, detectTextLoops := false, detectRepeatedStates := false }

theorem replays_run_brook : ∃ root, (run brook).1 = .ok (some root) ∧
    root.ids = [0, 1, 2, 3] ∧ (run brook).2.ledger.Quiet ∧ Replays brook True [] none root := by
  have hids : (run brook).1.toOption.join.map Node.ids = some [0, 1, 2, 3] := by decide +kernel
  have hquiet : (run brook).2.ledger.Quiet := by
    show ∀ entry ∈ (run brook).2.ledger.journal, entry.severity ≠ .warning
    decide +kernel
  obtain ⟨root, hroot, hwalked⟩ := Option.map_eq_some_iff.1 hids
  have hrun : (run brook).1 = .ok (some root) := by
    generalize (run brook).1 = outcome at hroot
    obtain fault | _ | node := outcome
    · cases hroot
    · cases hroot
    · rw [Option.some.inj hroot]
  have hreplays : Replays brook (run brook).2.ledger.Quiet [] none root :=
    replays_run rfl rfl rfl (by decide) hrun
  exact ⟨root, hrun, hwalked, hquiet, hreplays.mono fun _ => hquiet⟩

end StoryAtlas.Explore
