import StoryAtlas.Proofs.Explore.Numbering
import StoryAtlas.Proofs.Register

/-!
# Where the references of an exploration lead

A visit refers to nodes that it knows: those on the way down, those whose place was remembered and
those whose menu was. A node is remembered no sooner than it is sure to be in the tree, since from
then on only its own choices can fail, and they cost it no more than children. So whatever is known
is on the way down or in what was built before, and the finished tree has all of it. What is known
was numbered before what refers to it.

A node that repeats the menu of the hub loses children that others may have been referred to. From
then on nothing is promised but that the tree shows it: some node refers to the hub. So an exploration
is followed up to the first fold, and `Traced` says at every step that it is grounded or folded.
-/

namespace StoryAtlas

namespace Node

/-- Every reference is to an id smaller than that of the node. -/
def PointsBack (root : Node) : Prop :=
  root.Everywhere fun beat _ => ∀ target, beat.ref = some target → target < beat.id

def RefersTo (target : Int) (root : Node) : Prop :=
  ∃ node ∈ root.walk, (Rose.value node).ref = some target

theorem refersTo_node {target : Int} {beat : Beat} {children : List Node} :
    RefersTo target (.node beat children) ↔
      beat.ref = some target ∨ ∃ child ∈ children, RefersTo target child := by
  constructor
  · rintro ⟨node, hnode, href⟩
    rcases Rose.mem_walk.1 hnode with rfl | hbelow
    · exact .inl href
    · obtain ⟨child, hchild, hmem⟩ := Rose.mem_walkForest.1 hbelow
      exact .inr ⟨child, hchild, node, hmem, href⟩
  · rintro (href | ⟨child, hchild, node, hnode, href⟩)
    · exact ⟨_, Rose.self_mem_walk _, href⟩
    · exact ⟨node, Rose.mem_walk_of_mem hchild hnode, href⟩

end Node

namespace Explore

/-- All ids are numbered, and the links of the nodes, as well as the places and the menus remembered,
lead to known ids or into the nodes, and back. -/
structure Grounded (known : List Int) (nodes : List Node) (ledger : Ledger) : Prop where
  numbered : ∀ id ∈ known ++ nodes.flatMap Node.ids, id < ledger.nextId
  links : ∀ link ∈ nodes.flatMap Node.links, link ∈ known ++ nodes.flatMap Node.ids
  back : ∀ node ∈ nodes, node.PointsBack
  states : ∀ entry ∈ ledger.states, entry.2 ∈ known ++ nodes.flatMap Node.ids
  converged : ∀ entry ∈ ledger.converged, entry.2 ∈ known ++ nodes.flatMap Node.ids
  unborrowed : ∀ node ∈ nodes, node.Unborrowed

namespace Grounded

variable {known : List Int} {nodes others : List Node} {ledger later : Ledger} {beat : Beat}

theorem of_eq (h : Grounded known nodes ledger) (hnextId : ledger.nextId ≤ later.nextId)
    (hstates : later.states = ledger.states) (hconverged : later.converged = ledger.converged) :
    Grounded known nodes later :=
  ⟨fun id hid => Int.lt_of_lt_of_le (h.numbered id hid) hnextId, h.links, h.back,
    hstates ▸ h.states, hconverged ▸ h.converged, h.unborrowed⟩

/-- What is built counts as known to what is built next. -/
theorem rest (h : Grounded known nodes ledger) :
    Grounded (known ++ nodes.flatMap Node.ids) [] ledger where
  numbered := by simpa using h.numbered
  links := by simp
  back := by simp
  states := by simpa using h.states
  converged := by simpa using h.converged
  unborrowed := by simp

theorem append (h : Grounded known nodes ledger)
    (ho : Grounded (known ++ nodes.flatMap Node.ids) others later) :
    Grounded known (nodes ++ others) later where
  numbered := by
    rw [List.flatMap_append, ← List.append_assoc]
    exact ho.numbered
  links := by
    intro link hlink
    rw [List.flatMap_append, List.mem_append] at hlink
    rw [List.flatMap_append, ← List.append_assoc]
    rcases hlink with hlink | hlink
    · exact List.mem_append_left _ (h.links link hlink)
    · exact ho.links link hlink
  back := by
    intro node hnode
    rcases List.mem_append.1 hnode with hnode | hnode
    · exact h.back node hnode
    · exact ho.back node hnode
  states := by
    rw [List.flatMap_append, ← List.append_assoc]
    exact ho.states
  converged := by
    rw [List.flatMap_append, ← List.append_assoc]
    exact ho.converged
  unborrowed := by
    intro node hnode
    rcases List.mem_append.1 hnode with hnode | hnode
    · exact h.unborrowed node hnode
    · exact ho.unborrowed node hnode

theorem grow (h : Grounded known nodes ledger) (hnextId : later.nextId = ledger.nextId + 1)
    (hstates : later.states = ledger.states) (hconverged : later.converged = ledger.converged) :
    Grounded (known ++ [ledger.nextId]) nodes later := by
  have hsub : known ++ nodes.flatMap Node.ids ⊆ known ++ [ledger.nextId] ++ nodes.flatMap Node.ids :=
    List.append_subset.2 ⟨fun id hid => List.mem_append_left _ (List.mem_append_left _ hid),
      List.subset_append_right _ _⟩
  refine ⟨fun id hid => ?_, fun link hlink => hsub (h.links link hlink), h.back,
    fun entry hentry => hsub (h.states entry (hstates ▸ hentry)),
    fun entry hentry => hsub (h.converged entry (hconverged ▸ hentry)), h.unborrowed⟩
  rw [hnextId]
  have hcases : id ∈ known ++ nodes.flatMap Node.ids ∨ id = ledger.nextId := by
    simp only [List.mem_append, List.mem_singleton] at hid ⊢
    tauto
  rcases hcases with hold | rfl
  · have := h.numbered id hold
    omega
  · omega

/-- The id of a node being built counts as known below it. -/
theorem parent (h : Grounded (known ++ [beat.id]) nodes ledger)
    (href : ∀ target, beat.ref = some target → target ∈ known ∧ target < beat.id)
    (hborrowed : beat.refChildren = none) : Grounded known [.node beat nodes] ledger := by
  have hids : known ++ [.node beat nodes].flatMap Node.ids =
      known ++ [beat.id] ++ nodes.flatMap Node.ids := by
    rw [List.flatMap_singleton, Node.ids_node, List.append_assoc, List.singleton_append]
  refine ⟨?_, ?_, ?_, ?_, ?_, ?_⟩
  · rw [hids]
    exact h.numbered
  · intro link hlink
    rw [List.flatMap_singleton, Node.links_node, List.mem_append] at hlink
    rw [hids]
    rcases hlink with hlink | hlink
    · rw [Beat.links, hborrowed, Option.getD_none, List.append_nil, Option.mem_toList] at hlink
      exact List.mem_append_left _ (List.mem_append_left _ (href link hlink).1)
    · exact h.links link hlink
  · intro node hnode
    rw [List.mem_singleton.1 hnode]
    exact Rose.everywhere_node.2 ⟨fun target htarget => (href target htarget).2, h.back⟩
  · rw [hids]
    exact h.states
  · rw [hids]
    exact h.converged
  · intro node hnode
    rw [List.mem_singleton.1 hnode]
    exact Rose.everywhere_node.2 ⟨hborrowed, h.unborrowed⟩

theorem childless (h : Grounded known [] ledger) (hid : beat.id = ledger.nextId)
    (hnextId : later.nextId = ledger.nextId + 1) (hstates : later.states = ledger.states)
    (hconverged : later.converged = ledger.converged)
    (href : ∀ target, beat.ref = some target → target ∈ known)
    (hborrowed : beat.refChildren = none) : Grounded known [.node beat []] later := by
  refine parent ?_ (fun target htarget => ⟨href target htarget, ?_⟩) hborrowed
  · rw [hid]
    exact h.grow hnextId hstates hconverged
  · rw [hid]
    exact h.numbered target (by simpa using href target htarget)

theorem relabelled {child : Node} {label : ChoiceLabel} (h : Grounded known [child] ledger) :
    Grounded known [child.withValue (labelBeat label child.value)] ledger := by
  obtain ⟨beat, children⟩ := child
  have hids : [Rose.withValue (labelBeat label (Rose.node beat children).value)
      (.node beat children)].flatMap Node.ids = [.node beat children].flatMap Node.ids := by
    simp [Rose.withValue, Node.ids_node, labelBeat]
  refine ⟨hids ▸ h.numbered, ?_, ?_, hids ▸ h.states, hids ▸ h.converged, ?_⟩
  · have hlinks := h.links
    rw [hids]
    simp only [List.flatMap_singleton, Node.links_node, Rose.withValue] at hlinks ⊢
    exact hlinks
  · intro node hnode
    rw [List.mem_singleton.1 hnode]
    exact Rose.everywhere_node.2 (Rose.everywhere_node.1 (h.back _ List.mem_cons_self))
  · intro node hnode
    rw [List.mem_singleton.1 hnode]
    exact Rose.everywhere_node.2 (Rose.everywhere_node.1 (h.unborrowed _ List.mem_cons_self))

end Grounded

/-! ### Folds -/

def Folded (nodes : List Node) (ledger : Ledger) : Prop :=
  ∃ hub, ledger.hub = some hub ∧ ∃ node ∈ nodes, node.RefersTo hub.hubId

namespace Folded

variable {nodes others : List Node} {ledger later : Ledger} {setting : Setting} {beat : Beat}

theorem mono (h : Folded nodes ledger) (hnodes : nodes ⊆ others)
    (hkept : HubKept setting ledger later) : Folded others later := by
  obtain ⟨hub, hhub, node, hnode, href⟩ := h
  exact ⟨hub, hkept.eq_some hhub, node, hnodes hnode, href⟩

theorem of_eq (h : Folded nodes ledger) (hnodes : nodes ⊆ others) (hhub : later.hub = ledger.hub) :
    Folded others later := by
  obtain ⟨hub, hsome, node, hnode, href⟩ := h
  exact ⟨hub, hhub.trans hsome, node, hnodes hnode, href⟩

theorem parent (h : Folded nodes ledger) : Folded [.node beat nodes] ledger := by
  obtain ⟨hub, hhub, node, hnode, href⟩ := h
  exact ⟨hub, hhub, _, List.mem_cons_self, Node.refersTo_node.2 (.inr ⟨node, hnode, href⟩)⟩

theorem relabelled {child : Node} {label : ChoiceLabel} (h : Folded [child] ledger) :
    Folded [child.withValue (labelBeat label child.value)] ledger := by
  obtain ⟨hub, hhub, node, hnode, href⟩ := h
  rw [List.mem_singleton.1 hnode] at href
  obtain ⟨beat, children⟩ := child
  have hcases : beat.ref = some hub.hubId ∨ ∃ node ∈ children, Node.RefersTo hub.hubId node :=
    Node.refersTo_node.1 href
  exact ⟨hub, hhub, _, List.mem_cons_self, Node.refersTo_node.2 hcases⟩

end Folded

/-- Folding leaves a tree as it is, or leaves a reference to the hub. -/
theorem foldHub_eq_or_refersTo (menu : Option Menu) (hub : HubSnapshot) (node : Node) :
    foldHub menu hub node = node ∨ (foldHub menu hub node).RefersTo hub.hubId := by
  induction node using Rose.induction_on with
  | node beat children ih =>
      rw [foldHub, foldHubs_eq_map]
      split
      · exact .inr (Node.refersTo_node.2 (.inl rfl))
      by_cases hsame : ∀ child ∈ children, foldHub menu hub child = child
      · rw [List.map_congr_left hsame, List.map_id']
        exact .inl rfl
      · push Not at hsame
        obtain ⟨child, hchild, hne⟩ := hsame
        refine .inr (Node.refersTo_node.2 (.inr ⟨_, List.mem_map_of_mem hchild, ?_⟩))
        exact (ih child hchild).resolve_left hne

/-- Folding below a child leaves it as it is, or leaves a reference to the hub. -/
theorem foldBelow_eq_or_folded (setting : Setting) (child : Node) (world : World) :
    (foldBelow setting child world).1 = child ∨
      Folded [(foldBelow setting child world).1] (foldBelow setting child world).2.ledger := by
  obtain hsame | ⟨hub, warned, entries, hhub, -, hfold⟩ := foldBelow_eq setting child world
  · rw [hsame]
    exact .inl rfl
  rw [hfold]
  obtain ⟨beat, children⟩ := child
  by_cases hsame : ∀ node ∈ children, foldHub setting.menu hub node = node
  · left
    rw [Rose.children_node, List.map_congr_left hsame, List.map_id']
    rfl
  · push Not at hsame
    obtain ⟨node, hnode, hne⟩ := hsame
    have href : (foldHub setting.menu hub node).RefersTo hub.hubId :=
      (foldHub_eq_or_refersTo _ _ _).resolve_left hne
    exact .inr ⟨hub, hhub, _, List.mem_cons_self, Node.refersTo_node.2
      (.inr ⟨foldHub setting.menu hub node, List.mem_map_of_mem hnode, href⟩)⟩

/-- The nodes are grounded, or something was folded and they show it. -/
def Traced (known : List Int) (nodes : List Node) (ledger : Ledger) : Prop :=
  Grounded known nodes ledger ∨ Folded nodes ledger

variable {known : List Int}

theorem Traced.of_eq {nodes : List Node} {ledger later : Ledger} (h : Traced known nodes ledger)
    (hnextId : later.nextId = ledger.nextId) (hhub : later.hub = ledger.hub)
    (hstates : later.states = ledger.states) (hconverged : later.converged = ledger.converged) :
    Traced known nodes later := by
  exact h.imp (fun h => h.of_eq (Int.le_of_eq hnextId.symm) hstates hconverged) fun h =>
    h.of_eq (List.Subset.refl _) hhub

/-! ### Visits -/

/-- A visitor that, given known nodes on the way down, refers to known nodes only, unless it folds. -/
def Grounding (next : Visitor) : Prop :=
  ∀ known visit world, Grounded known [] world.ledger → (∀ entry ∈ visit.ancestors, entry.2 ∈ known) →
    Traced known (yielded (next visit world).1) (next visit world).2.ledger

variable {setting : Setting} {next : Visitor} {visit : Visit} {scene : Scene} {frame : Frame}
  {world : World}

theorem Grounding.of_eq (hnext : Grounding next) {after : World}
    {result : Except Fault (Option Node)} (h : next visit world = (result, after))
    (hground : Grounded known [] world.ledger)
    (hancestors : ∀ entry ∈ visit.ancestors, entry.2 ∈ known) :
    Traced known (yielded result) after.ledger := by
  have := hnext known visit world hground hancestors
  rwa [h] at this

theorem foldBelow_eq_self {child : Node} (h : world.ledger.hub = none) :
    foldBelow setting child world = (child, world) := by
  obtain hsame | ⟨hub, warned, entries, hhub, -, -⟩ := foldBelow_eq setting child world
  · exact hsame
  · rw [h] at hhub
    cases hhub

theorem traced_foldBelow {label : ChoiceLabel} {child : Node}
    (h : Traced known [child] world.ledger) :
    Traced known [(foldBelow setting (child.withValue (labelBeat label child.value)) world).1]
      (foldBelow setting (child.withValue (labelBeat label child.value)) world).2.ledger := by
  have hrelabelled : Traced known [child.withValue (labelBeat label child.value)] world.ledger :=
    h.imp Grounded.relabelled Folded.relabelled
  rcases foldBelow_eq_or_folded setting (child.withValue (labelBeat label child.value)) world with
    hsame | hfolded
  · rw [hsame]
    obtain hall | ⟨hub, warned, entries, -, -, hfold⟩ :=
      foldBelow_eq setting (child.withValue (labelBeat label child.value)) world
    · rw [hall]
      exact hrelabelled
    · rw [hfold]
      exact hrelabelled.of_eq rfl rfl rfl rfl
  · exact .inr hfolded

theorem traced_exploreTaken (hnext : Grounding next) (verb : String) (taken : Taken)
    (hground : Grounded known [] world.ledger) (hself : frame.id ∈ known)
    (hancestors : ∀ entry ∈ frame.ancestors, entry.2 ∈ known) :
    Traced known (exploreTaken setting next frame verb taken world).1.toList
      (exploreTaken setting next frame verb taken world).2.ledger := by
  have h := explores setting next frame verb taken world
  have noted : ∀ entries, Grounded known [] (world.ledger.note entries) :=
    fun entries => hground.of_eq (Int.le_refl _) rfl rfl
  generalize exploreTaken setting next frame verb taken world = result at h ⊢
  cases h with
  | returned menu stretch content entries found =>
      refine .inl (hground.childless rfl rfl rfl rfl (fun target htarget => ?_) rfl)
      rw [← Option.some.inj htarget]
      exact hself
  | failed entries fault after found =>
      exact (hnext.of_eq found (noted entries) hancestors).of_eq rfl rfl rfl rfl
  | dropped entries after found => exact hnext.of_eq found (noted entries) hancestors
  | built entries child after found =>
      exact traced_foldBelow (hnext.of_eq found (noted entries) hancestors)

theorem traced_exploreChoices (hevolve : Evolving setting next)
    (hnext : Grounding next) (hground : Grounded known [] world.ledger) (hself : frame.id ∈ known)
    (hancestors : ∀ entry ∈ frame.ancestors, entry.2 ∈ known) :
    Traced known (exploreChoices setting next frame scene world).1
      (exploreChoices setting next frame scene world).2.ledger := by
  refine exploreChoices_rule (K := fun _ nodes now => Traced known nodes now.ledger) hevolve
    { start := .inl hground
      noted := fun _ _ _ _ h => h.of_eq rfl rfl rfl rfl
      skipped := fun _ _ _ h _ => h
      taken := fun done nodes now label verb after h _ _ _ => ?_ }
  rcases h with h | h
  · have htaken : Traced (known ++ nodes.flatMap Node.ids)
        (exploreTaken setting next frame verb ⟨done, label, after⟩ now).1.toList
        (exploreTaken setting next frame verb ⟨done, label, after⟩ now).2.ledger :=
      traced_exploreTaken hnext verb _ h.rest (List.mem_append_left _ hself) fun entry hentry =>
        List.mem_append_left _ (hancestors entry hentry)
    exact htaken.imp h.append fun hfolded => hfolded.of_eq (List.subset_append_right _ _) rfl
  · exact .inr (h.mono (List.subset_append_left _ _) (evolves_exploreTaken hevolve _ _).hub)

/-! ### Branching into knots -/

/-- No node refers to another or borrows children. -/
def Linkless (nodes : List Node) : Prop :=
  ∀ node ∈ nodes, node.Everywhere fun beat _ => beat.ref = none ∧ beat.refChildren = none

theorem linkless_node {beat : Beat} {children : List Node} (href : beat.ref = none)
    (hborrowed : beat.refChildren = none) (h : Linkless children) :
    Linkless [.node beat children] := by
  intro node hnode
  rw [List.mem_singleton.1 hnode]
  exact Rose.everywhere_node.2 ⟨⟨href, hborrowed⟩, h⟩

theorem linkless_nil : Linkless [] := fun _ hnode => nomatch hnode

theorem linkless_expand (setting : Setting) (command : String) (effects : List String)
    (ledger : Ledger) : Linkless (expand setting command effects ledger).1.toOption.toList := by
  generalize hexpand : expand setting command effects ledger = result
  obtain ⟨fault | node, later⟩ := result
  · exact linkless_nil
  · obtain ⟨id, results, rfl, hresults⟩ := exists_of_expand hexpand
    refine linkless_node rfl rfl fun result hresult => ?_
    obtain ⟨⟩ := hresults result hresult
    exact linkless_node rfl rfl (linkless_node rfl rfl linkless_nil) _ List.mem_cons_self

theorem Linkless.links_eq_nil {nodes : List Node} (h : Linkless nodes) :
    nodes.flatMap Node.links = [] := by
  refine List.flatMap_eq_nil_iff.2 fun node hnode => List.flatMap_eq_nil_iff.2 fun inner hinner => ?_
  obtain ⟨href, hborrowed⟩ := h node hnode inner hinner
  rw [Beat.links, href, hborrowed]
  rfl

theorem Grounded.of_linkless {nodes : List Node} {ledger later : Ledger}
    (h : Grounded known [] ledger) (hlinkless : Linkless nodes)
    (hnumbered : Numbered ledger.nextId later.nextId nodes)
    (hstates : later.states = ledger.states) (hconverged : later.converged = ledger.converged) :
    Grounded known nodes later := by
  have hsub : known ++ [].flatMap Node.ids ⊆ known ++ nodes.flatMap Node.ids := by simp
  refine ⟨fun id hid => ?_, ?_, fun node hnode inner hinner target href => ?_, ?_, ?_,
    fun node hnode inner hinner => (hlinkless node hnode inner hinner).2⟩
  · rcases List.mem_append.1 hid with hid | hid
    · have := h.numbered id (by simpa using hid)
      have := hnumbered.le
      omega
    · exact (hnumbered.within id hid).2
  · rw [hlinkless.links_eq_nil]
    exact fun link hlink => nomatch hlink
  · rw [(hlinkless node hnode inner hinner).1] at href
    cases href
  · rw [hstates]
    exact fun entry hentry => hsub (h.states entry hentry)
  · rw [hconverged]
    exact fun entry hentry => hsub (h.converged entry hentry)

/-- The ledger after branching knows what it knew before. -/
theorem grounded_expand {command : String} {effects : List String}
    {made : Except Fault Node} {later : Ledger} (hground : Grounded known [] world.ledger)
    (h : expand setting command effects world.ledger = (made, later)) :
    Grounded known made.toOption.toList later := by
  have hlinkless := linkless_expand setting command effects world.ledger
  have hnumbered := numbered_expand setting command effects world.ledger
  obtain ⟨nextId, nodeTotal, hledger⟩ := expand_eq setting world.ledger command effects
  rw [h] at hlinkless hnumbered hledger
  refine hground.of_linkless hlinkless hnumbered ?_ ?_
  · cases hledger
    rfl
  · cases hledger
    rfl

/-! ### The tree of a scene -/

/-- The id of a new node joins the known ones once the node is sure to be in the tree. -/
theorem grounded_remembered (hground : Grounded known [] world.ledger) :
    Grounded (known ++ [world.ledger.nextId]) [] (remembered setting scene world).ledger := by
  have hnode : Grounded (known ++ [world.ledger.nextId]) [] world.ledger.newNode.2 :=
    hground.grow rfl rfl rfl
  obtain ⟨states, hledger, hsame | hput⟩ :=
    rememberPlace_eq setting scene world.ledger.nextId world.ledger.newNode.2
  · rw [remembered, hledger, hsame]
    exact hnode
  · rw [remembered, hledger, hput]
    refine ⟨hnode.numbered, hnode.links, hnode.back, fun entry hentry => ?_, hnode.converged,
      hnode.unborrowed⟩
    rcases Register.mem_put hentry with rfl | hold
    · simp
    · exact hnode.states entry hold

theorem converged_opened (setting : Setting) (scene : Scene) (world : World) :
    (opened setting scene world).ledger.converged = world.ledger.converged := by
  obtain ⟨states, hremembered, -⟩ :=
    rememberPlace_eq setting scene world.ledger.nextId world.ledger.newNode.2
  obtain ⟨hubId, hub, entries, hregistered, -⟩ :=
    registerHub_eq setting scene world.ledger.nextId (remembered setting scene world).ledger
  rw [opened, World.update, hregistered, remembered, hremembered]
  rfl

theorem grounded_opened (hground : Grounded known [] world.ledger) :
    Grounded (known ++ [world.ledger.nextId]) [] (opened setting scene world).ledger := by
  have hnode : Grounded (known ++ [world.ledger.nextId]) []
      (remembered setting scene world).ledger := grounded_remembered hground
  obtain ⟨hubId, hub, entries, hledger, -⟩ :=
    registerHub_eq setting scene world.ledger.nextId (remembered setting scene world).ledger
  rw [opened, World.update, hledger]
  exact hnode.of_eq (Int.le_refl _) rfl rfl

theorem finish_eq_of_hub (setting : Setting) (scene : Scene) (signature : Option String) (id : Int)
    (children : List Node) {ledger : Ledger} (h : ledger.hub = none) :
    finish setting scene signature id children ledger =
      (.node (fullBeat id scene (partsOf setting scene children ledger.nextId))
        (partsOf setting scene children ledger.nextId).children,
        converge signature id (partsOf setting scene children ledger.nextId).children
          (claim (partsOf setting scene children ledger.nextId) ledger)) := by
  obtain ⟨nodeTotal, hclaim⟩ := claim_eq ledger (partsOf setting scene children ledger.nextId)
  have hhub : (claim (partsOf setting scene children ledger.nextId) ledger).hub = none := by
    rw [hclaim]
    exact h
  unfold finish warnRepeated repeatedHub
  dsimp only
  rw [hhub]
  dsimp only
  rw [hhub]

/-- The parts of a node are as grounded as the children that were found. -/
theorem grounded_parts {children : List Node} {ledger : Ledger}
    (hground : Grounded known children ledger) :
    Grounded known (partsOf setting scene children ledger.nextId).children
      (claim (partsOf setting scene children ledger.nextId) ledger) := by
  obtain ⟨nodeTotal, hclaim⟩ := claim_eq ledger (partsOf setting scene children ledger.nextId)
  rw [hclaim]
  obtain ⟨hnone, hsame⟩ | ⟨beat, hsome, hsplit, hid, href, hborrowed, -⟩ :=
    partsOf_children setting scene children ledger.nextId
  · rw [hsame, hnone]
    exact hground.of_eq (by simp) rfl rfl
  · rw [hsplit, if_pos hsome]
    refine Grounded.parent ?_ (fun target htarget => ?_) hborrowed
    · rw [hid]
      exact hground.grow rfl rfl rfl
    · rw [href] at htarget
      cases htarget

theorem grounded_converge {id : Int} {children : List Node} {ledger : Ledger}
    (signature : Option String) {beat : Beat} (hid : beat.id = id)
    (hground : Grounded known [.node beat children] ledger) :
    Grounded known [.node beat children] (converge signature id children ledger) := by
  obtain ⟨converged, hledger, hsame | ⟨key, -, -, hput⟩⟩ := converge_eq id ledger signature children
  · rw [hledger, hsame]
    exact hground
  · rw [hledger, hput]
    refine ⟨hground.numbered, hground.links, hground.back, hground.states, fun entry hentry => ?_,
      hground.unborrowed⟩
    rcases Register.mem_put hentry with rfl | hold
    · simp [Node.ids_node, hid]
    · exact hground.converged entry hold

/-- A node that was split off stands between, and what is below it stays below. -/
theorem folded_parts {children : List Node} {ledger : Ledger} (hfolded : Folded children ledger) :
    Folded (partsOf setting scene children ledger.nextId).children ledger := by
  obtain ⟨-, hsame⟩ | ⟨beat, -, hsplit, -⟩ := partsOf_children setting scene children ledger.nextId
  · rw [hsame]
    exact hfolded
  · rw [hsplit]
    exact hfolded.parent

theorem traced_finish {id : Int} {children : List Node} {ledger : Ledger}
    (signature : Option String) (htraced : Traced (known ++ [id]) children ledger) :
    Traced known [(finish setting scene signature id children ledger).1]
      (finish setting scene signature id children ledger).2 := by
  have hhub := hub_finish setting scene signature id children ledger
  obtain ⟨nodeTotal, hclaim⟩ := claim_eq ledger (partsOf setting scene children ledger.nextId)
  obtain ⟨warned, entries, hwarn⟩ := warnRepeated_eq setting id
    (claim (partsOf setting scene children ledger.nextId) ledger)
    (partsOf setting scene children ledger.nextId).children
  unfold finish at hhub ⊢
  dsimp only at hhub ⊢
  split at hhub
  · next hubId hrepeated =>
    -- the node repeats the menu and refers to the hub
    right
    unfold repeatedHub at hrepeated
    split at hrepeated
    · next hub hsome =>
      split at hrepeated
      · exact ⟨hub, hsome, _, List.mem_cons_self, Node.refersTo_node.2 (.inl hrepeated.symm)⟩
      · cases hrepeated
    · cases hrepeated
  · rcases htraced with hground | hfolded
    · left
      refine grounded_converge signature rfl (Grounded.parent ?_ (fun _ href => nomatch href) rfl)
      have hparts : Grounded (known ++ [id]) (partsOf setting scene children ledger.nextId).children
          (claim (partsOf setting scene children ledger.nextId) ledger) := grounded_parts hground
      rw [hwarn]
      exact hparts.of_eq (Int.le_refl _) rfl rfl
    · right
      exact (folded_parts hfolded).parent.of_eq (List.Subset.refl _) hhub

theorem ancestors_pathBelow {id : Int} (limits : Limits)
    (hancestors : ∀ entry ∈ visit.ancestors, entry.2 ∈ known) :
    ∀ entry ∈ scene.pathBelow limits visit id, entry.2 ∈ known ++ [id] := by
  intro entry hentry
  unfold Scene.pathBelow at hentry
  split at hentry
  · rcases Register.mem_put hentry with rfl | hold
    · simp
    · exact List.mem_append_left _ (hancestors entry hold)
  · exact List.mem_append_left _ (hancestors entry hentry)

theorem grounded_refBeat {ref : Int} (hground : Grounded known [] world.ledger)
    (href : ref ∈ known) :
    Grounded known [.node (scene.refBeat world.ledger.nextId ref) []] world.ledger.newNode.2 := by
  refine hground.childless rfl rfl rfl rfl (fun target htarget => ?_) rfl
  rw [← Option.some.inj htarget]
  exact href

theorem traced_settleScene (hevolve : Evolving setting next)
    (hnext : Grounding next) (hground : Grounded known [] world.ledger)
    (hancestors : ∀ entry ∈ visit.ancestors, entry.2 ∈ known) :
    Traced known (yielded (settleScene setting next visit scene world).1)
      (settleScene setting next visit scene world).2.ledger := by
  have h := settles setting next visit scene world
  generalize settleScene setting next visit scene world = result at h ⊢
  cases h with
  | textLoop ref found =>
      refine .inl (grounded_refBeat hground ?_)
      unfold Scene.textLoop at found
      split at found
      · exact hancestors _ (Register.mem_of_get? found)
      · cases found
  | repeatedState ref noLoop found =>
      refine .inl (grounded_refBeat hground ?_)
      unfold Scene.repeatedState at found
      split at found
      · simpa using hground.states _ (Register.mem_of_get? found)
      · cases found
  | dropped spent => exact .inl (hground.of_eq (Int.le_refl _) rfl rfl)
  | expanded command node ledger found made => exact .inl (grounded_expand hground made)
  | unexpanded command fault ledger found failed => exact .inl (grounded_expand hground failed)
  | bare silent noChoices =>
      exact .inl (hground.childless rfl rfl rfl rfl (fun _ href => by cases href) rfl)
  | leaf noChoices =>
      exact .inl (Grounded.parent (grounded_remembered hground) (fun _ href => by cases href) rfl)
  | converged key ref signed found =>
      have hopened : Grounded (known ++ [world.ledger.nextId]) []
          (opened setting scene world).ledger := grounded_opened hground
      -- the menu was remembered before this node was numbered
      have hmenu : ref ∈ known := by
        have hsame : (opened setting scene world).ledger.converged = world.ledger.converged :=
          converged_opened setting scene world
        rw [hsame] at found
        simpa using hground.converged _ (Register.mem_of_get? found)
      refine .inl (Grounded.parent hopened (fun target htarget => ?_) rfl)
      rw [← Option.some.inj htarget]
      exact ⟨hmenu, hground.numbered ref (by simpa using hmenu)⟩
  | opened noLoop noState budget children after found =>
      have hopened : Grounded (known ++ [world.ledger.nextId]) []
          (opened setting scene world).ledger := grounded_opened hground
      have hchildren : Traced (known ++ [world.ledger.nextId])
          (explored setting next visit scene world).1
          (explored setting next visit scene world).2.ledger :=
        traced_exploreChoices hevolve hnext hopened (by simp [frameOf])
          (ancestors_pathBelow setting.limits hancestors)
      rw [found] at hchildren
      exact traced_finish _ hchildren

theorem traced_visitWith (hevolve : Evolving setting next)
    (hnext : Grounding next) (hground : Grounded known [] world.ledger)
    (hancestors : ∀ entry ∈ visit.ancestors, entry.2 ∈ known) :
    Traced known (yielded (visitWith setting next visit world).1)
      (visitWith setting next visit world).2.ledger := by
  have hlook : Grounded known [] (look setting visit world).2.ledger := by
    rw [look_eq, drain_eq]
    exact hground.of_eq (Int.le_refl _) rfl rfl
  unfold visitWith
  split
  · next scene after h =>
    rw [h] at hlook
    exact traced_settleScene hevolve hnext hlook hancestors
  · next fault after h =>
    rw [h] at hlook
    exact .inl hlook

theorem grounding_visitLevels (setting : Setting) (levels : Nat) :
    Grounding (visitLevels setting levels) := by
  induction levels with
  | zero =>
      intro known visit world hground hancestors
      refine .inl (hground.childless ?_ ?_ ?_ ?_ (fun _ href => nomatch href) rfl)
      · exact Ledger.nextId_enter ..
      · exact congrArg (· + 1) (Ledger.nextId_enter world.ledger setting.limits visit.depth)
      · exact Ledger.states_enter ..
      · exact Ledger.converged_enter ..
  | succ levels ih =>
      intro known visit world hground hancestors
      refine traced_visitWith (evolving_visitLevels setting levels) ih ?_ hancestors
      exact hground.of_eq (Int.le_of_eq (Ledger.nextId_enter ..).symm) (Ledger.states_enter ..)
        (Ledger.converged_enter ..)

/-- An explored tree has all that it refers to, and refers back, unless a node was folded onto the hub. -/
theorem grounded_or_folded {root : Node} {world : World}
    (h : run setting = (.ok (some root), world)) :
    Grounded [] [root] world.ledger ∨ Folded [root] world.ledger := by
  have hstart : Grounded [] [] (start setting).ledger :=
    ⟨by simp, by simp, by simp, by simp [start], by simp [start], by simp⟩
  exact (grounding_visitLevels setting _).of_eq h hstart (by simp)

theorem Grounded.closed {root : Node} {ledger : Ledger} (h : Grounded [] [root] ledger) :
    root.Closed := by
  intro link hlink
  have hmem := h.links link
  simpa [hlink] using hmem

/-- Without a threshold menu, an explored tree has all that it refers to, and refers back. -/
theorem grounded_run {root : Node} {world : World}
    (nothreshold : ∀ menu, setting.menu = some menu → menu.usesThreshold = false)
    (h : run setting = (.ok (some root), world)) : Grounded [] [root] world.ledger := by
  refine (grounded_or_folded h).resolve_right fun ⟨hub, hhub, _⟩ => ?_
  have hnone := hub_run nothreshold
  rw [h] at hnone
  rw [hnone] at hhub
  cases hhub

/-- Without a threshold menu, every reference of an explored tree leads into the tree. -/
theorem closed_explored {root : Node} {world : World}
    (nothreshold : ∀ menu, setting.menu = some menu → menu.usesThreshold = false)
    (h : run setting = (.ok (some root), world)) : root.Closed ∧ root.Unborrowed := by
  have hground := grounded_run nothreshold h
  exact ⟨hground.closed, hground.unborrowed root List.mem_cons_self⟩

end Explore

end StoryAtlas
