import StoryAtlas.Proofs.Event.Shape
import StoryAtlas.Proofs.Explore.Visit

/-!
# How an exploration numbers its nodes

Ids are handed out in turn, and every node takes the next one. A step therefore makes nodes whose
ids lie between the next id before the step and the next id after it, each used once. Dropping
branches, splitting segments and folding nodes back onto the hub waste ids but never use one twice.

No step makes a node with both a reference and children: references are made without children, and
folding a node onto the hub takes its children away.
-/

namespace StoryAtlas.Explore

/-- The nodes use distinct ids of a range, and none has both a reference and children. -/
structure Numbered (low high : Int) (nodes : List Node) : Prop where
  le : low ≤ high
  distinct : (nodes.flatMap Node.ids).Nodup
  within : ∀ id ∈ nodes.flatMap Node.ids, low ≤ id ∧ id < high
  bare : ∀ node ∈ nodes, node.Bare

namespace Numbered

variable {low middle high : Int} {nodes others : List Node} {beat : Beat}

theorem nil (h : low ≤ high) : Numbered low high [] :=
  ⟨h, List.nodup_nil, by simp, by simp⟩

theorem append (first : Numbered low middle nodes) (second : Numbered middle high others) :
    Numbered low high (nodes ++ others) where
  le := Int.le_trans first.le second.le
  distinct := by
    rw [List.flatMap_append]
    apply first.distinct.append second.distinct
    intro id hfirst hsecond
    have := first.within id hfirst
    have := second.within id hsecond
    omega
  within := by
    intro id hid
    have := first.le
    have := second.le
    rw [List.flatMap_append, List.mem_append] at hid
    rcases hid with hid | hid
    · have := first.within id hid
      omega
    · have := second.within id hid
      omega
  bare := fun node hnode =>
    (List.mem_append.1 hnode).elim (first.bare node) (second.bare node)

theorem mono {lower higher : Int} (h : Numbered low high nodes) (hlow : lower ≤ low)
    (hhigh : high ≤ higher) : Numbered lower higher nodes where
  le := Int.le_trans (Int.le_trans hlow h.le) hhigh
  distinct := h.distinct
  within := fun id hid => by
    have := h.within id hid
    omega
  bare := h.bare

theorem parent (h : Numbered low high nodes) {lower higher : Int} (hlow : lower ≤ low)
    (hhigh : high ≤ higher) (hid : lower ≤ beat.id ∧ beat.id < higher)
    (hfree : beat.id < low ∨ high ≤ beat.id) (href : beat.ref = none) :
    Numbered lower higher [.node beat nodes] where
  le := Int.le_trans (Int.le_trans hlow h.le) hhigh
  distinct := by
    rw [List.flatMap_singleton, Node.ids_node, List.nodup_cons]
    refine ⟨fun hmem => ?_, h.distinct⟩
    have := h.within _ hmem
    omega
  within := by
    intro id hmem
    rw [List.flatMap_singleton, Node.ids_node, List.mem_cons] at hmem
    rcases hmem with rfl | hmem
    · exact hid
    · have := h.within id hmem
      omega
  bare := by
    intro node hnode
    rw [List.mem_singleton.1 hnode]
    refine Rose.everywhere_node.2 ⟨?_, h.bare⟩
    rw [href]
    simp

theorem under_first (h : Numbered (low + 1) high nodes) (hid : beat.id = low)
    (href : beat.ref = none) : Numbered low high [.node beat nodes] := by
  have := h.le
  exact h.parent (by omega) (Int.le_refl _) (by omega) (by omega) href

theorem under_last (h : Numbered low high nodes) (hid : beat.id = high) (href : beat.ref = none) :
    Numbered low (high + 1) [.node beat nodes] := by
  have := h.le
  exact h.parent (Int.le_refl _) (by omega) (by omega) (by omega) href

theorem childless (hid : beat.id = low) : Numbered low (low + 1) [.node beat []] where
  le := by omega
  distinct := by simp [Node.ids_node]
  within := by
    intro id hmem
    have hlow : id = low := by simpa [Node.ids_node, hid] using hmem
    omega
  bare := by
    intro node hnode
    rw [List.mem_singleton.1 hnode]
    exact Rose.everywhere_node.2 ⟨fun _ => rfl, by simp⟩

/-- Losing nodes and children keeps the numbering. -/
theorem of_sublist (h : Numbered low high nodes)
    (hids : (others.flatMap Node.ids).Sublist (nodes.flatMap Node.ids))
    (hbare : ∀ node ∈ others, node.Bare) : Numbered low high others where
  le := h.le
  distinct := h.distinct.sublist hids
  within := fun id hid => h.within id (hids.subset hid)
  bare := hbare

end Numbered

/-! ### Folding onto the hub -/

theorem foldHubs_eq_map (menu : Option Menu) (hub : HubSnapshot) (nodes : List Node) :
    foldHubs menu hub nodes = nodes.map (foldHub menu hub) := by
  induction nodes with
  | nil => rfl
  | cons node nodes ih => rw [foldHubs, ih, List.map_cons]

theorem ids_foldHub (menu : Option Menu) (hub : HubSnapshot) (node : Node) :
    (foldHub menu hub node).ids.Sublist node.ids := by
  induction node using Rose.induction_on with
  | node beat children ih =>
      rw [foldHub]
      split
      · rw [Node.ids_node, Node.ids_node]
        exact (List.nil_sublist _).cons_cons _
      · rw [Node.ids_node, Node.ids_node, foldHubs_eq_map, List.flatMap_map]
        exact (List.Sublist.flatMap_right children ih).cons_cons _

theorem bare_foldHub (menu : Option Menu) (hub : HubSnapshot) {node : Node} (h : node.Bare) :
    (foldHub menu hub node).Bare := by
  induction node using Rose.induction_on with
  | node beat children ih =>
      obtain ⟨hroot, hchildren⟩ := Rose.everywhere_node.1 h
      rw [foldHub]
      split
      · exact Rose.everywhere_node.2 ⟨fun _ => rfl, by simp⟩
      · rw [foldHubs_eq_map]
        refine Rose.everywhere_node.2 ⟨fun href => ?_, ?_⟩
        · rw [hroot href, List.map_nil]
        · rw [List.forall_mem_map]
          exact fun child hchild => ih child hchild (hchildren child hchild)

/-- What `foldBelow` makes of a child that was relabelled. -/
theorem foldBelow_eq (setting : Setting) (child : Node) (world : World) :
    (foldBelow setting child world = (child, world)) ∨
    ∃ hub warned entries, world.ledger.hub = some hub ∧ child.value.id ≠ hub.hubId ∧
      foldBelow setting child world =
        (.node child.value (child.children.map (foldHub setting.menu hub)),
          { world with ledger := { world.ledger with thresholdWarned := warned }.note entries }) := by
  unfold foldBelow
  split
  · next hub hhub =>
    split
    · exact .inl rfl
    · next hne =>
      obtain ⟨warned, entries, h⟩ :=
        world.ledger.warnThreshold_eq setting.unit hub (comparesAny hub child.children)
      refine .inr ⟨hub, warned, entries, hhub, hne, ?_⟩
      rw [foldHubs_eq_map, World.update, h]
      rfl
  · exact .inl rfl

/-! ### Splitting a segment -/

/-- A split hands the children to a node that takes the next id, and that ends or goes on; otherwise
they stay. -/
theorem partsOf_children (setting : Setting) (scene : Scene) (children : List Node) (nextId : Int) :
    ((partsOf setting scene children nextId).created = none ∧
      (partsOf setting scene children nextId).children = children) ∨
    ∃ beat, (partsOf setting scene children nextId).created.isSome ∧
      (partsOf setting scene children nextId).children = [.node beat children] ∧
      beat.id = nextId ∧ beat.ref = none ∧ beat.refChildren = none ∧
      beat.kind = if children.isEmpty then .ending else .dialogue := by
  unfold partsOf
  dsimp only
  split
  · unfold Segment.splitFight
    split
    · exact .inl ⟨rfl, rfl⟩
    · dsimp only
      split
      · exact .inl ⟨rfl, rfl⟩
      · exact .inr ⟨_, rfl, rfl, rfl, rfl, rfl, rfl⟩
  · split
    · unfold Segment.splitDialogue
      dsimp only
      split
      · exact .inl ⟨rfl, rfl⟩
      · split
        · exact .inl ⟨rfl, rfl⟩
        · split
          · exact .inl ⟨rfl, rfl⟩
          · exact .inr ⟨_, rfl, rfl, rfl, rfl, rfl, rfl⟩
    · exact .inl ⟨rfl, rfl⟩

theorem nextId_finish (setting : Setting) (scene : Scene) (signature : Option String) (id : Int)
    (children : List Node) (ledger : Ledger) :
    (finish setting scene signature id children ledger).2.nextId = ledger.nextId +
      if (partsOf setting scene children ledger.nextId).created.isSome then 1 else 0 := by
  obtain ⟨nodeTotal, warned, converged, entries, hledger, -⟩ :=
    ledger_finish setting scene id ledger signature children
  rw [hledger]
  rfl

theorem finish_node (setting : Setting) (scene : Scene) (signature : Option String) (id : Int)
    (children : List Node) (ledger : Ledger) :
    (∃ hubId, (finish setting scene signature id children ledger).1 =
      .node (hubReference id hubId scene (partsOf setting scene children ledger.nextId)) []) ∨
    (finish setting scene signature id children ledger).1 =
      .node (fullBeat id scene (partsOf setting scene children ledger.nextId))
        (partsOf setting scene children ledger.nextId).children := by
  unfold finish
  dsimp only
  split
  · next hubId _ => exact .inl ⟨hubId, rfl⟩
  · exact .inr rfl

theorem numbered_finish (setting : Setting) (scene : Scene) (signature : Option String) (id : Int)
    {children : List Node} {ledger : Ledger} (h : Numbered (id + 1) ledger.nextId children) :
    Numbered id (finish setting scene signature id children ledger).2.nextId
      [(finish setting scene signature id children ledger).1] := by
  have hle := h.le
  have hparts : Numbered (id + 1) (finish setting scene signature id children ledger).2.nextId
      (partsOf setting scene children ledger.nextId).children := by
    rw [nextId_finish]
    obtain ⟨hnone, hsame⟩ | ⟨beat, hsome, hsplit, hid, href, -⟩ :=
      partsOf_children setting scene children ledger.nextId
    · rw [hsame, hnone]
      simpa using h
    · rw [hsplit, if_pos hsome]
      exact h.under_last hid href
  obtain ⟨hubId, hnode⟩ | hnode := finish_node setting scene signature id children ledger
  · rw [hnode]
    exact (Numbered.childless rfl).mono (Int.le_refl _) hparts.le
  · rw [hnode]
    exact hparts.under_first rfl rfl

/-! ### Branching into knots -/

theorem numbered_branch (setting : Setting) (command : String) (knot : String × Json)
    (ledger : Ledger) :
    Numbered ledger.nextId (branch setting command knot ledger).2.nextId
      ((branch setting command knot ledger).1.toOption.join.toList) := by
  unfold branch
  split
  · exact .nil (Int.le_refl _)
  · next text _ =>
    dsimp only
    split
    · exact .nil (Int.le_of_lt (Int.lt_succ _))
    · next effects _ =>
      have houtcome : Numbered ledger.nextId (ledger.nextId + 1)
          [.node (endBeat ledger.nextId (Extract.ofText {} text) effects) []] := .childless rfl
      exact houtcome.under_last rfl rfl

theorem numbered_branches (setting : Setting) (command : String) (knots : List (String × Json))
    (ledger : Ledger) :
    Numbered ledger.nextId (branches setting command knots ledger).2.nextId
      ((branches setting command knots ledger).1.toOption.getD []) := by
  induction knots generalizing ledger with
  | nil => exact .nil (Int.le_refl _)
  | cons knot knots ih =>
      have hfirst := numbered_branch setting command knot ledger
      rw [branches]
      generalize branch setting command knot ledger = first at hfirst
      obtain ⟨fault | node, now⟩ := first
      · exact .nil hfirst.le
      · have hrest := ih now
        dsimp only
        generalize branches setting command knots now = rest at hrest
        obtain ⟨fault | nodes, last⟩ := rest
        · exact .nil (Int.le_trans hfirst.le hrest.le)
        · exact hfirst.append hrest

theorem numbered_expand (setting : Setting) (command : String) (effects : List String)
    (ledger : Ledger) :
    Numbered ledger.nextId (expand setting command effects ledger).2.nextId
      ((expand setting command effects ledger).1.toOption.toList) := by
  have h := numbered_branches setting command setting.bytecode.knots
    (ledger.note (reportKnots setting command))
  unfold expand
  generalize branches setting command setting.bytecode.knots _ = results at h
  obtain ⟨fault | nodes, now⟩ := results
  · exact .nil h.le
  · exact h.under_last rfl rfl

/-! ### Visits -/

def yielded (result : Except Fault (Option Node)) : List Node := result.toOption.join.toList

def Numbering (next : Visitor) : Prop :=
  ∀ visit world, Numbered world.ledger.nextId (next visit world).2.ledger.nextId
    (yielded (next visit world).1)

variable {setting : Setting} {next : Visitor} {visit : Visit} {scene : Scene} {frame : Frame}
  {world : World}

theorem Numbering.of_eq (hnext : Numbering next) {after : World}
    {result : Except Fault (Option Node)} (h : next visit world = (result, after)) :
    Numbered world.ledger.nextId after.ledger.nextId (yielded result) := by
  have := hnext visit world
  rwa [h] at this

theorem numbered_exploreTaken (hnext : Numbering next) (verb : String) (taken : Taken) :
    Numbered world.ledger.nextId
      (exploreTaken setting next frame verb taken world).2.ledger.nextId
      (exploreTaken setting next frame verb taken world).1.toList := by
  have h := explores setting next frame verb taken world
  generalize exploreTaken setting next frame verb taken world = result at h ⊢
  cases h with
  | returned menu stretch content entries found => exact .childless rfl
  | failed entries fault after found => exact .nil (hnext.of_eq found).le
  | dropped entries after found => exact .nil (hnext.of_eq found).le
  | built entries child after found =>
      have hchild := hnext.of_eq found
      have hlabelled : Numbered world.ledger.nextId after.ledger.nextId
          [child.withValue (labelBeat taken.label child.value)] := by
        obtain ⟨beat, children⟩ := child
        refine hchild.of_sublist ?_ ?_
        · simp [yielded, Node.ids_node, Rose.withValue, labelBeat, Except.toOption]
        · intro node hnode
          rw [List.mem_singleton.1 hnode]
          have hbare := Rose.everywhere_node.1 (hchild.bare (.node beat children) (by
            simp [yielded, Except.toOption]))
          exact Rose.everywhere_node.2 hbare
      obtain hsame | ⟨hub, warned, entries, -, -, hfold⟩ := foldBelow_eq setting
        (child.withValue (labelBeat taken.label child.value)) after
      · rw [hsame]
        exact hlabelled
      · rw [hfold]
        generalize child.withValue (labelBeat taken.label child.value) = labelled at hlabelled
        obtain ⟨beat, children⟩ := labelled
        obtain ⟨hroot, hchildren⟩ :=
          Rose.everywhere_node.1 (hlabelled.bare (.node beat children) (by simp))
        refine hlabelled.of_sublist ?_ ?_
        · simp only [List.flatMap_singleton, Node.ids_node, Option.toList_some, Rose.value_node,
            Rose.children_node, List.flatMap_map]
          exact (List.Sublist.flatMap_right _ fun node _ => ids_foldHub _ _ node).cons_cons _
        · intro node hnode
          rw [List.mem_singleton.1 hnode]
          refine Rose.everywhere_node.2 ⟨fun href => ?_, ?_⟩
          · rw [Rose.children_node, hroot href, List.map_nil]
          · rw [Rose.children_node, List.forall_mem_map]
            exact fun inner hinner => bare_foldHub _ _ (hchildren inner hinner)

theorem numbered_exploreChoices (hevolve : Evolving setting next) (hnext : Numbering next) :
    Numbered world.ledger.nextId
      (exploreChoices setting next frame scene world).2.ledger.nextId
      (exploreChoices setting next frame scene world).1 :=
  exploreChoices_rule
    (K := fun _ nodes now => Numbered world.ledger.nextId now.ledger.nextId nodes) hevolve
    { start := .nil (Int.le_refl _)
      noted := fun _ _ _ _ h => h
      skipped := fun _ _ _ h _ => h
      taken := fun _ _ _ _ _ _ h _ _ _ => h.append (numbered_exploreTaken hnext _ _) }

@[simp] theorem nextId_remembered (setting : Setting) (scene : Scene) (world : World) :
    (remembered setting scene world).ledger.nextId = world.ledger.nextId + 1 := by
  obtain ⟨_, h, -⟩ := rememberPlace_eq setting scene world.ledger.nextId world.ledger.newNode.2
  rw [remembered, h]
  rfl

@[simp] theorem nextId_opened (setting : Setting) (scene : Scene) (world : World) :
    (opened setting scene world).ledger.nextId = world.ledger.nextId + 1 := by
  obtain ⟨_, _, _, h, -⟩ := registerHub_eq setting scene world.ledger.nextId
    (remembered setting scene world).ledger
  rw [opened, World.update, h]
  exact nextId_remembered setting scene world

theorem numbered_settleScene (hevolve : Evolving setting next) (hnext : Numbering next) :
    Numbered world.ledger.nextId (settleScene setting next visit scene world).2.ledger.nextId
      (yielded (settleScene setting next visit scene world).1) := by
  have h := settles setting next visit scene world
  generalize settleScene setting next visit scene world = result at h ⊢
  cases h with
  | textLoop ref found => exact .childless rfl
  | repeatedState ref noLoop found => exact .childless rfl
  | dropped spent => exact .nil (Int.le_refl _)
  | expanded command node ledger found made =>
      have h := numbered_expand setting command scene.content.effects world.ledger
      rwa [made] at h
  | unexpanded command fault ledger found failed =>
      have h := numbered_expand setting command scene.content.effects world.ledger
      rw [failed] at h
      exact .nil h.le
  | bare silent noChoices => exact .childless rfl
  | leaf noChoices =>
      rw [nextId_remembered]
      exact .childless rfl
  | converged key ref signed found =>
      rw [nextId_opened]
      exact .childless rfl
  | opened noLoop noState budget children after found =>
      have h : Numbered (opened setting scene world).ledger.nextId
          (explored setting next visit scene world).2.ledger.nextId
          (explored setting next visit scene world).1 := numbered_exploreChoices hevolve hnext
      rw [found, nextId_opened] at h
      exact numbered_finish setting scene _ world.ledger.nextId h

theorem numbered_visitWith (hevolve : Evolving setting next) (hnext : Numbering next) :
    Numbered world.ledger.nextId (visitWith setting next visit world).2.ledger.nextId
      (yielded (visitWith setting next visit world).1) := by
  have hlook : (look setting visit world).2.ledger.nextId = world.ledger.nextId := by
    rw [look_eq, drain_eq]
    rfl
  unfold visitWith
  split
  · next scene after h =>
    rw [h] at hlook
    rw [← hlook]
    exact numbered_settleScene hevolve hnext
  · next fault after h =>
    rw [h] at hlook
    rw [← hlook]
    exact .nil (Int.le_refl _)

theorem numbering_visitLevels (setting : Setting) (levels : Nat) :
    Numbering (visitLevels setting levels) := by
  induction levels with
  | zero =>
      intro visit world
      have hentered : (world.update (Ledger.enter setting.limits visit.depth)).ledger.nextId =
          world.ledger.nextId := Ledger.nextId_enter ..
      rw [← hentered]
      exact .childless rfl
  | succ levels ih =>
      intro visit world
      have hentered : (world.update (Ledger.enter setting.limits visit.depth)).ledger.nextId =
          world.ledger.nextId := Ledger.nextId_enter ..
      rw [← hentered]
      exact numbered_visitWith (evolving_visitLevels setting levels) ih

/-- The tree of a story uses distinct ids below the next one, from 0 on. -/
theorem sound_run {root : Node} {world : World} (h : run setting = (.ok (some root), world)) :
    root.Sound world.ledger.nextId ∧ ∀ id ∈ root.ids, 0 ≤ id := by
  have hnumbered := (numbering_visitLevels setting _).of_eq h
  have hids : (yielded (.ok (some root))).flatMap Node.ids = root.ids := List.flatMap_singleton ..
  refine ⟨⟨hids ▸ hnumbered.distinct, fun id hid => ?_, hnumbered.bare root (by simp [yielded,
    Except.toOption])⟩, fun id hid => ?_⟩
  · exact (hnumbered.within id (hids ▸ hid)).2
  · exact (hnumbered.within id (hids ▸ hid)).1

end StoryAtlas.Explore
