import StoryAtlas.Proofs.Edit.Steps

/-!
# The references that an alteration makes

New nodes may be linked to each other by number and to the rest of the tree by a text, and a
modification may look for texts as well. Each of these references is made by some step at a node
that the tree has at that moment. Apart from them, a node of the altered tree refers only to what it
referred to before, or to an id that its draft names outright.
-/

namespace StoryAtlas

namespace Edit

/-- A reference that is made: from which node to which, and whether a text was searched for. -/
structure NewRef where
  source : Int
  target : Int
  bySearch : Bool
deriving DecidableEq, Repr

def Wish.bySearch : Wish → Bool
  | .source _ => false
  | .search _ => true

namespace Action

/-- What the wishes of the new nodes are granted. -/
def grants (state : State) (now : Working) (action : Action) : List NewRef :=
  (Rose.walkForest (action.brought state now)).filterMap fun node =>
    node.value.wish.bind fun wish =>
      (grant (targetsOf (action.brought state now)) (action.excluded now) state.root wish).map
        fun target => ⟨node.value.beat.id, target, wish.bySearch⟩

def links (state : State) (now : Working) (action : Action) : List NewRef :=
  match action with
  | modify change =>
    (foundAll now (searches change) (modified change now state.root)).map
      fun target => ⟨now.beat.id, target, true⟩
  | _ => action.grants state now

/-- The ids that drafts of an action name outright. -/
def draftRefs (action : Action) : List Int :=
  (Rose.walkForest action.drafts).filterMap fun draft => draft.value.ref

end Action

/-- The references that a step makes, none if the tree has lost the node. -/
def Step.links (step : Step) (state : State) : List NewRef :=
  match Working.atPlace? step.node.place state.root with
  | some now => step.action.links state now
  | none => []

def linksOf (unit : String) : List Step → State → List NewRef
  | [], _ => []
  | step :: steps, state => step.links state ++ linksOf unit steps (step.run unit state)

end Edit

namespace Alteration

open Edit

def links (alteration : Alteration) (unit : String) (nextId : Int) (root : Node) : List NewRef :=
  if alteration.remove then []
  else linksOf unit (stepsOf alteration.actions (alteration.selected root.placed))
    (start nextId root)

def draftRefs (alteration : Alteration) : List Int := alteration.actions.flatMap Action.draftRefs

/-- The ids below selected nodes that lose their children. -/
def dropped (alteration : Alteration) (root : Node) : List Int :=
  if alteration.drops then (alteration.selected root.placed).flatMap Placed.descendantIds else []

end Alteration

namespace Edit

/-! ### New nodes -/

namespace Action

variable {action : Action} {state : State} {now : Working} {inner : Rose Built} {node added : Node}

theorem mem_walkForest_singleton {built : Rose Built} :
    inner ∈ Rose.walkForest [built] ↔ inner = built ∨ inner ∈ Rose.walkForest built.children := by
  rw [Rose.mem_walkForest]
  simp [Rose.mem_walk]

theorem children_link (action : Action) (state : State) (now : Working) (built : Rose Built) :
    (action.link state now built).children = built.children.map (action.link state now) :=
  Rose.children_map _ _

/-- Every node that is linked is among the new children that the action adds. -/
theorem exists_added_of_mem_linked {trees : List DraftTree} {linked : List Node}
    (hlength : linked.length = trees.length) {child : Node} (h : child ∈ linked)
    (borrow : DraftTree → Node → Node) (hids : ∀ tree child, (borrow tree child).ids = child.ids) :
    ∃ added ∈ (trees.zip linked).map fun (tree, child) => borrow tree child,
      Node.ids added = child.ids := by
  have hzip : (trees.zip linked).map Prod.snd = linked := List.map_snd_zip (Nat.le_of_eq hlength)
  rw [← hzip] at h
  obtain ⟨⟨tree, _⟩, hpair, rfl⟩ := List.mem_map.1 h
  exact ⟨_, List.mem_map_of_mem hpair, hids tree _⟩

theorem id_of_mem_brought (h : inner ∈ Rose.walkForest (action.brought state now)) :
    inner.value.beat.id = now.beat.id ∨
      ∃ added ∈ (action.remake state now).added, inner.value.beat.id ∈ Node.ids added := by
  cases action with
  | replaceNode tree =>
      rcases mem_walkForest_singleton.1 h with rfl | hbelow
      · exact .inl rfl
      · obtain ⟨child, hchild, hmem⟩ := Rose.mem_walkForest.1 hbelow
        refine .inr ⟨(replaceNode tree).link state now child, ?_,
          mem_ids_linkTree.2 ⟨inner, hmem, rfl⟩⟩
        rw [remake, children_link]
        exact List.mem_map_of_mem hchild
  | replaceChildren trees =>
      obtain ⟨built, hbuilt, hmem⟩ := Rose.mem_walkForest.1 h
      have hlength : ((buildForest state.nextId trees).map
          ((replaceChildren trees).link state now)).length = trees.length := by
        rw [List.length_map, length_buildForest]
      obtain ⟨added, hadded, hids⟩ := exists_added_of_mem_linked hlength
        (List.mem_map_of_mem hbuilt)
        (fun tree child => borrowFirst (firstChildIds ((buildForest state.nextId trees).map
          ((replaceChildren trees).link state now))) tree.value.borrowsFirst child)
        (fun tree child => ids_borrowFirst _ _ child)
      refine .inr ⟨added, hadded, ?_⟩
      rw [hids]
      exact mem_ids_linkTree.2 ⟨inner, hmem, rfl⟩
  | require requirements => cases h
  | modify change => cases h
  | addChild tree =>
      obtain ⟨built, hbuilt, hmem⟩ := Rose.mem_walkForest.1 h
      rw [List.mem_singleton.1 hbuilt] at hmem
      exact .inr ⟨_, List.mem_singleton_self _, mem_ids_linkTree.2 ⟨inner, hmem, rfl⟩⟩

def linkedBeat (state : State) (now : Working) (action : Action) (node : Built) : Beat :=
  linkBeat (targetsOf (action.brought state now)) (action.excluded now) state.root node

theorem exists_of_mem_walk_link {built : Rose Built}
    (h : node ∈ (action.link state now built).walk) :
    ∃ inner ∈ built.walk, node.value = action.linkedBeat state now inner.value := by
  obtain ⟨inner, hinner, rfl⟩ := mem_walk_linkTree.1 h
  exact ⟨inner, hinner, value_linkTree inner⟩

theorem exists_of_mem_walk_borrowFirst {ids : Option (List Int)} {borrows : Bool} {child : Node}
    (h : node ∈ (borrowFirst ids borrows child).walk) :
    ∃ inner ∈ child.walk, Node.id inner = node.id ∧ inner.value.ref = node.value.ref := by
  obtain ⟨beat, children⟩ := child
  unfold borrowFirst at h
  split at h
  · split at h
    · rcases Rose.mem_walk.1 h with rfl | hbelow
      · exact ⟨_, Rose.self_mem_walk _, rfl, rfl⟩
      · exact ⟨node, Rose.mem_walk.2 (.inr hbelow), rfl, rfl⟩
    · exact ⟨node, h, rfl, rfl⟩
  · exact ⟨node, h, rfl, rfl⟩

theorem exists_brought_of_mem_added (hadded : added ∈ (action.remake state now).added)
    (hnode : node ∈ added.walk) :
    ∃ inner ∈ Rose.walkForest (action.brought state now),
      (action.linkedBeat state now inner.value).id = node.id ∧
      (action.linkedBeat state now inner.value).ref = node.value.ref := by
  cases action with
  | replaceNode tree =>
      rw [remake, children_link] at hadded
      obtain ⟨built, hbuilt, rfl⟩ := List.mem_map.1 hadded
      obtain ⟨inner, hinner, hvalue⟩ := exists_of_mem_walk_link hnode
      refine ⟨inner, mem_walkForest_singleton.2 (.inr ?_), ?_, ?_⟩
      · exact Rose.mem_walkForest.2 ⟨built, hbuilt, hinner⟩
      · rw [Node.id, hvalue]
      · rw [hvalue]
  | replaceChildren trees =>
      obtain ⟨⟨tree, child⟩, hpair, rfl⟩ := List.mem_map.1 hadded
      obtain ⟨built, hbuilt, rfl⟩ := List.mem_map.1 (List.of_mem_zip hpair).2
      obtain ⟨origin, horigin, hid, href⟩ := exists_of_mem_walk_borrowFirst hnode
      obtain ⟨inner, hinner, hvalue⟩ := exists_of_mem_walk_link horigin
      refine ⟨inner, Rose.mem_walkForest.2 ⟨built, hbuilt, hinner⟩, ?_, ?_⟩
      · rw [← hid, Node.id, hvalue]
      · rw [← href, hvalue]
  | require requirements => cases hadded
  | modify change => cases hadded
  | addChild tree =>
      rw [List.mem_singleton.1 hadded] at hnode
      obtain ⟨inner, hinner, hvalue⟩ := exists_of_mem_walk_link hnode
      refine ⟨inner, Rose.mem_walkForest.2 ⟨_, List.mem_singleton_self _, hinner⟩, ?_, ?_⟩
      · rw [Node.id, hvalue]
      · rw [hvalue]

/-- Where a new node refers once it is linked: to what it was granted, or to what its draft says. -/
theorem ref_of_mem_brought (h : inner ∈ Rose.walkForest (action.brought state now)) {target : Int}
    (href : (action.linkedBeat state now inner.value).ref = some target) :
    (∃ link ∈ action.grants state now, link.source = inner.value.beat.id ∧ link.target = target) ∨
      inner.value.beat.ref = some target := by
  rw [linkedBeat, ref_linkBeat] at href
  cases hwish : inner.value.wish with
  | none =>
      rw [hwish] at href
      exact .inr href
  | some wish =>
      rw [hwish, Option.bind_some] at href
      cases hgrant : grant (targetsOf (action.brought state now)) (action.excluded now) state.root
          wish with
      | none =>
          rw [hgrant] at href
          exact .inr href
      | some granted =>
          rw [hgrant, Option.some_or] at href
          refine .inl ⟨⟨inner.value.beat.id, granted, wish.bySearch⟩, ?_, rfl, Option.some.inj href⟩
          refine List.mem_filterMap.2 ⟨inner, h, ?_⟩
          rw [hwish, Option.bind_some, hgrant]
          rfl

theorem draftRef_of_mem_brought (h : inner ∈ Rose.walkForest (action.brought state now))
    {target : Int} (href : inner.value.beat.ref = some target) : target ∈ action.draftRefs := by
  have hdraft {tree : DraftTree} {first : Int} {built : Rose Built} (htree : tree ∈ action.drafts)
      (hbuilt : built ∈ (build first tree).walk) (hsame : built.value.beat.ref = some target) :
      target ∈ action.draftRefs := by
    obtain ⟨draft, hmem, id, -, rfl⟩ := exists_draft_of_mem_build hbuilt
    rw [value_build] at hsame
    exact List.mem_filterMap.2 ⟨draft, Rose.mem_walkForest.2 ⟨tree, htree, hmem⟩, hsame⟩
  cases action with
  | replaceNode tree =>
      have htree : tree ∈ (replaceNode tree).drafts := List.mem_singleton_self tree
      rcases mem_walkForest_singleton.1 h with rfl | hbelow
      · exact hdraft htree (Rose.self_mem_walk _) href
      · exact hdraft htree (Rose.mem_walk.2 (.inr hbelow)) href
  | replaceChildren trees =>
      obtain ⟨built, hbuilt, hmem⟩ := Rose.mem_walkForest.1 h
      obtain ⟨tree, htree, first, -, rfl⟩ := exists_draft_of_mem_buildForest hbuilt
      exact hdraft htree hmem href
  | require requirements => cases h
  | modify change => cases h
  | addChild tree =>
      obtain ⟨built, hbuilt, hmem⟩ := Rose.mem_walkForest.1 h
      rw [List.mem_singleton.1 hbuilt] at hmem
      exact hdraft (List.mem_singleton_self tree) hmem href

theorem ref_of_change {target : Int}
    (href : ((action.remake state now).change now.beat).ref = some target) :
    (∃ link ∈ action.links state now, link.source = now.beat.id ∧ link.target = target) ∨
      now.beat.ref = some target ∨ target ∈ action.draftRefs := by
  cases action with
  | replaceNode tree =>
      have hroot : renamed now.beat.id (build state.nextId tree) ∈
          Rose.walkForest ((replaceNode tree).brought state now) :=
        mem_walkForest_singleton.2 (.inl rfl)
      have hlinked : ((replaceNode tree).linkedBeat state now
          (renamed now.beat.id (build state.nextId tree)).value).ref = some target := by
        rw [linkedBeat, ← value_linkTree]
        exact href
      rcases ref_of_mem_brought hroot hlinked with hgrant | hdraft
      · exact .inl hgrant
      · exact .inr (.inr (draftRef_of_mem_brought hroot hdraft))
  | replaceChildren trees => exact .inr (.inl href)
  | require requirements => exact .inr (.inl href)
  | modify change =>
      simp only [remake, Function.comp_apply, ref_refer, modifyBeat] at href
      cases hlast : (foundAll now (searches change) (modified change now state.root)).getLast? with
      | some found =>
          rw [hlast, Option.some_or, Option.some.injEq] at href
          refine .inl ⟨⟨now.beat.id, found, true⟩, ?_, rfl, href⟩
          exact List.mem_map_of_mem (List.mem_of_getLast? hlast)
      | none =>
          rw [hlast, Option.none_or] at href
          split at href
          · cases href
          · exact .inr (.inl href)
  | addChild tree => exact .inr (.inl href)

theorem ref_of_mem_added (hadded : added ∈ (action.remake state now).added)
    (hnode : node ∈ added.walk) {target : Int} (href : node.value.ref = some target) :
    (∃ link ∈ action.links state now, link.source = node.id ∧ link.target = target) ∨
      target ∈ action.draftRefs := by
  obtain ⟨inner, hinner, hid, hsame⟩ := exists_brought_of_mem_added hadded hnode
  rw [← hsame] at href
  rw [linkedBeat, id_linkBeat] at hid
  rcases ref_of_mem_brought hinner href with hgrant | hdraft
  · rw [hid] at hgrant
    left
    cases action with
    | modify change => cases hinner
    | _ => exact hgrant
  · exact .inr (draftRef_of_mem_brought hinner hdraft)

/-! ### From where and to where -/

theorem id_mem_of_searchNode {text : String} {atStart : Bool} {passed : List Int}
    {root target : Working} (h : searchNode text atStart passed root = some target) :
    target.beat.id ∈ root.forget.ids := by
  have hmem : target ∈ root.walk := List.mem_of_find?_eq_some h
  rw [Node.mem_ids, Working.forget, Rose.walk_map]
  refine ⟨_, List.mem_map_of_mem hmem, ?_⟩
  rw [Node.id, Rose.value_map]
  rfl

theorem ids_editBeat (place : Option Nat) {edit : Beat → Beat}
    (h : ∀ beat, (edit beat).id = beat.id) (root : Working) :
    (editBeat place edit root).forget.ids = root.forget.ids := by
  unfold editBeat
  split
  · rw [Working.forget, Working.forget, Rose.map_map, Node.ids, Node.ids, Rose.walk_map,
      Rose.walk_map, List.map_map, List.map_map]
    refine List.map_congr_left fun inner _ => ?_
    simp only [Function.comp_apply, Node.id, Rose.value_map]
    split
    · exact h _
    · rfl
  · rfl

theorem ids_clearChildren (place : Option Nat) (root : Working) :
    (clearChildren place root).forget.ids ⊆ root.forget.ids := by
  unfold clearChildren
  split
  · intro id hid
    rw [Node.mem_ids, Working.forget, Rose.walk_map] at hid ⊢
    obtain ⟨_, hmap, rfl⟩ := hid
    obtain ⟨inner, hinner, rfl⟩ := List.mem_map.1 hmap
    have hvalue : ∃ origin ∈ root.walk, Rose.value origin = inner.value := by
      rcases Rose.mem_walk_editWhere hinner with
        ⟨origin, horigin, htest, rfl⟩ | ⟨origin, horigin, -, hmem⟩
      · exact ⟨origin, horigin, by rw [Rose.editWhere_of_neg htest, Rose.value_node]⟩
      · rcases Rose.mem_walk.1 hmem with rfl | hbelow
        · exact ⟨origin, horigin, rfl⟩
        · cases hbelow
    obtain ⟨origin, horigin, hsame⟩ := hvalue
    refine ⟨_, List.mem_map_of_mem horigin, ?_⟩
    rw [Node.id, Node.id, Rose.value_map, Rose.value_map, hsame]
  · exact fun _ hid => hid

theorem foundAll_subset (now : Working) (searches : List (String × Bool)) (root : Working) :
    foundAll now searches root ⊆ root.forget.ids := by
  induction searches generalizing root with
  | nil => exact List.nil_subset _
  | cons search rest ih =>
      rw [foundAll]
      refine List.append_subset.2 ⟨fun id hid => ?_, fun id hid => ?_⟩
      · rw [Option.mem_toList] at hid
        unfold found at hid
        split at hid
        · next target htarget =>
          split at hid
          · cases hid
          · rw [← Option.some.inj hid]
            exact id_mem_of_searchNode htarget
        · cases hid
      · rw [← ids_editBeat now.place (id_refer _) root]
        exact ih _ hid

theorem ids_modified_subset (change : Modification) (now root : Working) :
    (modified change now root).forget.ids ⊆ root.forget.ids := by
  have hid : ∀ beat, (modifyBeat change beat).id = beat.id := fun _ => rfl
  unfold modified
  dsimp only
  rw [← ids_editBeat now.place hid root]
  split
  · exact ids_clearChildren _ _
  · exact fun _ hid => hid

/-- What a search leads to is in the tree that the step finds, and what a number leads to is new or
the node itself. -/
theorem target_of_mem_grants {link : NewRef} (h : link ∈ action.grants state now) :
    (link.bySearch = true → link.target ∈ state.root.forget.ids) ∧
    (link.bySearch = false → link.target = now.beat.id ∨
      ∃ added ∈ (action.remake state now).added, link.target ∈ Node.ids added) := by
  obtain ⟨inner, -, hlink⟩ := List.mem_filterMap.1 h
  obtain ⟨wish, -, hgranted⟩ := Option.bind_eq_some_iff.1 hlink
  obtain ⟨target, hgrant, rfl⟩ := Option.map_eq_some_iff.1 hgranted
  cases wish with
  | source number =>
      refine ⟨fun hsearch => (Bool.false_ne_true hsearch).elim, fun _ => ?_⟩
      obtain ⟨origin, horigin, rfl⟩ := exists_of_get?_targetsOf hgrant
      exact id_of_mem_brought horigin
  | search text =>
      refine ⟨fun _ => ?_, fun hsearch => (Bool.false_ne_true hsearch.symm).elim⟩
      obtain ⟨origin, horigin, rfl⟩ := Option.map_eq_some_iff.1 hgrant
      exact id_mem_of_searchNode horigin

theorem target_of_mem_links {link : NewRef} (h : link ∈ action.links state now) :
    (link.bySearch = true → link.target ∈ state.root.forget.ids) ∧
    (link.bySearch = false → link.target = now.beat.id ∨
      ∃ added ∈ (action.remake state now).added, link.target ∈ Node.ids added) := by
  cases action with
  | modify change =>
      obtain ⟨target, htarget, rfl⟩ := List.mem_map.1 h
      refine ⟨fun _ => ?_, fun hsearch => (Bool.false_ne_true hsearch.symm).elim⟩
      exact ids_modified_subset change now state.root (foundAll_subset _ _ _ htarget)
  | _ => exact target_of_mem_grants h

theorem source_of_mem_links {link : NewRef} (h : link ∈ action.links state now) :
    link.source = now.beat.id ∨
      ∃ added ∈ (action.remake state now).added, link.source ∈ Node.ids added := by
  have hgrants (hmem : link ∈ action.grants state now) : link.source = now.beat.id ∨
      ∃ added ∈ (action.remake state now).added, link.source ∈ Node.ids added := by
    obtain ⟨inner, hinner, hlink⟩ := List.mem_filterMap.1 hmem
    obtain ⟨wish, -, hgranted⟩ := Option.bind_eq_some_iff.1 hlink
    obtain ⟨target, -, rfl⟩ := Option.map_eq_some_iff.1 hgranted
    exact id_of_mem_brought hinner
  cases action with
  | modify change =>
      obtain ⟨target, -, rfl⟩ := List.mem_map.1 h
      exact .inl rfl
  | _ => exact hgrants h

end Action

end Edit

end StoryAtlas
