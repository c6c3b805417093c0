import Mathlib.Data.List.Induction
import StoryAtlas.Proofs.Edit.Steps

/-!
# References and children side by side

No node of a sound tree both refers to another and has children. Replacing a node keeps this, since
no node of a draft that passed its check does both, and so does removing nodes. The other actions
look only at one side: children are put in the place of the old ones or behind them whether the node
refers or not, and a reference is set whether the node has children or not. What the actions of an
alteration come to at a node can be read off the alteration, apart from whether a search finds
anything. An alteration is gentle if it leaves no node with both, and only gentle alterations keep
the tree sound.
-/

namespace StoryAtlas

namespace Edit

/-! ### What an action does to either side -/

namespace Action

/-- Whether the node may refer to another afterwards, if it may before. -/
def mayRefer : Action → Bool → Bool
  | replaceNode tree, _ => tree.value.linkCount != 0
  | modify change, before => !(searches change).isEmpty || before && !change.removeRef
  | _, before => before

/-- Whether the node has children afterwards, if it has some before. -/
def hasChildren : Action → Bool → Bool
  | replaceNode tree, _ => !tree.children.isEmpty
  | replaceChildren trees, _ => !trees.isEmpty
  | require _, before => before
  | modify change, before => before && !change.removeChildren
  | addChild _, _ => true

theorem mayRefer_mono (action : Action) {before after : Bool} (h : before = true → after = true)
    (hmay : action.mayRefer before = true) : action.mayRefer after = true := by
  cases before with
  | true => rwa [h rfl]
  | false => cases action <;> simp_all [mayRefer]

end Action

def Remake.hasChildren (remake : Remake) (before : Bool) : Bool :=
  before && !remake.drops || !remake.added.isEmpty

theorem Remake.hasChildren_andThen (first second : Remake) (before : Bool) :
    (first.andThen second).hasChildren before = second.hasChildren (first.hasChildren before) := by
  obtain ⟨change, drops, added⟩ := second
  obtain ⟨firstChange, firstDrops, firstAdded⟩ := first
  cases drops <;> cases firstAdded <;> cases before <;> cases firstDrops <;>
    simp [Remake.hasChildren, Remake.andThen]

namespace Action

variable {state : State} {now : Working} {action : Action}

theorem hasChildren_remake (action : Action) (state : State) (now : Working) (before : Bool) :
    (action.remake state now).hasChildren before = action.hasChildren before := by
  cases action with
  | replaceNode tree =>
      have hempty :
          ((replaceNode tree).remake state now).added.isEmpty = tree.children.isEmpty := by
        rw [Bool.eq_iff_iff, List.isEmpty_iff, List.isEmpty_iff, remake, link, linkTree_renamed,
          Rose.children_node, linkTree, Rose.children_map, List.map_eq_nil_iff,
          children_build_eq_nil]
      rw [Remake.hasChildren, hempty]
      cases before <;> rfl
  | replaceChildren trees =>
      cases trees <;> cases before <;> rfl
  | require requirements => simp [remake, Remake.hasChildren, hasChildren]
  | modify change => simp [remake, Remake.hasChildren, hasChildren]
  | addChild tree => simp [remake, Remake.hasChildren, hasChildren]

theorem mayRefer_of_ref {beat : Beat}
    (h : ((action.remake state now).change beat).ref.isSome = true) :
    action.mayRefer beat.ref.isSome = true := by
  cases action with
  | replaceNode tree =>
      have href : (linkBeat (targetsOf ((replaceNode tree).brought state now))
          ((replaceNode tree).excluded now) state.root
          (buildBeat state.nextId tree.value)).ref.isSome = true := by
        rw [← value_build, ← value_linkTree]
        simpa only [remake, link, linkTree_renamed, Rose.value_node] using h
      exact bne_iff_ne.2 (linkCount_of_ref href)
  | replaceChildren trees => exact h
  | require requirements => exact h
  | modify change =>
      simp only [remake, Function.comp_apply, ref_refer, modifyBeat] at h
      rw [mayRefer, Bool.or_eq_true]
      cases hsearches : searches change with
      | cons search rest => exact .inl rfl
      | nil =>
          right
          rw [hsearches, foundAll, List.getLast?_nil, Option.none_or] at h
          cases hremove : change.removeRef <;> simp_all
  | addChild tree => exact h

theorem ref_of_mayRefer {beat : Beat} (hnode : ∀ tree, action ≠ replaceNode tree)
    (hsearch : ∀ change, action = modify change → searches change = []) :
    ((action.remake state now).change beat).ref.isSome = action.mayRefer beat.ref.isSome := by
  cases action with
  | replaceNode tree => exact absurd rfl (hnode tree)
  | replaceChildren trees => rfl
  | require requirements => rfl
  | modify change =>
      simp only [remake, Function.comp_apply, ref_refer, modifyBeat, hsearch change rfl, foundAll,
        List.getLast?_nil, Option.none_or, mayRefer, List.isEmpty_nil]
      cases change.removeRef <;> cases beat.ref <;> rfl
  | addChild tree => rfl

theorem bare_of_mem_added (unbroken : ∀ tree ∈ action.drafts, Draft.Unbroken tree) {added : Node}
    (h : added ∈ (action.remake state now).added) : added.Bare := by
  cases action with
  | replaceNode tree =>
      rw [remake, link, linkTree_renamed, Rose.children_node] at h
      exact (bare_linkTree (unbroken tree (List.mem_singleton_self tree))).of_mem_walk
        (Rose.mem_walk_of_mem_children h)
  | replaceChildren trees =>
      obtain ⟨⟨tree, child⟩, hpair, rfl⟩ := List.mem_map.1 h
      obtain ⟨built, hbuilt, rfl⟩ := List.mem_map.1 (List.of_mem_zip hpair).2
      obtain ⟨draft, hdraft, first, -, rfl⟩ := exists_draft_of_mem_buildForest hbuilt
      exact bare_borrowFirst _ _ (bare_linkTree (unbroken draft hdraft))
  | require requirements => cases h
  | modify change => cases h
  | addChild tree =>
      rw [List.mem_singleton.1 h]
      exact bare_linkTree (unbroken tree (List.mem_singleton_self tree))

end Action

/-! ### What several actions do to either side -/

def mayRefer (actions : List Action) (before : Bool) : Bool :=
  actions.foldl (fun refers action => action.mayRefer refers) before

def hasChildren (actions : List Action) (before : Bool) : Bool :=
  actions.foldl (fun parent action => action.hasChildren parent) before

section ComesTo

variable {bound : Int} {actions : List Action} {remake : Remake}

theorem mayRefer_mono (actions : List Action) {before after : Bool}
    (h : before = true → after = true) (hmay : mayRefer actions before = true) :
    mayRefer actions after = true := by
  induction actions generalizing before after with
  | nil => exact h hmay
  | cons action actions ih => exact ih (action.mayRefer_mono h) hmay

theorem ComesTo.hasChildren (h : ComesTo bound actions remake) (before : Bool) :
    remake.hasChildren before = Edit.hasChildren actions before := by
  induction h using ComesTo.induction_on generalizing before with
  | nil => simp [Remake.hasChildren, Edit.hasChildren]
  | cons action actions state now rest _ _ ih =>
      rw [Remake.hasChildren_andThen, Action.hasChildren_remake, ih]
      rfl

theorem ComesTo.mayRefer_of_ref (h : ComesTo bound actions remake) {beat : Beat}
    (href : (remake.change beat).ref.isSome = true) :
    mayRefer actions beat.ref.isSome = true := by
  induction h using ComesTo.induction_on generalizing beat with
  | nil => exact href
  | cons action actions state now rest _ _ ih =>
      exact mayRefer_mono actions Action.mayRefer_of_ref (ih href)

theorem ComesTo.ref_of_mayRefer (h : ComesTo bound actions remake)
    (hnode : ∀ action ∈ actions, ∀ tree, action ≠ .replaceNode tree)
    (hsearch : ∀ action ∈ actions, ∀ change, action = .modify change → searches change = [])
    (beat : Beat) : (remake.change beat).ref.isSome = mayRefer actions beat.ref.isSome := by
  induction h using ComesTo.induction_on generalizing beat with
  | nil => rfl
  | cons action actions state now rest _ _ ih =>
      rw [List.forall_mem_cons] at hnode hsearch
      refine (ih hnode.2 hsearch.2 _).trans ?_
      rw [Action.ref_of_mayRefer hnode.1 hsearch.1]
      rfl

theorem ComesTo.bare_added (h : ComesTo bound actions remake)
    (unbroken : ∀ action ∈ actions, ∀ tree ∈ action.drafts, Draft.Unbroken tree) {added : Node}
    (hadded : added ∈ remake.added) : added.Bare := by
  induction h using ComesTo.induction_on with
  | nil => cases hadded
  | cons action actions state now rest _ _ ih =>
      rw [List.forall_mem_cons] at unbroken
      rcases List.mem_append.1 hadded with hfirst | hlater
      · split at hfirst
        · cases hfirst
        · exact Action.bare_of_mem_added unbroken.1 hfirst
      · exact ih unbroken.2 hlater

end ComesTo

end Edit

/-! ### Gentle alterations -/

namespace Alteration

open Edit

/-- Whether the node may refer to another and has children as well, once all is done. -/
def clashes (alteration : Alteration) (node : Placed) : Bool :=
  mayRefer alteration.actions node.beat.ref.isSome &&
    hasChildren alteration.actions !node.children.isEmpty

/-- No node that stays in the tree may refer to another and has children. -/
def Gentle (alteration : Alteration) (root : Node) : Prop :=
  alteration.remove = false → ∀ node ∈ alteration.selected root.placed,
    alteration.Spares root.placed node → alteration.clashes node = false

/-- A modification that refers to nothing by a text. -/
def Searchless (alteration : Alteration) : Prop :=
  ∀ change ∈ alteration.modify, searches change = []

theorem Unbroken.drafts {alteration : Alteration} (unbroken : alteration.Unbroken) :
    ∀ action ∈ alteration.actions, ∀ tree ∈ action.drafts, Draft.Unbroken tree := by
  intro action haction tree htree
  have hdeclares := declares_of_mem_actions haction
  cases action with
  | replaceNode new =>
      rw [List.mem_singleton.1 htree]
      exact unbroken.replaceNode new hdeclares
  | replaceChildren trees => exact unbroken.replaceChildren trees hdeclares tree htree
  | require requirements => cases htree
  | modify change => cases htree
  | addChild new =>
      rw [List.mem_singleton.1 htree]
      exact unbroken.addChild new hdeclares

end Alteration

namespace Edit

variable {alteration : Alteration} {unit : String} {nextId bound : Int} {root : Node} {plan : Plan}
  {node : Placed}

theorem Remake.hasChildren_eq_false {remake : Remake} {children : List Placed} :
    remake.hasChildren (!children.isEmpty) = false ↔
      (remake.drops = true ∨ children = []) ∧ remake.added = [] := by
  simp only [Remake.hasChildren, Bool.or_eq_false_iff, Bool.and_eq_false_iff,
    List.isEmpty_iff, Bool.not_eq_false']
  tauto

theorem Carried.tidy (h : Carried alteration bound root.placed plan)
    (unbroken : alteration.Unbroken) (bare : root.Bare) (hnode : node ∈ root.placed.walk)
    (hgentle : node ∈ alteration.selected root.placed → alteration.clashes node = false) :
    plan.Tidy node := by
  by_cases hselected : node ∈ alteration.selected root.placed
  · have hcomes := h.chosen node hselected
    refine ⟨fun href => Remake.hasChildren_eq_false.1 ?_,
      fun added => hcomes.bare_added unbroken.drafts⟩
    have hclash := hgentle hselected
    rw [Alteration.clashes, hcomes.mayRefer_of_ref href, Bool.true_and] at hclash
    rw [hcomes.hasChildren, hclash]
  · have hidle := h.idle_of_notMem hnode hselected
    rw [← Node.forget_placed root, Placed.bare_forget] at bare
    refine ⟨fun href => ?_, fun added hadded => ?_⟩
    · rw [hidle] at href ⊢
      exact ⟨.inr (bare node hnode href), rfl⟩
    · rw [hidle] at hadded
      cases hadded

theorem clashes_eq_false_of_replaceNode {tree : DraftTree}
    (hactions : alteration.actions = [.replaceNode tree]) (unbroken : Draft.Unbroken tree) :
    alteration.clashes node = false := by
  obtain ⟨hcountLe, hchildless⟩ := Draft.broken_eq_none.1 (unbroken tree (Rose.self_mem_walk tree))
  rw [Alteration.clashes, hactions]
  simp only [mayRefer, hasChildren, List.foldl_cons, List.foldl_nil, Action.mayRefer,
    Action.hasChildren]
  by_cases hcount : tree.value.linkCount = 0
  · simp [hcount]
  · simp [hchildless (by omega)]

/-- Where nothing is searched for, a tidy node does not clash. -/
theorem Carried.clashes_eq_false (h : Carried alteration bound root.placed plan)
    (unbroken : alteration.Unbroken) (searchless : alteration.Searchless)
    (hselected : node ∈ alteration.selected root.placed) (tidy : plan.Tidy node) :
    alteration.clashes node = false := by
  cases hreplace : alteration.replaceNode with
  | some tree =>
      refine clashes_eq_false_of_replaceNode ?_ (unbroken.replaceNode tree hreplace)
      rw [Alteration.actions, hreplace]
  | none =>
      have hcomes := h.chosen node hselected
      have hnode : ∀ action ∈ alteration.actions, ∀ tree, action ≠ .replaceNode tree := by
        rintro _ haction tree rfl
        have hdeclares : alteration.replaceNode = some tree :=
          Alteration.declares_of_mem_actions haction
        rw [hreplace] at hdeclares
        cases hdeclares
      have hsearch : ∀ action ∈ alteration.actions, ∀ change, action = .modify change →
          searches change = [] := by
        rintro _ haction change rfl
        exact searchless change (Alteration.declares_of_mem_actions haction)
      rw [Alteration.clashes, ← hcomes.ref_of_mayRefer hnode hsearch, ← hcomes.hasChildren]
      cases href : ((plan node.place).change node.beat).ref.isSome with
      | false => rfl
      | true => exact Remake.hasChildren_eq_false.2 (tidy.self href)

/-! ### One alteration -/

theorem bare_applyOne (unbroken : alteration.Unbroken) (bare : root.Bare)
    (gentle : alteration.Gentle root) :
    (applyOne unit nextId root alteration).root.forget.Bare := by
  cases hremove : alteration.remove with
  | true =>
      rcases exists_prune_of_remove hremove unit nextId root with hsame | ⟨drops, hpruned⟩
      · rwa [hsame]
      · rw [← Node.forget_placed root, Placed.bare_forget] at bare
        rw [hpruned, Placed.bare_forget]
        exact Rose.childless_prune drops bare
  | false =>
      obtain ⟨plan, hcarried, hmade⟩ := exists_carried hremove unit nextId root
      rw [hmade, Plan.bare_made_iff (Placed.nodup_places_placed root)]
      intro node hnode
      obtain ⟨hmem, hspares⟩ := hcarried.shows_iff.1 hnode
      exact hcarried.tidy unbroken bare hmem fun hselected =>
        gentle hremove node hselected hspares

theorem gentle_of_bare_applyOne (unbroken : alteration.Unbroken)
    (searchless : alteration.Searchless)
    (bare : (applyOne unit nextId root alteration).root.forget.Bare) : alteration.Gentle root := by
  intro hremove node hselected hspares
  obtain ⟨plan, hcarried, hmade⟩ := exists_carried hremove unit nextId root
  rw [hmade, Plan.bare_made_iff (Placed.nodup_places_placed root)] at bare
  have hshows := hcarried.shows_iff.2 ⟨List.mem_of_mem_filter hselected, hspares⟩
  exact hcarried.clashes_eq_false unbroken searchless hselected (bare node hshows)

/-! ### All alterations of a unit -/

theorem root_apply_snoc (unit : String) (before : List Alteration) (alteration : Alteration)
    (nextId : Int) (root : Node) :
    (apply unit (before ++ [alteration]) nextId root).root =
      (applyOne unit (apply unit before nextId root).nextId (apply unit before nextId root).root
        alteration).root.forget := by
  rw [apply, List.foldl_append]
  rfl

theorem Alteration.unbroken_of_checked {alterations : List Alteration}
    (checked : ∀ alteration ∈ alterations, ∃ payload,
      Alteration.check payload = .valid alteration) :
    ∀ alteration ∈ alterations, Alteration.Unbroken alteration := by
  intro alteration hmem
  obtain ⟨payload, hpayload⟩ := checked alteration hmem
  exact Alteration.ensures_check hpayload

/-- Alterations that passed their check leave no node with both a reference and children, provided
each is gentle with the tree that the ones before it left. An alteration that searches for nothing
has to be: where it leaves no such node, it was gentle. -/
theorem bare_apply {unit : String} {alterations : List Alteration} {nextId : Int} {root : Node}
    (checked : ∀ alteration ∈ alterations, ∃ payload,
      Alteration.check payload = .valid alteration)
    (bare : root.Bare) :
    ((∀ before alteration after, alterations = before ++ alteration :: after →
        alteration.Gentle (apply unit before nextId root).root) →
      (apply unit alterations nextId root).root.Bare) ∧
    ∀ before alteration after, alterations = before ++ alteration :: after →
      alteration.Searchless → (apply unit (before ++ [alteration]) nextId root).root.Bare →
        alteration.Gentle (apply unit before nextId root).root := by
  have hunbroken := Alteration.unbroken_of_checked checked
  constructor
  · intro gentle
    clear checked
    induction alterations using List.reverseRecOn with
    | nil => exact bare
    | append_singleton before alteration ih =>
        rw [root_apply_snoc]
        refine bare_applyOne (hunbroken alteration (by simp)) ?_ (gentle before alteration [] rfl)
        refine ih (fun other hother => hunbroken other (List.mem_append_left _ hother)) ?_
        intro first other rest hsplit
        refine gentle first other (rest ++ [alteration]) ?_
        rw [hsplit, List.append_assoc, List.cons_append]
  · intro before alteration after hsplit searchless hafter
    rw [root_apply_snoc] at hafter
    exact gentle_of_bare_applyOne (hunbroken alteration (by simp [hsplit])) searchless hafter

def doorBack : Node :=
  .node { id := 0, kind := .dialogue, text := some "A hall." }
    [.node { id := 1, kind := .dialogue, text := some "A door.", ref := some 0 } []]

def doorOpened : Alteration where
  find := { textOrLabel := some "door" }
  modify := some { removeRef := true }
  addChild := some (.node { kind := .ending, text := some "Done." } [])

def doorBlocked : Alteration := { doorOpened with modify := none }

theorem bare_doorBack : Node.Bare doorBack := by
  unfold Node.Bare Rose.Everywhere
  decide

theorem bare_apply_doorBack :
    (∀ alteration ∈ [doorOpened], ∃ payload, Alteration.check payload = .valid alteration) ∧
    Node.Bare doorBack ∧ doorOpened.Gentle doorBack ∧
    (apply "Hall" [doorOpened] 2 doorBack).root.Bare := by
  have checked : ∀ alteration ∈ [doorOpened], ∃ payload,
      Alteration.check payload = .valid alteration := by
    intro alteration halteration
    rw [List.mem_singleton.1 halteration]
    exact ⟨doorOpened.toJson, rfl⟩
  have hclashes : ∀ node ∈ doorOpened.selected doorBack.placed,
      doorOpened.clashes node = false := by
    decide +kernel
  have gentle : doorOpened.Gentle doorBack := fun _ node hnode _ => hclashes node hnode
  refine ⟨checked, bare_doorBack, gentle, (bare_apply checked bare_doorBack).1 ?_⟩
  intro before alteration after hsplit
  rcases List.singleton_eq_append_iff.1 hsplit with ⟨rfl, hrest⟩ | ⟨-, hrest⟩
  · rw [(List.cons.inj hrest).1]
    exact gentle
  · cases hrest

/-- A child is added to a node that refers, and the node keeps its reference. -/
theorem not_bare_apply_doorBack :
    (∃ payload, Alteration.check payload = .valid doorBlocked) ∧ Node.Bare doorBack ∧
      ¬(apply "Hall" [doorBlocked] 2 doorBack).root.Bare := by
  refine ⟨⟨doorBlocked.toJson, rfl⟩, bare_doorBack, ?_⟩
  unfold Node.Bare Rose.Everywhere
  decide +kernel

end Edit

end StoryAtlas
