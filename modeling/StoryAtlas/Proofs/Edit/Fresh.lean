import StoryAtlas.Proofs.Edit.Steps
import StoryAtlas.Proofs.Split.Choice

/-!
# New nodes have ids of their own

Every step takes the next ids, as many as the nodes it builds, so what it adds has no id in common
with the tree it found or with what was added before. This holds for what is in the tree: of the ids
of a step one may be left unused, when a replacement keeps the id of the node it replaces, and later
steps may drop what an earlier one added.
-/

namespace StoryAtlas.Edit

open Split (freshIds freshIds_add mem_freshIds nodup_freshIds)

/-! ### What a step takes -/

def builtIds (built : Rose Built) : List Int := built.walk.map fun node => node.value.beat.id

theorem builtIds_node (value : Built) (children : List (Rose Built)) :
    builtIds (.node value children) = value.beat.id :: children.flatMap builtIds := by
  rw [builtIds, Rose.walk_node, List.map_cons, Rose.walkForest_eq_flatMap, List.map_flatMap]
  rfl

theorem builtIds_buildForest {trees : List DraftTree} (nextId : Int)
    (h : ∀ tree ∈ trees, ∀ nextId, builtIds (build nextId tree) = freshIds nextId tree.size) :
    (buildForest nextId trees).flatMap builtIds = freshIds nextId (forestSize trees) := by
  induction trees generalizing nextId with
  | nil => rfl
  | cons tree trees ih =>
      rw [buildForest, List.flatMap_cons, h tree List.mem_cons_self,
        ih _ fun other hother => h other (List.mem_cons_of_mem _ hother)]
      exact (freshIds_add nextId tree.size (forestSize trees)).symm

theorem builtIds_build (nextId : Int) (tree : DraftTree) :
    builtIds (build nextId tree) = freshIds nextId tree.size := by
  induction tree using Rose.induction_on generalizing nextId with
  | node draft children ih =>
      have hfirst : freshIds nextId 1 = [nextId] := by simp [freshIds]
      rw [build, builtIds_node, builtIds_buildForest _ ih, Rose.size, Nat.add_comm, freshIds_add,
        hfirst]
      rfl

theorem ids_linkTree (targets : Register Int Int) (excluded : List Int) (root : Working)
    (built : Rose Built) : (linkTree targets excluded root built).ids = builtIds built := by
  rw [Node.ids, linkTree, Rose.walk_map, List.map_map]
  refine List.map_congr_left fun node _ => ?_
  rw [Function.comp_apply, Node.id, Rose.value_map, id_linkBeat]

theorem map_zip_edit {β : Type} {view : Node → β} {linked : List Node} {trees : List DraftTree}
    {edit : DraftTree × Node → Node} (hlength : linked.length = trees.length)
    (hview : ∀ pair, view (edit pair) = view pair.2) :
    ((trees.zip linked).map edit).map view = linked.map view := by
  have hsnd := List.map_snd_zip hlength.le
  nth_rewrite 2 [← hsnd]
  rw [List.map_map, List.map_map]
  exact List.map_congr_left fun pair _ => hview pair

namespace Action

/-- The ids that a step takes are the next ones, and what it adds has no others. -/
theorem exists_fresh (action : Action) (unit : String) (state : State) (node : Working) :
    ∃ count : ℕ, (action.perform unit state node).nextId = state.nextId + count ∧
      ((action.remake state node).added.flatMap Node.ids).Sublist
        (freshIds state.nextId count) := by
  cases action with
  | replaceNode tree =>
      refine ⟨tree.size, rfl, ?_⟩
      have hids := ids_linkTree (targetsOf ((replaceNode tree).brought state node))
        ((replaceNode tree).excluded node) state.root (build state.nextId tree)
      rw [builtIds_build, ← Rose.node_value_children (linkTree ..), Node.ids_node] at hids
      rw [remake, link, linkTree_renamed, Rose.children_node, ← hids]
      exact List.sublist_cons_self _ _
  | replaceChildren trees =>
      refine ⟨forestSize trees, rfl, ?_⟩
      have hbuilt : (buildForest state.nextId trees).flatMap builtIds =
          freshIds state.nextId (forestSize trees) :=
        builtIds_buildForest state.nextId fun tree _ nextId => builtIds_build nextId tree
      rw [remake]
      dsimp only
      rw [List.flatMap_def, map_zip_edit (by rw [List.length_map, length_buildForest])
        fun _ => ids_borrowFirst _ _ _, ← List.flatMap_def, List.flatMap_map, ← hbuilt]
      simp only [link, ids_linkTree]
      exact List.Sublist.refl _
  | require requirements => exact ⟨0, by simp [perform, addRequirementsAt], List.nil_sublist _⟩
  | modify change =>
      refine ⟨0, ?_, List.nil_sublist _⟩
      simp [perform, modifyAt, nextId_foldl_referTo]
  | addChild tree =>
      refine ⟨tree.size, rfl, ?_⟩
      rw [remake, List.flatMap_singleton, link, ids_linkTree, builtIds_build]

end Action

/-! ### What the steps have added -/

def Plan.addedIds (plan : Plan) (place : Nat) : List Int := (plan place).added.flatMap Node.ids

theorem Plan.addedIds_revise_of_ne {plan : Plan} {place other : Nat} {remake : Remake}
    (h : other ≠ place) : (plan.revise place remake).addedIds other = plan.addedIds other := by
  rw [addedIds, revise_of_ne h, addedIds]

theorem Plan.addedIds_revise_sublist (plan : Plan) (place : Nat) (remake : Remake) :
    ((plan.revise place remake).addedIds place).Sublist
      (plan.addedIds place ++ remake.added.flatMap Node.ids) := by
  rw [addedIds, revise_self, Remake.andThen, List.flatMap_append]
  refine List.Sublist.append ?_ (List.Sublist.refl _)
  split
  · exact List.nil_sublist _
  · exact List.Sublist.refl _

/-- No id was given out twice so far, and the next ones are free. -/
structure Spread (state : State) (plan : Plan) : Prop where
  nodup : ∀ place, (plan.addedIds place).Nodup
  disjoint : ∀ place other, place ≠ other → (plan.addedIds place).Disjoint (plan.addedIds other)
  below : ∀ place, ∀ id ∈ plan.addedIds place, id < state.nextId

theorem Spread.step {state : State} {plan : Plan} (h : Spread state plan) (step : Step)
    (unit : String) :
    Spread (step.run unit state) (plan.revise step.node.place (step.remake state)) := by
  obtain ⟨count, hnextId, hadded⟩ :=
    step.action.exists_fresh unit state (step.now state)
  have hself := plan.addedIds_revise_sublist step.node.place (step.remake state)
  have hnew : ∀ id ∈ (step.remake state).added.flatMap Node.ids,
      state.nextId ≤ id ∧ id < state.nextId + count := fun id hid =>
    mem_freshIds.1 (hadded.subset hid)
  have hlater : (step.run unit state).nextId = state.nextId + count := hnextId
  -- the ids added at a place: old ones, all taken before, and at the place of the step new ones
  have horigin : ∀ place id, id ∈ (plan.revise step.node.place (step.remake state)).addedIds place →
      id ∈ plan.addedIds place ∨
        place = step.node.place ∧ state.nextId ≤ id ∧ id < state.nextId + count := by
    intro place id hid
    by_cases hplace : place = step.node.place
    · subst hplace
      exact (List.mem_append.1 (hself.subset hid)).imp_right fun hid => ⟨rfl, hnew id hid⟩
    · rw [Plan.addedIds_revise_of_ne hplace] at hid
      exact .inl hid
  refine ⟨fun place => ?_, fun place other hne => ?_, fun place id hid => ?_⟩
  · by_cases hplace : place = step.node.place
    · subst hplace
      refine List.Nodup.sublist hself ((h.nodup _).append ((nodup_freshIds _ _).sublist hadded) ?_)
      intro id hold hid
      have := h.below _ id hold
      have := (hnew id hid).1
      omega
    · rw [Plan.addedIds_revise_of_ne hplace]
      exact h.nodup place
  · intro id hid hother
    rcases horigin place id hid with hold | ⟨hplace, hlow, -⟩
    · rcases horigin other id hother with hsecond | ⟨-, hlow, -⟩
      · exact h.disjoint place other hne hold hsecond
      · have := h.below place id hold
        omega
    · rcases horigin other id hother with hsecond | ⟨hsame, -, -⟩
      · have := h.below other id hsecond
        omega
      · exact hne (hplace.trans hsame.symm)
  · rw [hlater]
    rcases horigin place id hid with hold | ⟨-, -, hhigh⟩
    · have := h.below place id hold
      omega
    · exact hhigh

section Made

variable {plan : Plan} {root : Placed}

end Made

end StoryAtlas.Edit
