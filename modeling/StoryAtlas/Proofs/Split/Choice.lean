import Mathlib.Data.List.Perm.Basic
import StoryAtlas.Proofs.Event.Shape
import StoryAtlas.Proofs.Rose.Edit
import StoryAtlas.Split.Choice
import StoryAtlas.Split.Fallback

/-!
# Separating choices keeps the shape

A split puts a wrapper in the place of a node and hands everything but the label to an outcome with
a fresh id. So the ids after the pass are the old ones and as many fresh ones as there were splits,
and the links are what they were. Once all is split, a last look at the types leaves only wrappers
with one child of type choice.

Dropping fallbacks only loses nodes.
-/

namespace StoryAtlas.Split

def freshIds (nextId : Int) (count : Nat) : List Int :=
  (List.range count).map fun i : Nat => nextId + (i : Int)

theorem freshIds_add (nextId : Int) (first second : Nat) :
    freshIds nextId (first + second) =
      freshIds nextId first ++ freshIds (nextId + first) second := by
  unfold freshIds
  rw [List.range_add, List.map_append, List.map_map]
  congr 1
  apply List.map_congr_left
  intro i _
  rw [Function.comp_apply]
  push_cast
  omega

theorem mem_freshIds {id nextId : Int} {count : Nat} :
    id ∈ freshIds nextId count ↔ nextId ≤ id ∧ id < nextId + count := by
  unfold freshIds
  rw [List.mem_map]
  constructor
  · rintro ⟨i, hi, rfl⟩
    have := List.mem_range.1 hi
    omega
  · rintro ⟨hlow, hhigh⟩
    exact ⟨(id - nextId).toNat, List.mem_range.2 (by omega), by omega⟩

theorem nodup_freshIds (nextId : Int) (count : Nat) : (freshIds nextId count).Nodup := by
  refine List.nodup_range.map fun i j hij => ?_
  omega

/-- What splitting some nodes does: so many fresh ids are taken, and no link changes. -/
structure Splits (state : State) (nodes after : List Node) (later : State) (count : Nat) :
    Prop where
  nextId : later.nextId = state.nextId + count
  separated : later.separated = state.separated + count
  ids : (after.flatMap Node.ids).Perm (nodes.flatMap Node.ids ++ freshIds state.nextId count)
  links : (after.flatMap Node.links).Perm (nodes.flatMap Node.links)
  bare : (∀ node ∈ nodes, node.Bare) → ∀ node ∈ after, node.Bare
  unborrowed : (∀ node ∈ nodes, node.Unborrowed) → ∀ node ∈ after, node.Unborrowed

namespace Splits

theorem nil (state : State) : Splits state [] [] state 0 :=
  ⟨by simp, rfl, .refl _, .refl _, by simp, by simp⟩

theorem append {state middle later : State} {nodes after others afterOthers : List Node}
    {first second : Nat} (h : Splits state nodes after middle first)
    (ho : Splits middle others afterOthers later second) :
    Splits state (nodes ++ others) (after ++ afterOthers) later (first + second) where
  nextId := by
    rw [ho.nextId, h.nextId]
    push_cast
    omega
  separated := by rw [ho.separated, h.separated, Nat.add_assoc]
  ids := by
    rw [List.flatMap_append, List.flatMap_append, freshIds_add, ← h.nextId]
    apply (h.ids.append ho.ids).trans
    simp only [List.append_assoc]
    apply List.Perm.append_left _
    exact List.perm_append_comm_assoc _ _ _
  links := by
    rw [List.flatMap_append, List.flatMap_append]
    exact h.links.append ho.links
  bare := fun hbare node hnode => by
    rcases List.mem_append.1 hnode with hnode | hnode
    · exact h.bare (fun node hnode => hbare node (List.mem_append_left _ hnode)) node hnode
    · exact ho.bare (fun node hnode => hbare node (List.mem_append_right _ hnode)) node hnode
  unborrowed := fun hnodes node hnode => by
    rcases List.mem_append.1 hnode with hnode | hnode
    · exact h.unborrowed (fun node hnode => hnodes node (List.mem_append_left _ hnode)) node hnode
    · exact ho.unborrowed (fun node hnode => hnodes node (List.mem_append_right _ hnode)) node hnode

theorem trans {state middle later : State} {nodes after last : List Node} {first second : Nat}
    (h : Splits state nodes after middle first) (ho : Splits middle after last later second) :
    Splits state nodes last later (first + second) where
  nextId := by
    rw [ho.nextId, h.nextId]
    push_cast
    omega
  separated := by rw [ho.separated, h.separated, Nat.add_assoc]
  ids := by
    rw [freshIds_add, ← h.nextId, ← List.append_assoc]
    exact ho.ids.trans (h.ids.append_right _)
  links := ho.links.trans h.links
  bare := fun hbare => ho.bare (h.bare hbare)
  unborrowed := fun hnodes => ho.unborrowed (h.unborrowed hnodes)

theorem parent {state later : State} {nodes after : List Node} {count : Nat}
    (h : Splits state nodes after later count) (beat : Beat)
    (hempty : nodes = [] → after = []) :
    Splits state [.node beat nodes] [.node beat after] later count where
  nextId := h.nextId
  separated := h.separated
  ids := by
    simp only [List.flatMap_singleton, Node.ids_node, List.cons_append]
    exact h.ids.cons _
  links := by
    simp only [List.flatMap_singleton, Node.links_node]
    exact h.links.append_left _
  bare := by
    simp only [List.mem_singleton, forall_eq]
    intro hbare
    obtain ⟨hroot, hnodes⟩ := Rose.everywhere_node.1 hbare
    exact Rose.everywhere_node.2 ⟨fun href => hempty (hroot href), h.bare hnodes⟩
  unborrowed := by
    simp only [List.mem_singleton, forall_eq]
    intro hnode
    obtain ⟨hroot, hnodes⟩ := Rose.everywhere_node.1 hnode
    exact Rose.everywhere_node.2 ⟨hroot, h.unborrowed hnodes⟩

end Splits

theorem splits_wrap (unit : String) (state : State) (node : Node) :
    ∃ count, Splits state [node] [(wrap unit state node).1] (wrap unit state node).2 count := by
  unfold wrap
  split
  · dsimp only
    refine ⟨1, rfl, rfl, ?_, ?_, ?_, ?_⟩
    · obtain ⟨beat, children⟩ := node
      simp only [List.flatMap_singleton, Node.ids_node, Rose.value_node, Rose.children_node]
      apply List.Perm.cons _
      have hfresh : freshIds state.nextId 1 = [state.nextId] := by simp [freshIds]
      rw [hfresh]
      exact (List.perm_append_singleton state.nextId _).symm
    · obtain ⟨beat, children⟩ := node
      simp only [List.flatMap_singleton, Node.links_node, Rose.value_node, Rose.children_node]
      exact .refl _
    · obtain ⟨beat, children⟩ := node
      simp only [List.mem_singleton, forall_eq]
      intro hbare
      refine Rose.everywhere_node.2 ⟨by simp [wrapperBeat, Beat.settle], ?_⟩
      simp only [List.mem_singleton, forall_eq]
      exact Rose.everywhere_node.2 (Rose.everywhere_node.1 hbare)
    · obtain ⟨beat, children⟩ := node
      simp only [List.mem_singleton, forall_eq]
      intro hnode
      refine Rose.everywhere_node.2 ⟨rfl, ?_⟩
      simp only [List.mem_singleton, forall_eq]
      exact Rose.everywhere_node.2 (Rose.everywhere_node.1 hnode)
  · exact ⟨0, by simp, rfl, by simp [freshIds], .refl _, fun h => h, fun h => h⟩

theorem splits_wrapAll (unit : String) (state : State) (nodes : List Node) :
    ∃ count,
      Splits state nodes (wrapAll unit state nodes).1 (wrapAll unit state nodes).2 count := by
  induction nodes generalizing state with
  | nil => exact ⟨0, .nil state⟩
  | cons node nodes ih =>
      obtain ⟨first, hfirst⟩ := splits_wrap unit state node
      obtain ⟨second, hsecond⟩ := ih (wrap unit state node).2
      exact ⟨first + second, hfirst.append hsecond⟩

theorem splits_splitForest (unit : String) (state : State) (nodes : List Node)
    (h : ∀ node ∈ nodes, ∀ state, ∃ count,
      Splits state [node] [(splitBelow unit state node).1] (splitBelow unit state node).2 count) :
    ∃ count, Splits state nodes (splitForest unit state nodes).1
      (splitForest unit state nodes).2 count := by
  induction nodes generalizing state with
  | nil => exact ⟨0, .nil state⟩
  | cons node nodes ih =>
      obtain ⟨first, hfirst⟩ := h node (by simp) state
      obtain ⟨second, hsecond⟩ :=
        ih (splitBelow unit state node).2 fun node hnode => h node (by simp [hnode])
      exact ⟨first + second, hfirst.append hsecond⟩

theorem splits_splitBelow (unit : String) (state : State) (node : Node) :
    ∃ count, Splits state [node] [(splitBelow unit state node).1]
      (splitBelow unit state node).2 count := by
  induction node using Rose.induction_on generalizing state with
  | node beat children ih =>
      obtain ⟨first, hfirst⟩ := splits_splitForest unit state children ih
      obtain ⟨second, hsecond⟩ := splits_wrapAll unit (splitForest unit state children).2
        (splitForest unit state children).1
      refine ⟨first + second, (hfirst.trans hsecond).parent beat fun hempty => ?_⟩
      rw [hempty]
      rfl

/-! ### The last look at the types -/

theorem settleKind_eq (node : Node) :
    ∃ kind, settleKind node = { node.value with kind := kind } := by
  unfold settleKind
  dsimp only
  split
  · exact ⟨_, rfl⟩
  · exact ⟨node.value.kind, rfl⟩

theorem wraps_of_settleKind {node : Node} (h : (settleKind node).kind = .choice) :
    node.children.length = 1 := by
  by_contra hlength
  unfold settleKind at h
  dsimp only at h
  split at h
  · split at h <;> cases h
  · next hnot => exact hnot ⟨h, hlength⟩

theorem wrapsOne_annotate_settleKind (root : Node) : Node.WrapsOne (root.annotate settleKind) := by
  induction root using Rose.induction_on with
  | node beat children ih =>
      rw [Rose.annotate, Rose.annotateForest_eq_map]
      refine Rose.everywhere_node.2 ⟨fun hkind => ?_, ?_⟩
      · rw [List.length_map]
        exact wraps_of_settleKind hkind
      · rw [List.forall_mem_map]
        exact ih

theorem shuffled_settleKind (root : Node) :
    Rose.Shuffled (fun a b => ∃ kind, b = { a with kind := kind }) root
      (root.annotate settleKind) :=
  Rose.shuffled_annotate fun node _ => settleKind_eq node

/-! ### The pass -/

variable {unit : String} {nextId : Int} {root : Node}

theorem ids_separate (unit : String) (nextId : Int) (root : Node) :
    (separate unit nextId root).root.ids.Perm
      (root.ids ++ freshIds nextId (separate unit nextId root).separated) ∧
    (separate unit nextId root).nextId = nextId + (separate unit nextId root).separated := by
  obtain ⟨count, h⟩ := splits_splitBelow unit { nextId := nextId } root
  have hkind := Node.ids_perm_of_shuffled (fun a b ⟨_, hb⟩ => by rw [hb])
    (shuffled_settleKind (splitBelow unit { nextId := nextId } root).1)
  have hids := h.ids
  have hseparated := h.separated
  simp only [List.flatMap_singleton, Nat.zero_add] at hids hseparated
  unfold separate
  dsimp only
  rw [hseparated]
  exact ⟨hkind.trans hids, h.nextId⟩

theorem links_separate (unit : String) (nextId : Int) (root : Node) :
    ∀ link ∈ (separate unit nextId root).root.links, link ∈ root.links := by
  obtain ⟨count, h⟩ := splits_splitBelow unit { nextId := nextId } root
  have hlinks := h.links
  simp only [List.flatMap_singleton] at hlinks
  intro link hlink
  obtain ⟨node, hnode, hlink⟩ := Node.mem_links.1 hlink
  obtain ⟨origin, horigin, hrel⟩ := (shuffled_settleKind _).exists_of_mem_walk hnode
  obtain ⟨kind, hbeat⟩ := hrel.value
  rw [hbeat] at hlink
  exact hlinks.mem_iff.1 (Node.mem_links.2 ⟨origin, horigin, hlink⟩)

theorem wrapsOne_separate (unit : String) (nextId : Int) (root : Node) :
    (separate unit nextId root).root.WrapsOne :=
  wrapsOne_annotate_settleKind _

theorem sound_separate (h : root.Sound nextId) :
    (separate unit nextId root).root.Sound (separate unit nextId root).nextId := by
  obtain ⟨hids, hnext⟩ := ids_separate unit nextId root
  refine ⟨hids.nodup_iff.2 (h.distinct.append (nodup_freshIds _ _) ?_), fun id hid => ?_, ?_⟩
  · intro id hold hfresh
    have := h.below id hold
    have := (mem_freshIds.1 hfresh).1
    omega
  · rw [hnext]
    rcases List.mem_append.1 (hids.mem_iff.1 hid) with hold | hfresh
    · have := h.below id hold
      omega
    · exact (mem_freshIds.1 hfresh).2
  · obtain ⟨count, hsplits⟩ := splits_splitBelow unit { nextId := nextId } root
    have hbare := hsplits.bare
    simp only [List.mem_singleton, forall_eq] at hbare
    refine (hbare h.bare).of_shuffled ?_ (shuffled_settleKind _)
    rintro a b ⟨kind, rfl⟩ href
    exact href

theorem closed_separate (h : root.Closed) : (separate unit nextId root).root.Closed :=
  h.of_subset (fun link hlink => .inl (links_separate unit nextId root link hlink)) fun _ hid =>
    (ids_separate unit nextId root).1.mem_iff.2 (List.mem_append_left _ hid)

theorem unborrowed_separate (h : root.Unborrowed) :
    (separate unit nextId root).root.Unborrowed := by
  obtain ⟨count, hsplits⟩ := splits_splitBelow unit { nextId := nextId } root
  have hunborrowed := hsplits.unborrowed
  simp only [List.mem_singleton, forall_eq] at hunborrowed
  refine (hunborrowed h).of_shuffled ?_ (shuffled_settleKind _)
  rintro a b ⟨kind, rfl⟩ hborrowed
  exact hborrowed

/-! ### Fallbacks -/

theorem ids_prune (drops : Beat → Bool) (root : Node) :
    (Node.ids (root.prune drops)).Sublist root.ids := by
  induction root using Rose.induction_on with
  | node beat children ih =>
      rw [Rose.prune, Node.ids_node, Node.ids_node]
      apply List.Sublist.cons_cons _
      induction children with
      | nil => exact .refl _
      | cons child children ihc =>
          have hrest := ihc fun node hnode => ih node (by simp [hnode])
          rw [Rose.pruneForest, List.flatMap_cons]
          split
          · exact hrest.trans (List.sublist_append_right _ _)
          · exact (ih child (by simp)).append hrest

theorem bare_prune (drops : Beat → Bool) (h : root.Bare) : Node.Bare (root.prune drops) :=
  Rose.childless_prune drops h

theorem sound_dropFallbacks (h : root.Sound nextId) : (dropFallbacks root).1.Sound nextId where
  distinct := h.distinct.sublist (ids_prune _ _)
  below id hid := h.below id ((ids_prune _ _).subset hid)
  bare := bare_prune _ h.bare

end StoryAtlas.Split
