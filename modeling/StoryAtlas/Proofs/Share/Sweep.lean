import StoryAtlas.Proofs.Share.Guard
import StoryAtlas.Proofs.Share.Step
import StoryAtlas.Share.Collapse

/-!
# A sweep goes in steps

While a sweep goes through the nodes level by level, the tree with what it has collapsed so far is
reached from the tree it started from by steps. What makes each drop a step is the order. A keeper
was met before the node that is dropped, so it does not lie below it, and neither does anything that
was collapsed; so the node is still as it was, and the keeper, though it may have lost children of its
own, is compared as it is now.
-/

namespace StoryAtlas

namespace Placed

variable {root node other : Placed} {targets : Register Nat Int}

theorem collapse_eq_self (h : ∀ other ∈ node.walk, Register.get? (place other) targets = none) :
    node.collapse targets = node := by
  induction node using Rose.induction_on with
  | node entry children ih =>
      rw [collapse_of_none (h _ (Rose.self_mem_walk _)), Rose.value_node, Rose.children_node]
      congr 1
      refine (List.map_congr_left fun child hchild => ih child hchild ?_).trans (List.map_id children)
      exact fun other hother => h other (Rose.mem_walk_of_mem hchild hother)

theorem collapse_mem_walk (hnode : node ∈ root.walk)
    (h : ∀ other ∈ root.walk, Register.holds (place other) targets →
      node ∉ Rose.walkForest other.children) :
    node.collapse targets ∈ (root.collapse targets).walk := by
  induction root using Rose.induction_on with
  | node entry children ih =>
      rcases Rose.mem_walk.1 hnode with rfl | hbelow
      · exact Rose.self_mem_walk _
      · have hnone : Register.get? (place (.node entry children)) targets = none := by
          rw [← Option.not_isSome_iff_eq_none]
          exact fun hholds => h _ (Rose.self_mem_walk _) hholds hbelow
        obtain ⟨child, hchild, hmem⟩ := Rose.mem_walkForest.1 hbelow
        rw [collapse_of_none hnone]
        refine Rose.mem_walk_of_mem (List.mem_map_of_mem hchild) (ih child hchild hmem ?_)
        exact fun other hother => h other (Rose.mem_walk_of_mem hchild hother)

/-- Collapsing one node more is sharing it in the tree that has the others collapsed. -/
theorem forget_collapse_put {target : Int} (distinct : (ids root).Nodup)
    (hplaces : (places root).Nodup) (hnode : node ∈ root.walk)
    (hnew : Register.get? node.place targets = none) (hother : other ∈ root.walk) :
    (other.collapse (Register.put node.place target targets)).forget =
      Share.shareAt node.id target (other.collapse targets).forget := by
  induction other using Rose.induction_on with
  | node entry children ih =>
      have hget := Register.get?_put node.place (place (.node entry children)) target targets
      have hid : (forget (collapse targets (.node entry children))).id =
          id (.node entry children) := by
        rw [id_forget, id_collapse]
      by_cases hplace : place (.node entry children) = node.place
      · have hsame := eq_of_place_eq hplaces hother hnode hplace
        rw [if_pos hplace] at hget
        rw [← hsame] at hnew ⊢
        rw [Share.shareAt_of_eq hid, collapse_of_none hnew]
        rw [← hsame] at hget
        rw [collapse_of_some hget]
        rfl
      · rw [if_neg hplace] at hget
        have hne : id (.node entry children) ≠ node.id := fun hsame =>
          hplace (by rw [eq_of_id_eq distinct hother hnode hsame])
        rw [← hid] at hne
        rw [Share.shareAt_of_ne hne]
        cases hold : Register.get? (place (.node entry children)) targets with
        | some known =>
            rw [collapse_of_some (hget.trans hold), collapse_of_some hold]
            rfl
        | none =>
            rw [collapse_of_none (hget.trans hold), collapse_of_none hold]
            simp only [forget, Rose.map_node, Rose.value_node, Rose.children_node, List.map_map]
            congr 1
            refine List.map_congr_left fun child hchild => ih child hchild ?_
            exact Rose.mem_walk_trans (Rose.mem_walk_of_mem hchild (Rose.self_mem_walk child)) hother

end Placed

namespace Share

def State.tree (tree : Node) (state : State) : Node :=
  (tree.placed.collapse state.collapsed).forget

/-- Where a sweep stands that has visited some nodes. -/
structure Swept (options : Options) (tree : Node) (visited : List Placed) (state : State) :
    Prop where
  steps : Steps tree (state.tree tree)
  size : (state.tree tree).size + state.removed = tree.size
  spans : Guard.Spans tree state.guard
  refs : ∀ node ∈ (state.tree tree).walk, ∀ target, (Rose.value node).ref = some target →
    (Node.id node, target) ∈ state.guard.refs
  collapsed : ∀ node ∈ tree.placed.walk, Register.holds (Placed.place node) state.collapsed →
    node ∈ visited ∧ Placed.descendantIds node ⊆ state.pruned
  keepers : ∀ entry ∈ state.keepers, ∃ keeper ∈ visited, Placed.id keeper = entry.2 ∧
    (Placed.forget keeper).signature options.signatureDepth.toNat = entry.1 ∧
    Register.get? (Placed.place keeper) state.collapsed = none ∧ Placed.id keeper ∉ state.pruned

section Swept

variable {options : Options} {tree : Node} {visited : List Placed} {state : State} {node : Placed}

theorem swept_start (options : Options) (tree : Node) :
    Swept options tree [] { guard := Guard.ofPlaced tree.placed } := by
  have htree : ({ guard := Guard.ofPlaced tree.placed } : State).tree tree = tree := by
    show (tree.placed.collapse []).forget = tree
    rw [Placed.collapse_eq_self fun _ _ => rfl, Node.forget_placed]
  refine ⟨by rw [htree], by rw [htree]; rfl, ⟨rfl, rfl⟩, ?_, nofun, nofun⟩
  rw [htree]
  intro node hnode target href
  rw [← Node.forget_placed tree] at hnode
  obtain ⟨origin, horigin, rfl⟩ := Placed.exists_of_mem_walk_forget hnode
  refine List.mem_filterMap.2 ⟨origin, horigin, ?_⟩
  rw [Placed.value_forget] at href
  rw [href, Placed.id_forget]
  rfl

theorem Swept.skip (h : Swept options tree visited state) :
    Swept options tree (visited ++ [node]) state where
  steps := h.steps
  size := h.size
  spans := h.spans
  refs := h.refs
  collapsed found hfound hholds :=
    (h.collapsed found hfound hholds).imp_left (List.mem_append_left _)
  keepers entry hentry := (h.keepers entry hentry).imp fun _ hkeeper =>
    hkeeper.imp_left (List.mem_append_left _)

/-- What is known when a node is visited: the nodes are met level by level. -/
structure Next (tree : Node) (visited : List Placed) (node : Placed) : Prop where
  mem : node ∈ tree.placed.walk
  visited_mem : ∀ earlier ∈ visited, earlier ∈ tree.placed.walk
  fresh : node ∉ visited
  above : ∀ earlier ∈ visited, Placed.id earlier ∉ (Rose.walkForest node.children).map Placed.id

variable {keeper : Placed}

/-- Nothing in the subtree of the node has been collapsed. -/
theorem Next.get?_eq_none (hnext : Next tree visited node)
    (h : Swept options tree visited state) :
    ∀ other ∈ node.walk, Register.get? (Placed.place other) state.collapsed = none := by
  intro other hother
  rw [← Option.not_isSome_iff_eq_none]
  intro hholds
  have hvisited := (h.collapsed other (Rose.mem_walk_trans hother hnext.mem) hholds).1
  rcases Rose.mem_walk.1 hother with rfl | hbelow
  · exact hnext.fresh hvisited
  · exact hnext.above other hvisited (List.mem_map_of_mem hbelow)

/-- A node that was not pruned is in the current tree, in its current version. -/
theorem Swept.collapse_mem (h : Swept options tree visited state) (hnode : node ∈ tree.placed.walk)
    (hkept : node.id ∉ state.pruned) :
    node.collapse state.collapsed ∈ (tree.placed.collapse state.collapsed).walk := by
  refine Placed.collapse_mem_walk hnode fun other hother hholds hbelow => hkept ?_
  exact (h.collapsed other hother hholds).2 (List.mem_map_of_mem hbelow)

theorem echoes_of_signature_eq {first second : Node} {depth : Nat}
    (h : first.signature depth = second.signature depth) : first.value.Echoes second.value := by
  rw [Node.signature, Node.signature, Signature.mk.injEq] at h
  exact ⟨h.2.2.1, h.1, h.2.1⟩

/-- A keeper came before the node, so it is not in the subtree of the node. -/
theorem Next.keeper_notMem (distinct : tree.ids.Nodup) (hnext : Next tree visited node)
    (hkeeper : keeper ∈ visited) (targets : Register Nat Int) :
    (keeper.collapse targets).forget ∉ node.forget.walk := by
  intro hinside
  have hids : (Placed.ids tree.placed).Nodup := Placed.ids_placed tree ▸ distinct
  obtain ⟨inner, hinner, hforget⟩ := Placed.exists_of_mem_walk_forget hinside
  have hid : Placed.id inner = keeper.id := by
    rw [← Placed.id_forget, hforget, Placed.id_forget, Placed.id_collapse]
  have hwalk := Rose.mem_walk_trans hinner hnext.mem
  rw [Placed.eq_of_id_eq hids hwalk (hnext.visited_mem keeper hkeeper) hid] at hinner
  rcases Rose.mem_walk.1 hinner with hsame | hbelow
  · exact hnext.fresh (hsame ▸ hkeeper)
  · exact hnext.above keeper hkeeper (List.mem_map_of_mem hbelow)

/-- If the guard is content, no reference from outside leads below the node. -/
theorem Swept.guarded (distinct : tree.ids.Nodup) (hnext : Next tree visited node)
    (h : Swept options tree visited state) (horphan : state.guard.wouldOrphan node.id = false) :
    ∀ other ∈ (state.tree tree).walk, other ∉ node.forget.walk →
      ∀ below ∈ Rose.walkForest node.forget.children,
        (Rose.value other).ref ≠ some (Node.id below) := by
  intro other hother hout below hbelow href
  have hknown := h.refs other hother _ href
  obtain ⟨current, hcurrent, rfl⟩ := Placed.exists_of_mem_walk_forget hother
  obtain ⟨outside, houtside, rfl⟩ := Placed.mem_walk_collapse hcurrent
  obtain ⟨inside, hinside, rfl⟩ := Placed.exists_of_mem_below_forget hbelow
  rw [Placed.id_forget, Placed.id_collapse, Placed.id_forget] at hknown
  have hfar : outside ∉ node.walk := by
    intro hmem
    apply hout
    -- what is in the subtree is as it was
    rw [Placed.collapse_eq_self fun inner hinner =>
      hnext.get?_eq_none h inner (Rose.mem_walk_trans hinner hmem)]
    exact Placed.forget_mem_walk hmem
  have hbelowNode : inside = node → Guard.leastTarget ≤ node.id := by
    rintro rfl
    exact absurd (Rose.size_lt_of_mem_below hinside) (Nat.lt_irrefl _)
  have horphaned := (Guard.wouldOrphan_iff distinct h.spans hnext.mem).2
    ⟨outside, houtside, hfar, inside, Rose.mem_walk.2 (.inr hinside), hknown, hbelowNode⟩
  rw [horphan] at horphaned
  cases horphaned

theorem shares_of_redundant (distinct : tree.ids.Nodup) (hnext : Next tree visited node)
    (h : Swept options tree visited state) (heligible : eligible options state node = true)
    (hkeeper : keeper ∈ visited) (hkept : Placed.id keeper ∉ state.pruned)
    (hstays : Register.get? (Placed.place keeper) state.collapsed = none)
    (hsignature : (Placed.forget keeper).signature options.signatureDepth.toNat =
      (Placed.forget node).signature options.signatureDepth.toNat)
    (hredundant : redundant state node keeper = true) :
    Shares (state.tree tree) node.forget (keeper.collapse state.collapsed).forget := by
  simp only [eligible, Bool.and_eq_true, Bool.not_eq_true', List.isEmpty_eq_false_iff,
    Option.isNone_iff_eq_none, bne_iff_ne, ne_eq, decide_eq_true_eq] at heligible
  obtain ⟨⟨⟨⟨hpruned, hparent⟩, href⟩, hkind⟩, -⟩ := heligible
  simp only [redundant, Bool.and_eq_true, Bool.not_eq_true'] at hredundant
  obtain ⟨⟨hsame, -⟩, horphan⟩ := hredundant
  have hself : node.collapse state.collapsed = node :=
    Placed.collapse_eq_self (hnext.get?_eq_none h)
  have hmem : node ∈ (tree.placed.collapse state.collapsed).walk := by
    rw [← hself]
    apply h.collapse_mem hnext.mem
    rw [← List.contains_iff_mem, hpruned]
    exact Bool.false_ne_true
  have hkeeperMem := h.collapse_mem (hnext.visited_mem keeper hkeeper) hkept
  refine ⟨Placed.forget_mem_walk hmem, Placed.forget_mem_walk hkeeperMem,
    hnext.keeper_notMem distinct hkeeper _, ?_, ?_, ?_, ?_, hsame, h.guarded distinct hnext horphan⟩
  · rw [Placed.forget, Rose.children_map, ne_eq, List.map_eq_nil_iff]
    exact hparent
  · rw [Placed.value_forget]
    exact href
  · rw [Placed.value_forget]
    exact hkind
  · have hechoes := echoes_of_signature_eq hsignature.symm
    rw [Placed.value_forget, Placed.value_forget] at hechoes
    rw [Placed.collapse_of_none hstays, Placed.value_forget, Placed.value_forget]
    exact hechoes

/-- What a drop does to the current tree is to share the node. -/
theorem Swept.tree_drop (distinct : tree.ids.Nodup) (hnext : Next tree visited node)
    (h : Swept options tree visited state) (keeper : Placed) :
    (state.drop node keeper.id).tree tree =
      shareAt node.forget.id (keeper.collapse state.collapsed).forget.id (state.tree tree) := by
  have hids : (Placed.ids tree.placed).Nodup := Placed.ids_placed tree ▸ distinct
  rw [Placed.id_forget, Placed.id_forget, Placed.id_collapse]
  exact Placed.forget_collapse_put hids (Placed.nodup_places_placed tree) hnext.mem
    (hnext.get?_eq_none h node (Rose.self_mem_walk node)) (Rose.self_mem_walk _)

theorem Swept.refs_drop (distinct : tree.ids.Nodup) (hnext : Next tree visited node)
    (h : Swept options tree visited state)
    (hshares : Shares (state.tree tree) node.forget (keeper.collapse state.collapsed).forget) :
    ∀ after ∈ ((state.drop node keeper.id).tree tree).walk, ∀ target,
      (Rose.value after).ref = some target →
        (Node.id after, target) ∈ (state.drop node keeper.id).guard.refs := by
  rw [h.tree_drop distinct hnext]
  intro after hafter target href
  have hcurrent := (ids_steps_subset distinct h.steps).1
  obtain ⟨other, hother, rfl⟩ := (mem_walk_shareAt hcurrent hshares).1 hafter
  by_cases hid : other.id = node.forget.id
  · rw [shareAt_of_eq hid] at href
    rw [id_shareAt, hid, ← Option.some.inj href, Placed.id_forget, Placed.id_forget,
      Placed.id_collapse]
    exact List.mem_append_right _ (List.mem_singleton_self _)
  · rw [shareAt_of_ne hid] at href
    rw [id_shareAt]
    exact List.mem_append_left _ (h.refs other hother.1 target href)

/-- Besides what was collapsed before, only the node that is dropped is collapsed. -/
theorem Swept.collapsed_drop (hnext : Next tree visited node)
    (h : Swept options tree visited state) (keeper : Int) :
    ∀ found ∈ tree.placed.walk,
      Register.holds (Placed.place found) (state.drop node keeper).collapsed →
        found ∈ visited ++ [node] ∧
          Placed.descendantIds found ⊆ (state.drop node keeper).pruned := by
  intro found hfound hholds
  have hget := Register.get?_put node.place (Placed.place found) keeper state.collapsed
  by_cases hplace : Placed.place found = node.place
  · rw [Placed.eq_of_place_eq (Placed.nodup_places_placed tree) hfound hnext.mem hplace]
    exact ⟨List.mem_append_right _ (List.mem_singleton_self _), List.subset_append_right _ _⟩
  · rw [if_neg hplace] at hget
    have hold : Register.holds (Placed.place found) state.collapsed := by
      rw [Register.holds, ← hget]
      exact hholds
    obtain ⟨hvisited, hpruned⟩ := h.collapsed found hfound hold
    exact ⟨List.mem_append_left _ hvisited, fun id hid => List.mem_append_left _ (hpruned hid)⟩

theorem Swept.keepers_drop (hnext : Next tree visited node)
    (h : Swept options tree visited state) (target : Int) :
    ∀ entry ∈ state.keepers, ∃ kept ∈ visited ++ [node], Placed.id kept = entry.2 ∧
      (Placed.forget kept).signature options.signatureDepth.toNat = entry.1 ∧
      Register.get? (Placed.place kept) (state.drop node target).collapsed = none ∧
      Placed.id kept ∉ (state.drop node target).pruned := by
  intro entry hentry
  obtain ⟨kept, hkept, hid, hsignature, hget, hpruned⟩ := h.keepers entry hentry
  refine ⟨kept, List.mem_append_left _ hkept, hid, hsignature, ?_, ?_⟩
  · show Register.get? _ (Register.put node.place target state.collapsed) = none
    rw [Register.get?_put, if_neg, hget]
    intro hplace
    have hsame := Placed.eq_of_place_eq (Placed.nodup_places_placed tree)
      (hnext.visited_mem kept hkept) hnext.mem hplace
    exact hnext.fresh (hsame ▸ hkept)
  · intro hmem
    rcases List.mem_append.1 hmem with hold | hnew
    · exact hpruned hold
    · exact hnext.above kept hkept hnew

theorem swept_drop (distinct : tree.ids.Nodup) (hnext : Next tree visited node)
    (h : Swept options tree visited state)
    (hshares : Shares (state.tree tree) node.forget (keeper.collapse state.collapsed).forget) :
    Swept options tree (visited ++ [node]) (state.drop node keeper.id) := by
  have htree := h.tree_drop distinct hnext keeper
  refine ⟨?_, ?_, h.spans.addRef _ _, h.refs_drop distinct hnext hshares,
    h.collapsed_drop hnext keeper.id, h.keepers_drop hnext keeper.id⟩
  · rw [htree]
    exact h.steps.tail (.share hshares)
  · have hcurrent := (ids_steps_subset distinct h.steps).1
    have hsize := size_shareAt hcurrent hshares
    have hold := h.size
    have hremoved : (state.drop node keeper.id).removed = state.removed + (node.size - 1) := rfl
    have hforget : node.forget.size = node.size := Rose.size_map _ _
    rw [hforget] at hsize
    rw [htree, hremoved]
    omega

theorem swept_keep {signature : Signature} (hnext : Next tree visited node)
    (h : Swept options tree visited state) (hkept : node.id ∉ state.pruned)
    (hsignature : node.forget.signature options.signatureDepth.toNat = signature) :
    Swept options tree (visited ++ [node])
      { state with keepers := Register.put signature node.id state.keepers } where
  steps := h.steps
  size := h.size
  spans := h.spans
  refs := h.refs
  collapsed := h.skip.collapsed
  keepers entry hentry := by
    rcases Register.mem_put hentry with rfl | hentry
    · exact ⟨node, List.mem_append_right _ (List.mem_singleton_self _), rfl, hsignature,
        hnext.get?_eq_none h node (Rose.self_mem_walk node), hkept⟩
    · exact h.skip.keepers entry hentry

theorem swept_visit (distinct : tree.ids.Nodup) (hnext : Next tree visited node)
    (h : Swept options tree visited state) : Swept options tree (visited ++ [node])
      (visit options (Register.ofList (tree.placed.breadth.map fun node => (Placed.id node, node)))
        state node) := by
  have hids : (Placed.ids tree.placed).Nodup := Placed.ids_placed tree ▸ distinct
  unfold visit
  split
  · next heligible =>
    dsimp only
    split
    · refine swept_keep hnext h (fun hpruned => ?_) rfl
      rw [eligible, List.contains_iff_mem.2 hpruned] at heligible
      cases heligible
    · next id hid =>
      obtain ⟨keeper, hkeeper, hkeeperId, hsignature, hget, hkept⟩ :=
        h.keepers _ (Register.mem_of_get? hid)
      have hkeeperMem := hnext.visited_mem keeper hkeeper
      split
      · next first hfirst =>
        -- the node found under the keeper's id is the keeper
        obtain ⟨found, hfound, heq⟩ := List.mem_map.1 (Register.mem_of_get?_ofList hfirst)
        obtain ⟨hfoundId, rfl⟩ := Prod.mk.inj heq
        have hsame := Placed.eq_of_id_eq hids (Rose.mem_breadth.1 hfound) hkeeperMem
          (hfoundId.trans hkeeperId.symm)
        split
        · next hredundant =>
          rw [hsame] at hredundant
          rw [show id = keeper.id from hkeeperId.symm]
          exact swept_drop distinct hnext h
            (shares_of_redundant distinct hnext h heligible hkeeper hkept hget hsignature hredundant)
        · exact h.skip
      · exact h.skip
  · exact h.skip

/-- A sweep takes steps, and what it counts as removed is what is gone. -/
theorem swept_sweep (options : Options) (distinct : tree.ids.Nodup) :
    Swept options tree tree.placed.breadth (sweep options tree.placed) := by
  have hids : (Placed.ids tree.placed).Nodup := Placed.ids_placed tree ▸ distinct
  have hlater := Rose.pairwise_breadth hids
  have hnodup : tree.placed.breadth.Nodup :=
    (((Rose.breadth_perm_walk tree.placed).map _).nodup_iff.2 hids).of_map
  suffices h : ∀ later visited state, tree.placed.breadth = visited ++ later →
      Swept options tree visited state → Swept options tree tree.placed.breadth
        (later.foldl (visit options (Register.ofList
          (tree.placed.breadth.map fun node => (Placed.id node, node)))) state) from
    h _ [] _ rfl (swept_start options tree)
  intro later
  induction later with
  | nil =>
      intro visited state hsplit h
      rw [hsplit, List.append_nil]
      exact h
  | cons node later ih =>
      intro visited state hsplit h
      apply ih (visited ++ [node]) _ (by rw [hsplit, List.append_assoc]; rfl)
      rw [hsplit] at hlater hnodup
      have hmem : ∀ found ∈ visited ++ node :: later, found ∈ tree.placed.walk :=
        fun found hfound => Rose.mem_breadth.1 (hsplit ▸ hfound)
      refine swept_visit distinct ⟨hmem node (by simp), fun earlier hearlier => ?_, ?_, ?_⟩ h
      · exact hmem earlier (List.mem_append_left _ hearlier)
      · exact fun hvisited => (List.nodup_append.1 hnodup).2.2 _ hvisited node (by simp) rfl
      · exact fun earlier hearlier =>
          (List.pairwise_append.1 hlater).2.2 earlier hearlier node (by simp)

end Swept

/-! ### The pass -/

section Run

variable (options : Options) (unit : String) {root : Node}

theorem steps_once (distinct : root.ids.Nodup) : Steps root (once options root).root ∧
    (once options root).root.size + (once options root).removed = root.size := by
  have h := swept_sweep options distinct
  exact ⟨h.steps, h.size⟩

theorem steps_sweeps (left iteration : Nat) (distinct : root.ids.Nodup) :
    Steps root (sweeps options unit left iteration root).1.root ∧
      (sweeps options unit left iteration root).1.root.size +
        (sweeps options unit left iteration root).1.removed = root.size := by
  induction left generalizing iteration root with
  | zero => exact ⟨.refl, rfl⟩
  | succ left ih =>
      obtain ⟨hfirst, hsize⟩ := steps_once options distinct
      rw [sweeps]
      dsimp only
      split
      · exact ⟨hfirst, hsize⟩
      · obtain ⟨hrest, hrestSize⟩ := ih (iteration + 1) (ids_steps_subset distinct hfirst).1
        refine ⟨hfirst.trans hrest, ?_⟩
        dsimp only
        omega

/-- Sharing takes steps, and what it counts as removed is what is gone. -/
theorem steps_run (distinct : root.ids.Nodup) : Steps root (run options unit root).1.root ∧
    (run options unit root).1.root.size + (run options unit root).1.removed = root.size :=
  steps_sweeps options unit _ 1 distinct

end Run

end Share

end StoryAtlas
