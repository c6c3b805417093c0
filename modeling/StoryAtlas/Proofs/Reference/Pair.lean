import StoryAtlas.Proofs.Event.Index
import StoryAtlas.Proofs.Reference.Kin
import StoryAtlas.Reference.Cousin

/-!
# Pairs of cousins

Two climbs in step meet exactly if they start at the same depth: both lose one depth at each step, so
they meet at the root at the latest, and the number of nodes is more than enough for the steps.
Therefore a pair is found for a node exactly if the node can borrow from a cousin of that sort.
-/

namespace StoryAtlas.Reference.Cousin

variable {root left right node : Placed}

def sought (onlyChildren : Bool) : Kinship :=
  if onlyChildren then .cousins else .crowdedCousins

/-- What is known of a pair that was found in a tree. -/
structure Found (root : Placed) (pair : Pair) : Prop where
  target : pair.target ∈ root.walk
  ancestor : pair.ancestor ∈ root.walk
  nodeHead : pair.nodeHead ∈ pair.ancestor.children

/-- Climbs that meet started at the same depth, and they end at branches of one node. -/
theorem meeting_eq_some (distinct : (Placed.ids root).Nodup) (places : (Placed.places root).Nodup)
    {steps : Nat} {ancestor leftHead rightHead : Placed} (hleft : left ∈ root.walk)
    (hright : right ∈ root.walk)
    (h : meeting (Index.ofPlaced root) steps left right = some (ancestor, leftHead, rightHead)) :
    (ancestor ∈ root.walk ∧ leftHead ∈ ancestor.children) ∧
      ∃ depth, Rose.Lies root depth left ∧ Rose.Lies root depth right := by
  induction steps generalizing left right with
  | zero => cases h
  | succ steps ih =>
      obtain ⟨leftUp, hleftUp, h⟩ := Option.bind_eq_some_iff.1 h
      obtain ⟨rightUp, hrightUp, h⟩ := Option.bind_eq_some_iff.1 h
      obtain ⟨hleftMem, hleftChild⟩ := Index.mem_children_of_parent? distinct hleft hleftUp
      obtain ⟨hrightMem, hrightChild⟩ := Index.mem_children_of_parent? distinct hright hrightUp
      split at h
      · next hplace =>
        cases h
        obtain rfl := Placed.eq_of_place_eq places hleftMem hrightMem hplace
        obtain ⟨depth, hdepth⟩ := Rose.exists_lies_of_mem_walk hleftMem
        exact ⟨⟨hleftMem, hleftChild⟩, depth + 1, hdepth.child hleftChild, hdepth.child hrightChild⟩
      · obtain ⟨hmet, depth, hleftUp, hrightUp⟩ := ih hleftMem hrightMem h
        exact ⟨hmet, depth + 1, hleftUp.child hleftChild, hrightUp.child hrightChild⟩

theorem isSome_meeting (distinct : (Placed.ids root).Nodup) {depth steps : Nat}
    (hleft : Rose.Lies root depth left) (hright : Rose.Lies root depth right) (hne : left ≠ right)
    (hsteps : depth ≤ steps) : (meeting (Index.ofPlaced root) steps left right).isSome := by
  induction depth generalizing left right steps with
  | zero =>
      cases hleft
      cases hright
      exact absurd rfl hne
  | succ depth ih =>
      cases hleft with
      | @child _ leftUp _ hleftUp hleftChild =>
      cases hright with
      | @child _ rightUp _ hrightUp hrightChild =>
      cases steps with
      | zero => exact absurd hsteps (Nat.not_succ_le_zero depth)
      | succ steps =>
          rw [meeting, Index.parent?_of_mem distinct hleftUp.mem_walk hleftChild,
            Index.parent?_of_mem distinct hrightUp.mem_walk hrightChild]
          dsimp only [Option.bind_eq_bind, Option.bind_some]
          split
          · rfl
          · next hplaces =>
            refine ih hleftUp hrightUp (fun hsame => hplaces ?_) (Nat.le_of_succ_le_succ hsteps)
            rw [hsame]

theorem depth_le_climbLimit (distinct : (Placed.ids root).Nodup) {depth : Nat}
    (h : Rose.Lies root depth node) : depth ≤ climbLimit (Index.ofPlaced root) := by
  have hsize := h.add_size_le
  rw [climbLimit, Index.length_nodes distinct]
  have hsquare := Nat.le_mul_self root.size
  omega

theorem children_forget_ne_nil {target : Placed} :
    target.forget.children ≠ [] ↔ target.children.isEmpty = false := by
  rw [Placed.forget, Rose.children_map, Ne, List.map_eq_nil_iff, List.isEmpty_eq_false_iff]

theorem length_children_forget (parent : Placed) :
    parent.forget.children.length = parent.children.length := by
  rw [Placed.forget, Rose.children_map, List.length_map]

/-- What a pair that is found for a node has been tested for. -/
structure Tested (index : Index) (onlyChildren : Bool) (node : Placed) (pair : Pair) : Prop where
  owner : pair.node = node
  parent : index.parent? node = some pair.parent
  ref : ∃ ref, node.beat.ref = some ref ∧ index.node? ref = some pair.target
  lends : pair.target.children.isEmpty = false
  targetParent : index.parent? pair.target = some pair.targetParent
  parents : pair.targetParent.place ≠ pair.parent.place
  only : onlyChildren = (pair.parent.children.length == 1)
  both : onlyChildren = true → pair.targetParent.children.length = 1
  heads : meeting index (climbLimit index) pair.parent pair.targetParent =
    some (pair.ancestor, pair.nodeHead, pair.targetHead)

theorem tested_of_pair? {index : Index} {onlyChildren : Bool} {pair : Pair}
    (h : pair? index onlyChildren node = some pair) : Tested index onlyChildren node pair := by
  unfold pair? at h
  obtain ⟨ref, href, h⟩ := Option.bind_eq_some_iff.1 h
  obtain ⟨parent, hparent, h⟩ := Option.bind_eq_some_iff.1 h
  obtain ⟨target, htarget, h⟩ := Option.bind_eq_some_iff.1 h
  dsimp only at h
  split at h
  · cases h
  next hlends =>
  obtain ⟨targetParent, htargetParent, h⟩ := Option.bind_eq_some_iff.1 h
  split at h
  · cases h
  next hparents =>
  split at h
  · cases h
  next honly =>
  split at h
  · cases h
  next hboth =>
  obtain ⟨⟨ancestor, nodeHead, targetHead⟩, hheads, h⟩ := Option.bind_eq_some_iff.1 h
  cases h
  rw [not_or, Bool.not_eq_true] at hlends
  exact ⟨rfl, hparent, ⟨ref, href, htarget⟩, hlends.2, htargetParent, hparents,
    by simpa using honly, by simpa using hboth, hheads⟩

theorem kin_of_pair? (distinct : (Placed.ids root).Nodup) (places : (Placed.places root).Nodup)
    {onlyChildren : Bool} {pair : Pair} (hnode : node ∈ root.walk)
    (h : pair? (Index.ofPlaced root) onlyChildren node = some pair) :
    pair.node = node ∧ Found root pair ∧
      Kin (sought onlyChildren) root.forget node.forget pair.target.forget := by
  have htested := tested_of_pair? h
  obtain ⟨ref, href, htarget⟩ := htested.ref
  obtain ⟨hparentMem, hchild⟩ := Index.mem_children_of_parent? distinct hnode htested.parent
  obtain ⟨htargetMem, hid⟩ := Index.node?_eq_some htarget
  obtain ⟨htargetParentMem, htargetChild⟩ :=
    Index.mem_children_of_parent? distinct htargetMem htested.targetParent
  obtain ⟨⟨hancestor, hhead⟩, depth, hdepth, hdepth'⟩ :=
    meeting_eq_some distinct places hparentMem htargetParentMem htested.heads
  refine ⟨htested.owner, ⟨htargetMem, hancestor, hhead⟩, ?_, children_forget_ne_nil.2 htested.lends,
    depth, pair.parent.forget, pair.targetParent.forget, hdepth.map _, hdepth'.map _, ?_, ?_, ?_⟩
  · rw [Placed.value_forget, href, Placed.id_forget, hid]
  · rw [Placed.forget, Rose.children_map]
    exact List.mem_map_of_mem hchild
  · rw [Placed.forget, Rose.children_map]
    exact List.mem_map_of_mem htargetChild
  · have hids : pair.parent.forget.id ≠ pair.targetParent.forget.id := by
      rw [Placed.id_forget, Placed.id_forget]
      intro hsame
      have hparents := htested.parents
      rw [Placed.eq_of_id_eq distinct hparentMem htargetParentMem hsame] at hparents
      exact hparents rfl
    have honly := htested.only
    cases onlyChildren with
    | true =>
        refine ⟨hids, ?_, ?_⟩
        · rw [length_children_forget]
          exact eq_of_beq honly.symm
        · rw [length_children_forget]
          exact htested.both rfl
    | false =>
        refine ⟨hids, ?_⟩
        rw [length_children_forget]
        exact ne_of_beq_false honly.symm

theorem exists_of_kin_forget (distinct : (Placed.ids root).Nodup) {kinship : Kinship}
    (hnode : node ∈ root.walk) {lender : Node} (h : Kin kinship root.forget node.forget lender) :
    ∃ depth parent other target, Rose.Lies root depth parent ∧ Rose.Lies root depth other ∧
      node ∈ parent.children ∧ target ∈ other.children ∧ Placed.forget target = lender ∧
      kinship.Between (Placed.forget parent) (Placed.forget other) := by
  obtain ⟨depth, _, _, hlies, hlies', hnodeMem, hlenderMem, hbetween⟩ := h.related
  obtain ⟨parent, hparent, rfl⟩ := hlies.exists_of_map
  obtain ⟨other, hother, rfl⟩ := hlies'.exists_of_map
  rw [Rose.children_map] at hnodeMem hlenderMem
  obtain ⟨child, hchild, hsame⟩ := List.mem_map.1 hnodeMem
  obtain ⟨target, htarget, rfl⟩ := List.mem_map.1 hlenderMem
  have hid : Placed.id child = node.id := by
    rw [← Placed.id_forget, ← Placed.id_forget]
    exact congrArg Node.id hsame
  have hmem := Rose.mem_walk_trans (Rose.mem_walk_of_mem_children hchild) hparent.mem_walk
  obtain rfl := Placed.eq_of_id_eq distinct hmem hnode hid
  exact ⟨depth, parent, other, target, hparent, hother, hchild, htarget, rfl, hbetween⟩

theorem isSome_pair? (distinct : (Placed.ids root).Nodup) (places : (Placed.places root).Nodup)
    {onlyChildren : Bool} (hnode : node ∈ root.walk) {lender : Node}
    (h : Kin (sought onlyChildren) root.forget node.forget lender) :
    (pair? (Index.ofPlaced root) onlyChildren node).isSome := by
  obtain ⟨depth, parent, other, target, hparent, hother, hchild, htarget, rfl, hbetween⟩ :=
    exists_of_kin_forget distinct hnode h
  have htargetMem : target ∈ root.walk :=
    Rose.mem_walk_trans (Rose.mem_walk_of_mem_children htarget) hother.mem_walk
  have href : node.beat.ref = some (Placed.id target) := by
    rw [← Placed.value_forget, ← Placed.id_forget]
    exact h.ref
  have hlends : target.children ≠ [] :=
    List.isEmpty_eq_false_iff.1 (children_forget_ne_nil.1 h.lends)
  have hne : parent ≠ other := by
    rintro rfl
    cases onlyChildren with
    | true => exact hbetween.1 rfl
    | false => exact hbetween.1 rfl
  have htargetNode : Placed.place target ≠ node.place := by
    intro hplace
    obtain rfl := Placed.eq_of_place_eq places htargetMem hnode hplace
    exact hne (Rose.parent_unique distinct hparent.mem_walk hother.mem_walk hchild htarget rfl)
  have hplaces : Placed.place other ≠ Placed.place parent := fun hplace =>
    hne (Placed.eq_of_place_eq places hparent.mem_walk hother.mem_walk hplace.symm)
  obtain ⟨honly, hboth⟩ : onlyChildren = (parent.children.length == 1) ∧
      (onlyChildren = true → other.children.length = 1) := by
    cases onlyChildren with
    | true =>
        obtain ⟨-, hparentOne, hotherOne⟩ := hbetween
        rw [length_children_forget] at hparentOne hotherOne
        exact ⟨(beq_iff_eq.2 hparentOne).symm, fun _ => hotherOne⟩
    | false =>
        obtain ⟨-, hparentMany⟩ := hbetween
        rw [length_children_forget] at hparentMany
        exact ⟨(beq_eq_false_iff_ne.2 hparentMany).symm, nofun⟩
  obtain ⟨met, hmet⟩ := Option.isSome_iff_exists.1 <|
    isSome_meeting distinct hparent hother hne (depth_le_climbLimit distinct hparent)
  simp [pair?, href, Index.parent?_of_mem distinct hparent.mem_walk hchild,
    Index.node?_of_mem distinct htargetMem, htargetNode, hlends,
    Index.parent?_of_mem distinct hother.mem_walk htarget, hplaces, ← honly, hmet]
  exact hboth

end StoryAtlas.Reference.Cousin
