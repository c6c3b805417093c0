import StoryAtlas.Proofs.Event.Shape
import StoryAtlas.Proofs.Rose.Depth
import StoryAtlas.Proofs.Total
import StoryAtlas.Reference.Sibling

/-!
# Who borrows from whom

A node borrows from what it refers to, if that has children and is its sibling or its cousin. What
two nodes are to each other is said by their parents, the depth of these and the number of their
children. No pass that borrows changes any of it, so none makes new kin: a reference that is left by
the pass that converts its sort is left for good.
-/

namespace StoryAtlas.Reference

/-- What a node may be to the one that it refers to. -/
inductive Kinship where
  | siblings
  | cousins
  | crowdedCousins

/-- The first parent has a child of that sort, seen from a child of the second. -/
def Kinship.Between : Kinship → Node → Node → Prop
  | siblings, parent, other => parent.id = other.id
  | cousins, parent, other =>
    parent.id ≠ other.id ∧ parent.children.length = 1 ∧ other.children.length = 1
  | crowdedCousins, parent, other => parent.id ≠ other.id ∧ parent.children.length ≠ 1

theorem Kinship.between_congr {kinship : Kinship} {parent other parent' other' : Node}
    (h : kinship.Between parent other) (hparent : parent'.id = parent.id)
    (hother : other'.id = other.id) (hlength : parent'.children.length = parent.children.length)
    (hlength' : other'.children.length = other.children.length) :
    kinship.Between parent' other' := by
  cases kinship with
  | siblings => exact hparent.trans (h.trans hother.symm)
  | cousins => exact ⟨by rw [hparent, hother]; exact h.1, hlength.trans h.2.1, hlength'.trans h.2.2⟩
  | crowdedCousins => exact ⟨by rw [hparent, hother]; exact h.1, by rw [hlength]; exact h.2⟩

/-- A node refers to kin that has children to lend. -/
structure Kin (kinship : Kinship) (root node target : Node) : Prop where
  ref : node.value.ref = some target.id
  lends : target.children ≠ []
  related : ∃ depth parent other, Rose.Lies root depth parent ∧ Rose.Lies root depth other ∧
    node ∈ parent.children ∧ target ∈ other.children ∧ kinship.Between parent other

namespace Kin

variable {kinship : Kinship} {root node target : Node}

theorem lies (h : Kin kinship root node target) :
    ∃ depth, Rose.Lies root depth node ∧ Rose.Lies root depth target := by
  obtain ⟨depth, parent, other, hparent, hother, hnode, htarget, -⟩ := h.related
  exact ⟨depth + 1, hparent.child hnode, hother.child htarget⟩

theorem node_mem (h : Kin kinship root node target) : node ∈ root.walk :=
  let ⟨_, hnode, _⟩ := h.lies
  hnode.mem_walk

theorem target_mem (h : Kin kinship root node target) : target ∈ root.walk :=
  let ⟨_, _, htarget⟩ := h.lies
  htarget.mem_walk

/-- What a node borrows from is neither the node nor above or below it. -/
theorem apart (distinct : root.ids.Nodup) (bare : root.Bare) (h : Kin kinship root node target) :
    target ∉ node.walk ∧ node ∉ target.walk := by
  obtain ⟨depth, hnode, htarget⟩ := h.lies
  have hne : target ≠ node := by
    rintro rfl
    exact h.lends (bare target h.target_mem (by rw [h.ref]; rfl))
  constructor
  · intro hmem
    exact (hnode.notMem_below distinct htarget) ((Rose.mem_walk.1 hmem).resolve_left hne)
  · intro hmem
    exact (htarget.notMem_below distinct hnode) ((Rose.mem_walk.1 hmem).resolve_left hne.symm)

end Kin

/-! ### Passes that borrow -/

/-- The id stays, and so does the reference unless it goes. -/
structure Keeps (old new : Beat) : Prop where
  id : new.id = old.id
  ref : ∀ target, new.ref = some target → old.ref = some target

/-- The node has been turned into one that shows the children of its kin. -/
def Borrows (kinship : Kinship) (root : Node) (old new : Beat) : Prop :=
  ∃ node target borrowed, Kin kinship root node target ∧ node.value = old ∧
    borrowed.Perm (target.children.map Node.id) ∧ new = Borrowing.borrow borrowed old

/-- Whoever can borrow from its kin does, and nobody else changes. -/
def Turned (kinship : Kinship) (root : Node) (old new : Beat) : Prop :=
  (new = old ∧ ∀ node target, node.value = old → ¬Kin kinship root node target) ∨
    Borrows kinship root old new

/-- A beat stays, or it borrows from some kin. -/
def Lent (root : Node) (old new : Beat) : Prop :=
  new = old ∨ ∃ kinship, Borrows kinship root old new

theorem keeps_borrow (borrowed : List Int) (beat : Beat) :
    Keeps beat (Borrowing.borrow borrowed beat) :=
  ⟨rfl, nofun⟩

section Passes

variable {kinship other : Kinship} {root middle after : Node} {old new last : Beat}
  {R : Beat → Beat → Prop}

theorem Borrows.keeps (h : Borrows kinship root old new) : Keeps old new := by
  obtain ⟨_, _, borrowed, -, -, -, rfl⟩ := h
  exact keeps_borrow borrowed old

theorem Borrows.ref (h : Borrows kinship root old new) : old.ref.isSome ∧ new.ref = none := by
  obtain ⟨_, _, _, hkin, rfl, -, rfl⟩ := h
  exact ⟨by rw [hkin.ref]; rfl, rfl⟩

theorem Turned.lent (h : Turned kinship root old new) : Lent root old new :=
  h.imp And.left fun hborrows => ⟨kinship, hborrows⟩

theorem Lent.keeps (h : Lent root old new) : Keeps old new := by
  rcases h with rfl | ⟨kinship, hborrows⟩
  · exact ⟨rfl, fun _ href => href⟩
  · exact hborrows.keeps

theorem Turned.keeps (h : Turned kinship root old new) : Keeps old new := h.lent.keeps

theorem Lent.relinked (h : Lent root old new) : Beat.Relinked root.ids old new := by
  rcases h with rfl | ⟨kinship, node, target, borrowed, hkin, -, hperm, rfl⟩
  · exact .refl new
  · refine ⟨⟨rfl, rfl, nofun⟩, fun link hlink => .inr ?_⟩
    obtain ⟨child, hchild, rfl⟩ := List.mem_map.1 (hperm.mem_iff.1 hlink)
    exact Node.id_mem_ids (Rose.mem_walk_trans (Rose.mem_walk_of_mem_children hchild) hkin.target_mem)

/-- Kin has been kin before. -/
theorem Kin.of_shuffled (hR : ∀ a b, R a b → Keeps a b) (h : Rose.Shuffled R root after)
    {node target : Node} (hkin : Kin kinship after node target) :
    ∃ node' target', Kin kinship root node' target' ∧ Rose.Shuffled R node' node ∧
      Rose.Shuffled R target' target := by
  obtain ⟨depth, parent, other, hparent, hother, hnode, htarget, hbetween⟩ := hkin.related
  obtain ⟨parent', hparent', hparentRel⟩ := h.exists_of_lies hparent
  obtain ⟨other', hother', hotherRel⟩ := h.exists_of_lies hother
  obtain ⟨node', hnode', hnodeRel⟩ := hparentRel.exists_of_mem_children hnode
  obtain ⟨target', htarget', htargetRel⟩ := hotherRel.exists_of_mem_children htarget
  refine ⟨node', target', ⟨?_, ?_, depth, parent', other', hparent', hother', hnode', htarget', ?_⟩,
    hnodeRel, htargetRel⟩
  · rw [(hR _ _ hnodeRel.value).ref _ hkin.ref]
    exact congrArg some (hR _ _ htargetRel.value).id
  · rw [Ne, ← htargetRel.children_eq_nil]
    exact hkin.lends
  · exact Kinship.between_congr hbetween (hR _ _ hparentRel.value).id.symm
      (hR _ _ hotherRel.value).id.symm hparentRel.length_children.symm
      hotherRel.length_children.symm

/-- A pass leaves nobody who could borrow from kin of its sort. -/
theorem not_kin_of_turned (h : Rose.Shuffled (Turned kinship root) root after) (node target : Node) :
    ¬Kin kinship after node target := by
  intro hkin
  obtain ⟨node', target', hkin', hnode, -⟩ := hkin.of_shuffled (fun _ _ => Turned.keeps) h
  rcases hnode.value with ⟨-, hnone⟩ | hborrows
  · exact hnone node' target' rfl hkin'
  · have hgone := hborrows.ref.2
    rw [hkin.ref] at hgone
    cases hgone

/-- Where nobody can borrow, later passes change nothing about it. -/
theorem not_kin_of_lent (hnone : ∀ node target, ¬Kin kinship root node target)
    (h : Rose.Shuffled (Lent root) root after) (node target : Node) :
    ¬Kin kinship after node target := by
  intro hkin
  obtain ⟨node', target', hkin', -⟩ := hkin.of_shuffled (fun _ _ => Lent.keeps) h
  exact hnone node' target' hkin'

theorem perm_ids_children (hR : ∀ a b, R a b → Keeps a b) (h : Rose.Shuffled R root after) :
    (after.children.map Node.id).Perm (root.children.map Node.id) :=
  h.map_children_perm fun a b hab => (hR a b hab).id.symm

/-- One pass after the others. -/
theorem lent_trans (first : Rose.Shuffled (Lent root) root middle)
    (second : Rose.Shuffled (Turned other middle) middle after) :
    Rose.Shuffled (Lent root) root after := by
  refine first.trans (fun old new last hold hnew => ?_) second
  rcases hnew with ⟨rfl, -⟩ | ⟨node, target, borrowed, hkin, rfl, hperm, rfl⟩
  · exact hold
  · obtain ⟨node', target', hkin', hnode, htarget⟩ :=
      hkin.of_shuffled (fun _ _ => Lent.keeps) first
    -- whoever borrows now has a reference, so it has not borrowed before
    have hsame : ∀ {beat : Beat}, Lent root beat node.value → beat = node.value := by
      rintro beat (hsame | ⟨kinship, hborrows⟩)
      · exact hsame.symm
      · have hgone := hborrows.ref.2
        rw [hkin.ref] at hgone
        cases hgone
    rw [hsame hold]
    refine .inr ⟨other, node', target', borrowed, hkin', hsame hnode.value, ?_, rfl⟩
    exact hperm.trans (perm_ids_children (fun _ _ => Lent.keeps) htarget)

end Passes

/-! ### Counting references -/

theorem countP_and_add_countP_and_not {α : Type} (p q : α → Bool) (items : List α) :
    (items.countP fun item => p item && q item) + (items.countP fun item => p item && !q item) =
      items.countP p := by
  rw [List.countP_eq_countP_filter_add items p q, List.countP_filter, List.countP_filter]

def refCount (root : Node) : Nat := root.walk.countP fun node => node.value.ref.isSome

theorem refCount_node (beat : Beat) (children : List Node) :
    refCount (.node beat children) = beat.ref.isSome.toNat + total (children.map refCount) := by
  rw [refCount, Rose.walk_node, List.countP_cons, Nat.add_comm, Rose.value_node]
  congr 1
  · cases beat.ref.isSome <;> rfl
  · induction children with
    | nil => rfl
    | cons child children ih =>
        rw [Rose.walkForest, List.countP_append, ih, List.map_cons, total_cons, refCount]

end StoryAtlas.Reference
