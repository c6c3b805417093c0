import StoryAtlas.Proofs.Event.Index
import StoryAtlas.Proofs.Rose.Agenda

/-!
# The traversals of an event tree agree

All passes rest on how a tree is traversed, so here is what the traversals have to do with one
another. The loops yield the walk and the levels, both orders list the same nodes, the queue hands
out depths that never fall, counting by depth counts every node once, and where ids are distinct an
index has for each id its node, its parent and its depth, and nothing else.
-/

namespace StoryAtlas

namespace Rose

variable {α : Type}

/-- The traversals of a tree, as loops and by recursion, are of the same nodes and depths. -/
structure Traversed (t : Rose α) : Prop where
  walk_eq : walkFrom [t] = t.walk
  breadth_eq : breadthFrom [t] = t.breadth
  withDepth_eq : breadthWithDepthFrom [(t, 0)] = t.breadthWithDepth
  breadth_perm : t.breadth.Perm t.walk
  without_depth : t.breadthWithDepth.map Prod.fst = t.breadth
  depth_iff : ∀ s depth, (s, depth) ∈ t.breadthWithDepth ↔ Lies t depth s
  ordered : t.breadthWithDepth.Pairwise fun s u => s.2 ≤ u.2
  width_eq : ∀ depth : Int, 0 ≤ depth →
    t.width depth = t.breadthWithDepth.countP fun s => (s.2 : Int) == depth
  /-- A negative depth takes no step down and counts the root. -/
  width_of_neg : ∀ depth : Int, depth < 0 → t.width depth = 1
  countAtDepth_eq : ∀ depth : Nat, t.countAtDepth depth = t.width depth
  height_eq : t.height = t.deepest
  size_eq : t.size = t.walk.length
  total_eq : total ((List.range (t.deepest + 1)).map fun depth : Nat => t.width depth) = t.size

theorem width_of_nonneg (t : Rose α) {depth : Int} (h : 0 ≤ depth) :
    t.width depth = t.breadthWithDepth.countP fun s => (s.2 : Int) == depth := by
  obtain ⟨steps, rfl⟩ := Int.eq_ofNat_of_zero_le h
  rw [width_eq, Int.toNat_natCast, countAtDepth_eq]
  refine List.countP_congr fun s _ => ?_
  rw [beq_iff_eq, beq_iff_eq, Int.natCast_inj]

theorem width_of_neg (t : Rose α) {depth : Int} (h : depth < 0) : t.width depth = 1 := by
  rw [width, Int.toNat_of_nonpos (Int.le_of_lt h)]
  rfl

theorem traversed (t : Rose α) : t.Traversed where
  walk_eq := walkFrom_root t
  breadth_eq := breadthFrom_root t
  withDepth_eq := breadthWithDepthFrom_root t
  breadth_perm := breadth_perm_walk t
  without_depth := map_fst_breadthWithDepth t
  depth_iff _ _ := mem_breadthWithDepth_iff_lies
  ordered := pairwise_depth t
  width_eq _ hdepth := width_of_nonneg t hdepth
  width_of_neg _ hdepth := width_of_neg t hdepth
  countAtDepth_eq depth := by rw [width_eq, Int.toNat_natCast]
  height_eq := (deepest_eq t).symm
  size_eq := (length_walk t).symm
  total_eq := by
    rw [← total_countAtDepth t, deepest_eq]
    simp only [width_eq, Int.toNat_natCast]

end Rose

namespace Index

variable {root : Node}

/-- The index has the nodes, the parents and the depths of the tree, by id, and nothing else. -/
structure Charts (root : Node) (index : Index) : Prop where
  node_iff : ∀ id node, (Register.get? id index.nodes).map Placed.forget = some node ↔
    node ∈ root.walk ∧ node.id = id
  parent_iff : ∀ id parent, (Register.get? id index.parents).map Placed.forget = some parent ↔
    parent ∈ root.walk ∧ id ∈ parent.children.map Node.id
  depth_iff : ∀ id depth, Register.get? id index.depths = some depth ↔
    ∃ node, (node, depth) ∈ root.breadthWithDepth ∧ Node.id node = id

theorem lies_iff_placed {node : Node} {depth : Nat} : Rose.Lies root depth node ↔
    ∃ entry : Placed, Rose.Lies root.placed depth entry ∧ entry.forget = node := by
  constructor
  · intro h
    rw [← Node.forget_placed root] at h
    exact h.exists_of_map
  · rintro ⟨entry, hentry, rfl⟩
    have hforget := hentry.map Prod.snd
    rwa [show root.placed.map Prod.snd = root from Node.forget_placed root] at hforget

/-! ### Which ids have a depth -/

/-- Those that have a parent have a depth, and the root has. -/
def DepthsHeld (root : Placed) (index : Index) : Prop :=
  ∀ id, Register.holds id index.depths ↔ id = root.id ∨ Register.holds id index.parents

theorem DepthsHeld.noteChild {root : Placed} {index : Index} (h : DepthsHeld root index)
    (parent child : Placed) : DepthsHeld root (noteChild parent index child) := by
  intro id
  rw [Index.noteChild, Register.holds_put, Register.holds_put, h id]
  exact or_left_comm

theorem depthsHeld_ofPlaced (root : Placed) : DepthsHeld root (ofPlaced root) := by
  have hstart : DepthsHeld root { depths := [(root.id, 0)] } := by
    intro id
    have hroot : Register.holds id [(root.id, 0)] ↔ root.id = id := by
      simp [Register.holds, Register.get?]
    rw [hroot, eq_comm]
    exact (or_iff_left Bool.false_ne_true).symm
  refine List.foldlRecOn root.breadth _ hstart fun index h node _ => ?_
  exact List.foldlRecOn node.children _ h fun index h child _ => h.noteChild node child

theorem holds_depths_iff {root : Placed} {id : Int} :
    Register.holds id (ofPlaced root).depths ↔ id ∈ Placed.ids root := by
  rw [depthsHeld_ofPlaced root id, Placed.mem_ids]
  constructor
  · rintro (rfl | hheld)
    · exact ⟨root, Rose.self_mem_walk root, rfl⟩
    · obtain ⟨parent, hparent⟩ := Option.isSome_iff_exists.1 hheld
      obtain ⟨hmem, hid⟩ := parentsIn_ofPlaced root _ (Register.mem_of_get? hparent)
      obtain ⟨child, hchild, rfl⟩ := List.mem_map.1 hid
      exact ⟨child, Rose.mem_walk_trans (Rose.mem_walk_of_mem_children hchild) hmem, rfl⟩
  · rintro ⟨node, hnode, rfl⟩
    rcases Rose.mem_walk.1 hnode with rfl | hbelow
    · exact .inl rfl
    · obtain ⟨parent, hparent, hchild⟩ := Rose.exists_parent_of_mem_below hbelow
      exact .inr (holds_foldl_noteNode.2
        (.inl ⟨parent, Rose.mem_breadth.2 hparent, List.mem_map_of_mem hchild⟩))

theorem get?_depths_iff {root : Placed} (distinct : (Placed.ids root).Nodup) {node : Placed}
    (hnode : node ∈ root.walk) {depth : Nat} :
    Register.get? node.id (ofPlaced root).depths = some depth ↔ Rose.Lies root depth node := by
  obtain ⟨steps, hlies⟩ := Rose.exists_lies_of_mem_walk hnode
  obtain ⟨stored, hstored⟩ := Option.isSome_iff_exists.1
    (holds_depths_iff.2 (Placed.id_mem_ids hnode))
  have hdepth := depth_of_lies distinct hlies
  rw [Index.depth, hstored, Option.getD_some] at hdepth
  rw [hstored, hdepth, Option.some.injEq]
  exact ⟨fun h => h ▸ hlies, fun h => hlies.unique distinct h⟩

theorem charts_ofRoot (distinct : root.ids.Nodup) : Charts root (ofRoot root) := by
  have hids : (Placed.ids root.placed).Nodup := Placed.ids_placed root ▸ distinct
  refine ⟨fun id node => ?_, fun id parent => ?_, fun id depth => ?_⟩
  · rw [Option.map_eq_some_iff]
    constructor
    · rintro ⟨entry, hget, rfl⟩
      obtain ⟨hmem, rfl⟩ := node?_eq_some hget
      exact ⟨Placed.forget_mem_walk_placed hmem, Placed.id_forget entry⟩
    · rintro ⟨hmem, rfl⟩
      obtain ⟨entry, hentry, rfl⟩ := Placed.exists_of_mem_walk hmem
      rw [Placed.id_forget]
      exact ⟨entry, node?_of_mem hids hentry, rfl⟩
  · rw [Option.map_eq_some_iff]
    constructor
    · rintro ⟨entry, hget, rfl⟩
      obtain ⟨hmem, hid⟩ := parentsIn_ofPlaced root.placed _ (Register.mem_of_get? hget)
      exact ⟨Placed.forget_mem_walk_placed hmem, Placed.ids_children_forget entry ▸ hid⟩
    · rintro ⟨hmem, hid⟩
      obtain ⟨entry, hentry, rfl⟩ := Placed.exists_of_mem_walk hmem
      rw [Placed.ids_children_forget] at hid
      obtain ⟨child, hchild, rfl⟩ := List.mem_map.1 hid
      exact ⟨entry, parent?_of_mem hids hentry hchild, rfl⟩
  · constructor
    · intro hget
      obtain ⟨entry, hentry, rfl⟩ := Placed.mem_ids.1
        (holds_depths_iff.1 (Option.isSome_iff_exists.2 ⟨depth, hget⟩))
      have hlies := (get?_depths_iff hids hentry).1 hget
      exact ⟨Placed.forget entry, Rose.mem_breadthWithDepth_iff_lies.2
        (lies_iff_placed.2 ⟨entry, hlies, rfl⟩), Placed.id_forget entry⟩
    · rintro ⟨node, hnode, rfl⟩
      obtain ⟨entry, hlies, rfl⟩ := lies_iff_placed.1 (Rose.mem_breadthWithDepth_iff_lies.1 hnode)
      rw [Placed.id_forget]
      exact (get?_depths_iff hids hlies.mem_walk).2 hlies

end Index

/-- The traversals of an event tree agree, and where ids are distinct its index follows them. -/
theorem traversals_agree (root : Node) :
    root.Traversed ∧ (root.ids.Nodup → Index.Charts root (Index.ofRoot root)) :=
  ⟨Rose.traversed root, Index.charts_ofRoot⟩

def forks : Node :=
  .node { id := 4, kind := .dialogue, text := some "The road forks." }
    [.node { id := 2, kind := .dialogue, label := some "Left", text := some "It forks again." }
      [.node { id := 7, kind := .ending, label := some "Left", text := some "A mill." } [],
        .node { id := 1, kind := .ending, label := some "Right", text := some "A ford." } []],
      .node { id := 0, kind := .ending, label := some "Right", text := some "A wall." } []]

theorem traversals_agree_forks :
    forks.ids.Nodup ∧ forks.Traversed ∧ Index.Charts forks (Index.ofRoot forks) :=
  ⟨by decide, (traversals_agree forks).1, (traversals_agree forks).2 (by decide)⟩

end StoryAtlas
