import StoryAtlas.Event.Index
import StoryAtlas.Proofs.Event.Place
import StoryAtlas.Proofs.Rose.Depth

/-!
# What an index finds

The index of a tree finds nodes of the tree: under an id a node that carries it, and as the parent of
a node one that has a child with its id. Where ids are distinct the depths are right too. A parent
is noted before its children are, since the levels are noted in turn, and once a node has been noted
no later one changes its depth or that of its children.
-/

namespace StoryAtlas.Index

variable {root node child : Placed}

theorem nodes_noteNode (index : Index) (node : Placed) :
    (noteNode index node).nodes = Register.put node.id node index.nodes := by
  suffices h : ∀ (children : List Placed) (index : Index),
      (children.foldl (noteChild node) index).nodes = index.nodes from h _ _
  intro children
  induction children with
  | nil => exact fun _ => rfl
  | cons child children ih => exact fun index => ih _

theorem nodes_ofPlaced (root : Placed) :
    (ofPlaced root).nodes = Register.ofList (root.breadth.map fun node => (Placed.id node, node)) := by
  suffices h : ∀ (found : List Placed) (index : Index), (found.foldl noteNode index).nodes =
      (found.map fun node => (Placed.id node, node)).foldl
        (fun nodes pair => Register.put pair.1 pair.2 nodes) index.nodes from h _ _
  intro found
  induction found with
  | nil => exact fun _ => rfl
  | cons node found ih =>
      intro index
      rw [List.foldl_cons, ih, nodes_noteNode, List.map_cons, List.foldl_cons]

theorem mem_walk_of_mem_nodes {entry : Int × Placed} (h : entry ∈ (ofPlaced root).nodes) :
    entry.2 ∈ root.walk ∧ entry.2.id = entry.1 := by
  rw [nodes_ofPlaced] at h
  obtain ⟨node, hnode, rfl⟩ := List.mem_map.1 (Register.mem_ofList h)
  exact ⟨Rose.mem_breadth.1 hnode, rfl⟩

theorem node?_eq_some {id : Int} (h : (ofPlaced root).node? id = some node) :
    node ∈ root.walk ∧ node.id = id :=
  mem_walk_of_mem_nodes (Register.mem_of_get? h)

theorem nodes_of_nodup (distinct : (Placed.ids root).Nodup) :
    (ofPlaced root).nodes = root.breadth.map fun node => (Placed.id node, node) := by
  rw [nodes_ofPlaced]
  apply Register.ofList_of_nodup
  rw [List.map_map]
  exact ((Rose.breadth_perm_walk root).map Placed.id).nodup_iff.2 distinct

theorem length_nodes (distinct : (Placed.ids root).Nodup) :
    (ofPlaced root).nodes.length = root.size := by
  rw [nodes_of_nodup distinct, List.length_map, (Rose.breadth_perm_walk root).length_eq,
    Rose.length_walk]

theorem node?_of_mem (distinct : (Placed.ids root).Nodup) (h : node ∈ root.walk) :
    (ofPlaced root).node? node.id = some node := by
  refine Register.get?_of_mem ?_ ?_
  · rw [nodes_of_nodup distinct, List.map_map]
    exact ((Rose.breadth_perm_walk root).map Placed.id).nodup_iff.2 distinct
  · rw [nodes_of_nodup distinct]
    exact List.mem_map_of_mem (Rose.mem_breadth.2 h)

/-! ### Parents -/

/-- What is noted as the parent of an id has a child with this id. -/
def ParentsIn (root : Placed) (index : Index) : Prop :=
  ∀ entry ∈ index.parents, entry.2 ∈ root.walk ∧ entry.1 ∈ entry.2.children.map Placed.id

theorem ParentsIn.noteNode {index : Index} (h : ParentsIn root index) (hnode : node ∈ root.walk) :
    ParentsIn root (noteNode index node) := by
  suffices hfold : ∀ (children : List Placed) (index : Index), children ⊆ node.children →
      ParentsIn root index → ParentsIn root (children.foldl (noteChild node) index) from
    hfold _ _ (List.Subset.refl _) h
  intro children
  induction children with
  | nil => exact fun _ _ h => h
  | cons child children ih =>
      intro index hsub h
      have hchild := hsub List.mem_cons_self
      apply ih _ (fun other hother => hsub (List.mem_cons_of_mem _ hother))
      intro entry hentry
      rcases Register.mem_put hentry with rfl | hentry
      · exact ⟨hnode, List.mem_map_of_mem hchild⟩
      · exact h entry hentry

theorem parentsIn_ofPlaced (root : Placed) : ParentsIn root (ofPlaced root) := by
  suffices h : ∀ (found : List Placed) (index : Index), found ⊆ root.walk → ParentsIn root index →
      ParentsIn root (found.foldl Index.noteNode index) by
    apply h _ _ (fun node hnode => Rose.mem_breadth.1 hnode)
    intro entry hentry
    cases hentry
  intro found
  induction found with
  | nil => exact fun _ _ h => h
  | cons node found ih =>
      intro index hsub h
      exact ih _ (fun other hother => hsub (List.mem_cons_of_mem _ hother))
        (h.noteNode (hsub List.mem_cons_self))

theorem parent?_eq_some {parent : Placed} (h : (ofPlaced root).parent? node = some parent) :
    parent ∈ root.walk ∧ node.id ∈ parent.children.map Placed.id :=
  parentsIn_ofPlaced root _ (Register.mem_of_get? h)

theorem holds_noteNode {index : Index} {key : Int} :
    Register.holds key (noteNode index node).parents ↔
      key ∈ node.children.map Placed.id ∨ Register.holds key index.parents := by
  suffices h : ∀ (children : List Placed) (index : Index),
      Register.holds key (children.foldl (noteChild node) index).parents ↔
        key ∈ children.map Placed.id ∨ Register.holds key index.parents from h _ _
  intro children
  induction children with
  | nil => simp
  | cons child children ih =>
      intro index
      rw [List.foldl_cons, ih, noteChild, Register.holds_put, List.map_cons, List.mem_cons]
      tauto

theorem holds_foldl_noteNode {found : List Placed} {index : Index} {key : Int} :
    Register.holds key (found.foldl noteNode index).parents ↔
      (∃ node ∈ found, key ∈ (Rose.children node).map Placed.id) ∨
        Register.holds key index.parents := by
  induction found generalizing index with
  | nil => simp
  | cons node found ih =>
      rw [List.foldl_cons, ih, holds_noteNode]
      simp only [List.mem_cons, exists_eq_or_imp]
      exact or_left_comm.trans or_assoc.symm

/-- Where ids are distinct the parent of every child is found. -/
theorem parent?_of_mem {parent : Placed} (distinct : (Placed.ids root).Nodup)
    (hparent : parent ∈ root.walk) (hchild : child ∈ parent.children) :
    (ofPlaced root).parent? child = some parent := by
  have hheld : Register.holds child.id (ofPlaced root).parents :=
    holds_foldl_noteNode.2 (.inl ⟨parent, Rose.mem_breadth.2 hparent, List.mem_map_of_mem hchild⟩)
  obtain ⟨found, hfound⟩ := Option.isSome_iff_exists.1 hheld
  obtain ⟨hmem, hid⟩ := parent?_eq_some hfound
  obtain ⟨twin, htwin, hsame⟩ := List.mem_map.1 hid
  rw [Rose.parent_unique distinct hparent hmem hchild htwin hsame.symm]
  exact hfound

theorem mem_children_of_parent? {parent : Placed} (distinct : (Placed.ids root).Nodup)
    (hnode : node ∈ root.walk) (h : (ofPlaced root).parent? node = some parent) :
    parent ∈ root.walk ∧ node ∈ parent.children := by
  obtain ⟨hmem, hid⟩ := parent?_eq_some h
  obtain ⟨child, hchild, hsame⟩ := List.mem_map.1 hid
  have hwalk := Rose.mem_walk_trans (Rose.mem_walk_of_mem_children hchild) hmem
  rw [Placed.eq_of_id_eq distinct hwalk hnode hsame] at hchild
  exact ⟨hmem, hchild⟩

/-! ### Depths -/

theorem depth_noteNode (index : Index) (node other : Placed)
    (hself : node.id ∉ node.children.map Placed.id) :
    depth (noteNode index node) other =
      if other.id ∈ node.children.map Placed.id then depth index node + 1
      else depth index other := by
  suffices h : ∀ (children : List Placed) (index : Index), node.id ∉ children.map Placed.id →
      depth (children.foldl (noteChild node) index) other =
        if other.id ∈ children.map Placed.id then depth index node + 1 else depth index other from
    h _ _ hself
  intro children
  induction children with
  | nil => exact fun _ _ => rfl
  | cons child children ih =>
      intro index hself
      rw [List.map_cons, List.mem_cons, not_or] at hself
      rw [List.foldl_cons, ih _ hself.2]
      simp only [depth, noteChild, Register.get?_put, if_neg hself.1, List.map_cons, List.mem_cons]
      by_cases hmem : other.id ∈ children.map Placed.id
      · rw [if_pos hmem, if_pos (.inr hmem)]
      · rw [if_neg hmem]
        by_cases hchild : other.id = child.id
        · rw [if_pos hchild, if_pos (.inl hchild)]
          rfl
        · rw [if_neg hchild, if_neg (by simp [hchild, hmem])]

/-- Noting nodes leaves the depth of what is a child of none of them. -/
theorem depth_foldl_of_notMem {found : List Placed} {index : Index} {other : Placed}
    (hself : ∀ node ∈ found, Placed.id node ∉ node.children.map Placed.id)
    (h : ∀ node ∈ found, other.id ∉ (Rose.children node).map Placed.id) :
    depth (found.foldl noteNode index) other = depth index other := by
  induction found generalizing index with
  | nil => rfl
  | cons node found ih =>
      rw [List.foldl_cons, ih (fun node hnode => hself node (by simp [hnode]))
        (fun node hnode => h node (by simp [hnode])), depth_noteNode _ _ _ (hself node (by simp)),
        if_neg (h node (by simp))]

/-- The depth of a node is settled when it is noted, and that of its children with it. -/
theorem depth_child (hids : (Placed.ids root).Nodup) (hnode : node ∈ root.walk)
    (hchild : child ∈ node.children) :
    (ofPlaced root).depth child = (ofPlaced root).depth node + 1 := by
  have hperm := Rose.breadth_perm_walk root
  have hnodup : (root.breadth.map Placed.id).Nodup := (hperm.map _).nodup_iff.2 hids
  have hself : ∀ other ∈ root.breadth, Placed.id other ∉ other.children.map Placed.id := by
    intro other hother hmem
    exact Rose.key_notMem_below hids (Rose.mem_breadth.1 hother)
      (List.map_subset _ (Rose.children_subset_walkForest other) hmem)
  have hlater := Rose.pairwise_breadth hids
  obtain ⟨earlier, later, hsplit⟩ := List.append_of_mem (Rose.mem_breadth.2 hnode)
  have hmem : ∀ other ∈ later, other ∈ root.breadth := fun other hother => by simp [hsplit, hother]
  rw [ofPlaced]
  rw [hsplit, List.map_append, List.map_cons] at hnodup
  rw [hsplit] at hlater ⊢
  have hafter := (List.pairwise_cons.1 (List.pairwise_append.1 hlater).2.1).1
  have hnew := (List.nodup_cons.1 (List.nodup_append.1 hnodup).2.1).1
  have hown := hself node (Rose.mem_breadth.2 hnode)
  rw [List.foldl_append, List.foldl_cons]
  generalize earlier.foldl noteNode _ = before
  rw [depth_foldl_of_notMem (fun other hother => hself other (hmem other hother)) ?_,
    depth_foldl_of_notMem (fun other hother => hself other (hmem other hother)) ?_,
    depth_noteNode before node child hown, if_pos (List.mem_map_of_mem hchild),
    depth_noteNode before node node hown, if_neg hown]
  · intro other hother hbelow
    exact hafter other hother (List.map_subset _ (Rose.children_subset_walkForest other) hbelow)
  · intro other hother hbelow
    obtain ⟨twin, htwin, hid⟩ := List.mem_map.1 hbelow
    have hsame := Rose.parent_unique hids hnode (Rose.mem_breadth.1 (hmem other hother)) hchild htwin
      hid.symm
    rw [hsame] at hnew
    exact hnew (List.mem_map_of_mem hother)

theorem depth_lt_of_mem_below (hids : (Placed.ids root).Nodup) (hnode : node ∈ root.walk)
    (hbelow : child ∈ Rose.walkForest node.children) :
    (ofPlaced root).depth node < (ofPlaced root).depth child := by
  induction node using Rose.induction_on with
  | node entry children ih =>
      obtain ⟨first, hfirst, hmem⟩ := Rose.mem_walkForest.1 hbelow
      have hstep := depth_child hids hnode hfirst
      rcases Rose.mem_walk.1 hmem with rfl | hmem
      · omega
      · have hwalk := Rose.mem_walk_trans (Rose.mem_walk_of_mem_children hfirst) hnode
        have := ih first hfirst hwalk hmem
        omega

theorem id_root_notMem_children (distinct : (Placed.ids root).Nodup) (hnode : node ∈ root.walk) :
    root.id ∉ node.children.map Placed.id := by
  intro hmem
  obtain ⟨child, hchild, hid⟩ := List.mem_map.1 hmem
  have hinside := Rose.mem_walk_trans (Rose.mem_walk_of_mem_children hchild) hnode
  have hsame := Placed.eq_of_id_eq distinct hinside (Rose.self_mem_walk root) hid
  have hsmaller := Rose.size_lt_of_mem_children hchild
  have hsmall := Rose.size_le_of_mem_walk hnode
  rw [hsame] at hsmaller
  omega

theorem depth_root (distinct : (Placed.ids root).Nodup) : (ofPlaced root).depth root = 0 := by
  have hself : ∀ node ∈ root.breadth, Placed.id node ∉ (Rose.children node).map Placed.id := by
    intro node hnode hmem
    exact Rose.key_notMem_below distinct (Rose.mem_breadth.1 hnode)
      (List.map_subset _ (Rose.children_subset_walkForest node) hmem)
  rw [ofPlaced, depth_foldl_of_notMem hself fun node hnode =>
    id_root_notMem_children distinct (Rose.mem_breadth.1 hnode)]
  simp [depth, Register.get?]

theorem depth_of_lies (distinct : (Placed.ids root).Nodup) {steps : Nat}
    (h : Rose.Lies root steps node) : (ofPlaced root).depth node = steps := by
  induction h with
  | top => exact depth_root distinct
  | child hs hc ih => rw [depth_child distinct hs.mem_walk hc, ih]

end StoryAtlas.Index
