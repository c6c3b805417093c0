import StoryAtlas.Event.Place
import StoryAtlas.Proofs.Event.Shape
import StoryAtlas.Proofs.Register
import StoryAtlas.Proofs.Rose.Edit
import StoryAtlas.Proofs.Rose.Levels

/-!
# Trees with places

A placed tree says the same as the tree it was made from, and no two of its nodes share a place.
Collapsing nodes to references keeps the ids distinct and leaves no node with both a reference and
children. It keeps the wrappers as well, as long as none of them is collapsed.
-/

namespace StoryAtlas

theorem Node.forget_placed (root : Node) : root.placed.forget = root :=
  Rose.map_snd_enumerate 0 root

namespace Placed

variable {root node other : Placed}

def places (root : Placed) : List Nat := root.walk.map place

def ids (root : Placed) : List Int := root.walk.map Placed.id

theorem places_eq_map_values (root : Placed) : places root = root.values.map Prod.fst := by
  rw [Rose.values, List.map_map]
  rfl

theorem ids_eq_map_values (root : Placed) : ids root = root.values.map fun entry => entry.2.id := by
  rw [Rose.values, List.map_map]
  rfl

@[simp] theorem id_forget (node : Placed) : node.forget.id = node.id := by
  rw [Node.id, forget, Rose.value_map]
  rfl

@[simp] theorem value_forget (node : Placed) : node.forget.value = node.beat := Rose.value_map _ _

theorem ids_forget (root : Placed) : root.forget.ids = ids root := by
  rw [Node.ids, forget, Rose.walk_map, List.map_map]
  exact List.map_congr_left fun node _ => id_forget node

theorem ids_children_forget (node : Placed) :
    node.forget.children.map Node.id = node.children.map Placed.id := by
  rw [forget, Rose.children_map, List.map_map]
  exact List.map_congr_left fun child _ => id_forget child

theorem ids_placed (root : Node) : ids root.placed = root.ids := by
  rw [← ids_forget, Node.forget_placed]

theorem mem_ids {id : Int} : id ∈ ids root ↔ ∃ node ∈ root.walk, Placed.id node = id := List.mem_map

theorem id_mem_ids (h : node ∈ root.walk) : node.id ∈ ids root := List.mem_map_of_mem h

theorem forget_mem_walk (h : node ∈ root.walk) : node.forget ∈ root.forget.walk := by
  rw [forget, Rose.walk_map]
  exact List.mem_map_of_mem h

theorem exists_of_mem_walk_forget {node : Node} (h : node ∈ root.forget.walk) :
    ∃ origin ∈ root.walk, forget origin = node := by
  rw [forget, Rose.walk_map] at h
  exact List.mem_map.1 h

theorem exists_of_mem_below_forget {below : Node}
    (h : below ∈ Rose.walkForest node.forget.children) :
    ∃ origin ∈ Rose.walkForest node.children, forget origin = below := by
  rw [forget, Rose.children_map] at h
  obtain ⟨_, hmap, hbelow⟩ := Rose.mem_walkForest.1 h
  obtain ⟨child, hchild, rfl⟩ := List.mem_map.1 hmap
  obtain ⟨origin, horigin, hforget⟩ := exists_of_mem_walk_forget hbelow
  exact ⟨origin, Rose.mem_walkForest.2 ⟨child, hchild, horigin⟩, hforget⟩

theorem exists_of_mem_walk {root node : Node} (h : node ∈ root.walk) :
    ∃ origin ∈ root.placed.walk, forget origin = node := by
  rw [← Node.forget_placed root] at h
  exact exists_of_mem_walk_forget h

theorem forget_mem_walk_placed {root : Node} (h : node ∈ root.placed.walk) :
    node.forget ∈ root.walk := by
  have hmem := forget_mem_walk h
  rwa [Node.forget_placed] at hmem

theorem nodup_places_placed (root : Node) : (places root.placed).Nodup := by
  have hplaces : places root.placed = List.range' 0 root.size := Rose.numbers_enumerate 0 root
  rw [hplaces]
  exact List.nodup_range'

theorem eq_of_place_eq (distinct : (places root).Nodup) (hn : node ∈ root.walk)
    (ho : other ∈ root.walk) (h : node.place = other.place) : node = other :=
  List.inj_on_of_nodup_map distinct hn ho h

theorem eq_of_id_eq (distinct : (ids root).Nodup) (hn : node ∈ root.walk) (ho : other ∈ root.walk)
    (h : node.id = other.id) : node = other :=
  List.inj_on_of_nodup_map distinct hn ho h

theorem mem_places {number : Nat} :
    number ∈ places root ↔ ∃ node ∈ root.walk, place node = number := List.mem_map

theorem atPlace?_eq_some {number : Nat} (h : root.atPlace? number = some node) :
    node ∈ root.walk ∧ node.place = number := by
  refine ⟨List.mem_of_find?_eq_some h, ?_⟩
  have := List.find?_some h
  simpa using this

theorem atPlace?_of_mem (distinct : (places root).Nodup) (h : node ∈ root.walk) :
    root.atPlace? node.place = some node := by
  cases hfound : root.atPlace? node.place with
  | none =>
      have := List.find?_eq_none.1 hfound node h
      simp at this
  | some found =>
      obtain ⟨hmem, hplace⟩ := atPlace?_eq_some hfound
      rw [eq_of_place_eq distinct hmem h hplace]

/-- The current version of a node is in the tree, or the tree has lost the node. -/
theorem current_cases (root node : Placed) :
    (root.current node ∈ root.walk ∧ (root.current node).place = node.place) ∨
      (root.current node = node ∧ ∀ other ∈ root.walk, place other ≠ node.place) := by
  unfold current
  cases hfound : root.atPlace? node.place with
  | none =>
      refine .inr ⟨rfl, fun other hother hplace => ?_⟩
      have := List.find?_eq_none.1 hfound other hother
      simp [hplace] at this
  | some found => exact .inl (atPlace?_eq_some hfound)

theorem filter_place_eq_singleton {number : Nat} (hcount : (places root).count number = 1)
    (hnode : node ∈ root.walk) (hplace : node.place = number) :
    (root.walk.filter fun other => other.value.1 == number) = [node] := by
  have hlength : (root.walk.filter fun other => other.value.1 == number).length = 1 := by
    rw [← List.countP_eq_length_filter, ← hcount, places, List.count, List.countP_map]
    rfl
  obtain ⟨other, hother⟩ := List.length_eq_one_iff.1 hlength
  have hmem : node ∈ root.walk.filter fun other => other.value.1 == number :=
    List.mem_filter.2 ⟨hnode, beq_iff_eq.2 hplace⟩
  rw [hother, List.mem_singleton] at hmem
  rw [hother, hmem]

def Bare (root : Placed) : Prop :=
  root.Everywhere fun entry children => entry.2.ref.isSome → children = []

theorem bare_forget : root.forget.Bare ↔ Bare root := by
  constructor
  · intro h node hnode href
    have hbare := h (forget node) (forget_mem_walk hnode)
    simp only [forget, Rose.value_map, Rose.children_map, List.map_eq_nil_iff] at hbare
    exact hbare href
  · intro h node hnode href
    obtain ⟨origin, horigin, rfl⟩ := exists_of_mem_walk_forget hnode
    rw [forget, Rose.value_map] at href
    rw [forget, Rose.children_map, h origin horigin href]
    rfl

/-! ### Passes over placed trees -/

/-- Nodes may change places among their siblings, no node changes its number, and what is named anew
is one of the ids. -/
abbrev Relinked (ids : List Int) (root after : Placed) : Prop :=
  Rose.Shuffled (fun old new => new.1 = old.1 ∧ Beat.Relinked ids old.2 new.2) root after

namespace Relinked

variable {numbers : List Int} {after : Placed}

theorem forget (h : Relinked numbers root after) :
    Rose.Shuffled (Beat.Relinked numbers) root.forget after.forget :=
  Rose.Shuffled.map_map (h.imp fun _ _ hentry => hentry.2)

theorem places_perm (h : Relinked numbers root after) : (places after).Perm (places root) :=
  Rose.Shuffled.map_walk_perm (fun _ _ hentry => hentry.1.symm) h

theorem ids_perm (h : Relinked numbers root after) : (ids after).Perm (ids root) := by
  rw [← ids_forget, ← ids_forget]
  exact Node.ids_perm_of_shuffled (fun _ _ hbeat => hbeat.id.symm) h.forget

end Relinked

/-! ### Collapsing nodes -/

variable {targets : Register Nat Int}

theorem collapseForest_eq_map (targets : Register Nat Int) (nodes : List Placed) :
    collapseForest targets nodes = nodes.map (collapse targets) := by
  induction nodes with
  | nil => rfl
  | cons node nodes ih => rw [collapseForest, ih, List.map_cons]

theorem collapse_of_some {target : Int} (h : Register.get? node.place targets = some target) :
    node.collapse targets = .node (node.place, { node.beat with ref := some target }) [] := by
  obtain ⟨⟨number, beat⟩, children⟩ := node
  rw [collapse]
  rw [place, Rose.value_node] at h
  rw [h]
  rfl

theorem collapse_of_none (h : Register.get? node.place targets = none) :
    node.collapse targets = .node node.value (node.children.map (collapse targets)) := by
  obtain ⟨⟨number, beat⟩, children⟩ := node
  rw [collapse, collapseForest_eq_map]
  rw [place, Rose.value_node] at h
  rw [h]
  rfl

@[simp] theorem id_collapse (targets : Register Nat Int) (node : Placed) :
    (node.collapse targets).id = node.id := by
  cases h : Register.get? node.place targets with
  | none => rw [collapse_of_none h]; rfl
  | some target => rw [collapse_of_some h]; rfl

theorem mem_walk_collapse (h : other ∈ (root.collapse targets).walk) :
    ∃ node ∈ root.walk, other = collapse targets node := by
  induction root using Rose.induction_on with
  | node entry children ih =>
      cases hget : Register.get? (place (.node entry children)) targets with
      | some target =>
          rw [collapse_of_some hget] at h
          rcases Rose.mem_walk.1 h with rfl | h
          · exact ⟨_, Rose.self_mem_walk _, (collapse_of_some hget).symm⟩
          · simp [Rose.walkForest] at h
      | none =>
          rcases Rose.mem_walk.1 h with rfl | h
          · exact ⟨_, Rose.self_mem_walk _, rfl⟩
          · rw [collapse_of_none hget, Rose.children_node, Rose.children_node] at h
            obtain ⟨_, hmap, h⟩ := Rose.mem_walkForest.1 h
            obtain ⟨child, hchild, rfl⟩ := List.mem_map.1 hmap
            obtain ⟨node, hnode, hother⟩ := ih child hchild h
            exact ⟨node, Rose.mem_walk_of_mem hchild hnode, hother⟩

/-- A node is in the collapsed tree, or it was below a node that is collapsed. -/
theorem collapse_mem_walk_or_below (targets : Register Nat Int) (h : node ∈ root.walk) :
    node.collapse targets ∈ (root.collapse targets).walk ∨
      ∃ upper ∈ root.walk, Register.holds (place upper) targets ∧
        node ∈ Rose.walkForest upper.children := by
  induction root using Rose.induction_on with
  | node entry children ih =>
      rcases Rose.mem_walk.1 h with rfl | hbelow
      · exact .inl (Rose.self_mem_walk _)
      cases hget : Register.get? (place (.node entry children)) targets with
      | some target =>
          have hheld : Register.holds (place (.node entry children)) targets :=
            Option.isSome_iff_exists.2 ⟨target, hget⟩
          exact .inr ⟨_, Rose.self_mem_walk _, hheld, hbelow⟩
      | none =>
          obtain ⟨child, hchild, hmem⟩ := Rose.mem_walkForest.1 hbelow
          rcases ih child hchild hmem with hstays | ⟨upper, hupper, hrest⟩
          · rw [collapse_of_none hget]
            exact .inl (Rose.mem_walk_of_mem (List.mem_map_of_mem hchild) hstays)
          · exact .inr ⟨upper, Rose.mem_walk_of_mem hchild hupper, hrest⟩

/-- What was below a node that is collapsed is gone. -/
theorem id_notMem_ids_collapse {upper : Placed} (distinct : (ids root).Nodup)
    (hupper : upper ∈ root.walk) (hheld : Register.holds upper.place targets)
    (hbelow : node ∈ Rose.walkForest upper.children) : node.id ∉ ids (root.collapse targets) := by
  induction root using Rose.induction_on with
  | node entry children ih =>
      have hunder : node ∈ Rose.walkForest children := by
        rcases Rose.mem_walk.1 hupper with rfl | hlower
        · exact hbelow
        · obtain ⟨child, hchild, hmem⟩ := Rose.mem_walkForest.1 hlower
          exact Rose.mem_walkForest.2 ⟨child, hchild, Rose.mem_walk_of_mem_below hbelow hmem⟩
      intro hmem
      obtain ⟨after, hafter, hid⟩ := mem_ids.1 hmem
      rcases Rose.mem_walk.1 hafter with rfl | hafter
      · rw [id_collapse] at hid
        exact Rose.key_notMem_below distinct (Rose.self_mem_walk _)
          (hid ▸ List.mem_map_of_mem hunder)
      cases hget : Register.get? (place (.node entry children)) targets with
      | some target =>
          rw [collapse_of_some hget] at hafter
          cases hafter
      | none =>
          rw [collapse_of_none hget] at hafter
          obtain ⟨_, hmap, hafter⟩ := Rose.mem_walkForest.1 hafter
          obtain ⟨child, hchild, rfl⟩ := List.mem_map.1 hmap
          have hbelowRoot := (List.nodup_cons.1 distinct).2
          rcases Rose.mem_walk.1 hupper with rfl | hlower
          · rw [Register.holds, hget] at hheld
            cases hheld
          · obtain ⟨other, hother, hwithin⟩ := Rose.mem_walkForest.1 hlower
            obtain ⟨before, hbefore, rfl⟩ := mem_walk_collapse hafter
            rw [id_collapse] at hid
            obtain rfl := eq_of_id_eq distinct (Rose.mem_walk_of_mem hchild hbefore)
              (Rose.mem_walk_of_mem_below hbelow hupper) hid
            obtain rfl := Rose.eq_of_mem_walk_of_mem_walk hbelowRoot hchild hother hbefore
              (Rose.mem_walk_of_mem_below hbelow hwithin)
            have hchildIds := distinct.sublist
              ((Rose.walk_sublist_of_mem_walk (Rose.mem_walk_of_mem_children hchild)).map id)
            exact ih child hchild hchildIds hwithin (mem_ids.2 ⟨_, hafter, id_collapse _ _⟩)

theorem id_mem_descendantIds_or_below (hopen : Register.get? node.place targets = none)
    (h : other ∈ Rose.walkForest node.children) :
    other.id ∈ (node.collapse targets).descendantIds ∨
      ∃ upper ∈ node.walk, Register.holds (place upper) targets ∧
        other ∈ Rose.walkForest upper.children := by
  obtain ⟨child, hchild, hmem⟩ := Rose.mem_walkForest.1 h
  rcases collapse_mem_walk_or_below targets hmem with hstays | ⟨upper, hupper, hrest⟩
  · refine .inl (List.mem_map.2 ⟨_, ?_, id_collapse targets other⟩)
    rw [collapse_of_none hopen]
    exact Rose.mem_walkForest.2 ⟨_, List.mem_map_of_mem hchild, hstays⟩
  · refine .inr ⟨upper, ?_, hrest⟩
    rw [← Rose.node_value_children node]
    exact Rose.mem_walk_of_mem hchild hupper

theorem walk_collapse_sublist {β : Type} {f : Placed → β}
    (hf : ∀ node : Placed, f (node.collapse targets) = f node) (root : Placed) :
    ((root.collapse targets).walk.map f).Sublist (root.walk.map f) := by
  induction root using Rose.induction_on with
  | node entry children ih =>
      rw [Rose.walk_node, List.map_cons, ← hf (.node entry children)]
      cases hget : Register.get? (place (.node entry children)) targets with
      | some target =>
          rw [collapse_of_some hget, Rose.walk_node, List.map_cons]
          exact (List.nil_sublist _).cons_cons _
      | none =>
          rw [collapse_of_none hget, Rose.walk_node, List.map_cons, Rose.children_node]
          apply List.Sublist.cons_cons _
          clear hget
          induction children with
          | nil => exact .refl _
          | cons child children ihc =>
              rw [List.map_cons, Rose.walkForest, Rose.walkForest, List.map_append, List.map_append]
              exact (ih child (by simp)).append (ihc fun node hnode => ih node (by simp [hnode]))

theorem ids_collapse_sublist (targets : Register Nat Int) (root : Placed) :
    (ids (root.collapse targets)).Sublist (ids root) :=
  walk_collapse_sublist (id_collapse targets) root

theorem bare_collapse (h : Bare root) : Bare (root.collapse targets) := by
  intro node hnode href
  obtain ⟨before, hbefore, rfl⟩ := mem_walk_collapse hnode
  cases hget : Register.get? (place before) targets with
  | some target =>
      rw [collapse_of_some hget]
      rfl
  | none =>
      rw [collapse_of_none hget] at href ⊢
      rw [Rose.children_node, h before hbefore href]
      rfl

theorem wrapsOne_collapse (h : root.forget.WrapsOne)
    (hkinds : ∀ node ∈ root.walk, Register.holds (place node) targets → (beat node).kind ≠ .choice) :
    (root.collapse targets).forget.WrapsOne := by
  intro node hnode hkind
  obtain ⟨origin, horigin, rfl⟩ := exists_of_mem_walk_forget hnode
  obtain ⟨before, hbefore, rfl⟩ := mem_walk_collapse horigin
  cases hget : Register.get? (place before) targets with
  | some target =>
      have hholds : Register.holds (place before) targets := Option.isSome_iff_exists.2 ⟨_, hget⟩
      rw [collapse_of_some hget] at hkind
      exact absurd hkind (hkinds before hbefore hholds)
  | none =>
      rw [collapse_of_none hget] at hkind ⊢
      have hwraps := h (forget before) (forget_mem_walk hbefore) (by simpa [forget] using hkind)
      simpa [forget] using hwraps

theorem sound_collapse {bound : Int} (h : root.forget.Sound bound) :
    (root.collapse targets).forget.Sound bound where
  distinct := by
    rw [ids_forget]
    have := h.distinct
    rw [ids_forget] at this
    exact this.sublist (ids_collapse_sublist targets root)
  below id hid := by
    apply h.below id
    rw [ids_forget] at hid ⊢
    exact (ids_collapse_sublist targets root).subset hid
  bare := bare_forget.2 (bare_collapse (bare_forget.1 h.bare))

end Placed

end StoryAtlas
