import Mathlib.Data.List.Nodup
import Mathlib.Data.List.Pairwise
import Mathlib.Data.List.Perm.Basic
import StoryAtlas.Rose.Basic

/-!
# Walking a rose tree

Every function on trees comes with a companion on forests, and a proof about it would be by mutual
recursion too. The companions are maps and concatenations over the children, so once that is said,
`induction_on` is all the induction there is: a property that passes from the children to their
parent holds of every tree.

The walk is the list of subtrees. What holds at every node of a tree is stated over the walk, and
`everywhere_node` moves such a statement from a tree to its children and back.
-/

namespace StoryAtlas.Rose

variable {α β : Type}

@[elab_as_elim]
theorem induction_on {motive : Rose α → Prop}
    (node : ∀ a cs, (∀ c ∈ cs, motive c) → motive (.node a cs)) (t : Rose α) : motive t :=
  Rose.rec (motive_1 := motive) (motive_2 := fun cs => ∀ c ∈ cs, motive c) node
    (by simp) (fun _ _ head tail => by simpa using ⟨head, tail⟩) t

/-! ### The companions on forests -/

theorem walkForest_eq_flatMap (ts : List (Rose α)) : walkForest ts = ts.flatMap walk := by
  induction ts with
  | nil => rfl
  | cons t ts ih => rw [walkForest, ih, List.flatMap_cons]

theorem walkForest_append (ts us : List (Rose α)) :
    walkForest (ts ++ us) = walkForest ts ++ walkForest us := by
  simp only [walkForest_eq_flatMap, List.flatMap_append]

theorem walkForest_singleton (t : Rose α) : walkForest [t] = walk t := by
  rw [walkForest_eq_flatMap, List.flatMap_singleton]

theorem mapForest_eq_map (f : α → β) (ts : List (Rose α)) : mapForest f ts = ts.map (map f) := by
  induction ts with
  | nil => rfl
  | cons t ts ih => rw [mapForest, ih, List.map_cons]

theorem annotateForest_eq_map (f : Rose α → β) (ts : List (Rose α)) :
    annotateForest f ts = ts.map (annotate f) := by
  induction ts with
  | nil => rfl
  | cons t ts ih => rw [annotateForest, ih, List.map_cons]

theorem editForest_eq_map (test : α → Bool) (edit : Rose α → Rose α) (ts : List (Rose α)) :
    editForest test edit ts = ts.map (editWhere test edit) := by
  induction ts with
  | nil => rfl
  | cons t ts ih => rw [editForest, ih, List.map_cons]

/-! ### The walk -/

theorem walk_node (a : α) (cs : List (Rose α)) :
    walk (.node a cs) = .node a cs :: walkForest cs := rfl

theorem mem_walkForest {s : Rose α} {ts : List (Rose α)} :
    s ∈ walkForest ts ↔ ∃ t ∈ ts, s ∈ walk t := by
  rw [walkForest_eq_flatMap, List.mem_flatMap]

theorem mem_walk {s t : Rose α} : s ∈ walk t ↔ s = t ∨ s ∈ walkForest t.children := by
  cases t with
  | node a cs => rw [walk_node, List.mem_cons, children_node]

theorem self_mem_walk (t : Rose α) : t ∈ walk t := mem_walk.2 (.inl rfl)

theorem mem_walk_of_mem_children {c t : Rose α} (h : c ∈ t.children) : c ∈ walk t :=
  mem_walk.2 (.inr (mem_walkForest.2 ⟨c, h, self_mem_walk c⟩))

theorem mem_walk_trans {s t u : Rose α} (hst : s ∈ walk t) (htu : t ∈ walk u) : s ∈ walk u := by
  induction u using induction_on with
  | node a cs ih =>
      rcases mem_walk.1 htu with rfl | hbelow
      · exact hst
      · obtain ⟨c, hc, htc⟩ := mem_walkForest.1 hbelow
        exact mem_walk.2 (.inr (mem_walkForest.2 ⟨c, hc, ih c hc htc⟩))

theorem mem_walk_of_mem {a : α} {s c : Rose α} {cs : List (Rose α)} (hc : c ∈ cs)
    (hs : s ∈ walk c) : s ∈ walk (.node a cs) :=
  mem_walk.2 (.inr (mem_walkForest.2 ⟨c, hc, hs⟩))

theorem children_subset_walkForest (t : Rose α) : t.children ⊆ walkForest t.children :=
  fun c hc => mem_walkForest.2 ⟨c, hc, self_mem_walk c⟩

theorem mem_walk_of_mem_below {s t u : Rose α} (hs : s ∈ walkForest t.children)
    (ht : t ∈ walk u) : s ∈ walk u :=
  mem_walk_trans (mem_walk.2 (.inr hs)) ht

theorem walk_sublist_of_mem_walk {s t : Rose α} (h : s ∈ walk t) : (walk s).Sublist (walk t) := by
  induction t using induction_on with
  | node a cs ih =>
      rcases mem_walk.1 h with rfl | hbelow
      · exact .refl _
      · obtain ⟨c, hc, hs⟩ := mem_walkForest.1 hbelow
        refine ((ih c hc hs).trans ?_).cons _
        rw [walkForest_eq_flatMap, List.flatMap_def]
        exact List.sublist_flatten_of_mem (List.mem_map_of_mem hc)

theorem sublist_walkForest (ts : List (Rose α)) : ts.Sublist (walkForest ts) := by
  induction ts with
  | nil => exact .refl _
  | cons t ts ih =>
      obtain ⟨a, cs⟩ := t
      rw [walkForest, walk_node, List.cons_append]
      exact (ih.trans (List.sublist_append_right _ _)).cons_cons _

theorem nodup_children {κ : Type} {key : Rose α → κ} {s t : Rose α}
    (hkeys : ((walk t).map key).Nodup) (hs : s ∈ walk t) : (s.children.map key).Nodup := by
  have hwalk := hkeys.sublist ((walk_sublist_of_mem_walk hs).map key)
  obtain ⟨a, cs⟩ := s
  exact (List.nodup_cons.1 hwalk).2.sublist ((sublist_walkForest cs).map key)

/-- Apart from the root, the nodes of a tree are the children of its nodes. -/
theorem walk_perm_cons_children (t : Rose α) : (walk t).Perm (t :: (walk t).flatMap children) := by
  induction t using induction_on with
  | node a cs ih =>
      rw [walk_node, List.flatMap_cons, children_node]
      apply List.Perm.cons _
      induction cs with
      | nil => exact .refl _
      | cons c cs ihcs =>
          have hfirst := ih c (by simp)
          have hrest := ihcs fun d hd => ih d (by simp [hd])
          rw [walkForest, List.flatMap_append, List.cons_append]
          apply (hfirst.append hrest).trans
          rw [List.cons_append]
          exact (List.perm_append_comm_assoc _ _ _).cons _

theorem exists_parent_of_mem_below {c t : Rose α} (h : c ∈ walkForest t.children) :
    ∃ s ∈ walk t, c ∈ s.children := by
  obtain ⟨a, cs⟩ := t
  have hperm := (List.perm_cons _).1 (walk_perm_cons_children (.node a cs))
  exact List.mem_flatMap.1 (hperm.mem_iff.1 h)

/-- Where keys are distinct, a node is the child of one node only. -/
theorem parent_unique {κ : Type} {key : Rose α → κ} {s t u c d : Rose α}
    (hkeys : ((walk u).map key).Nodup) (hs : s ∈ walk u) (ht : t ∈ walk u)
    (hc : c ∈ s.children) (hd : d ∈ t.children) (h : key c = key d) : s = t := by
  have hperm := ((walk_perm_cons_children u).map key).nodup_iff.1 hkeys
  rw [List.map_cons, List.nodup_cons, List.map_flatMap, List.nodup_flatMap] at hperm
  by_contra hne
  have hsymm : Std.Symm (Function.onFun List.Disjoint fun v : Rose α => v.children.map key) :=
    ⟨fun _ _ hdisjoint => List.disjoint_symm hdisjoint⟩
  have hdisjoint := hperm.2.2.forall hs ht hne
  apply hdisjoint (List.mem_map_of_mem hc)
  rw [h]
  exact List.mem_map_of_mem hd

theorem eq_of_mem_walk_of_mem_walk {κ : Type} {key : Rose α → κ} {s t u : Rose α}
    {ts : List (Rose α)} (hkeys : ((walkForest ts).map key).Nodup) (ht : t ∈ ts) (hu : u ∈ ts)
    (hst : s ∈ walk t) (hsu : s ∈ walk u) : t = u := by
  rw [walkForest_eq_flatMap, List.map_flatMap, List.nodup_flatMap] at hkeys
  by_contra hne
  have hsymm : Std.Symm (Function.onFun List.Disjoint fun v : Rose α => v.walk.map key) :=
    ⟨fun _ _ hdisjoint => List.disjoint_symm hdisjoint⟩
  exact hkeys.2.forall ht hu hne (List.mem_map_of_mem hst) (List.mem_map_of_mem hsu)

/-- The two ways through a tree meet the same nodes. -/
theorem climb_perm_walk (t : Rose α) : (climb t).Perm (walk t) := by
  induction t using induction_on with
  | node a cs ih =>
      rw [climb, walk_node]
      refine (List.perm_append_singleton _ _).trans (List.Perm.cons _ ?_)
      induction cs with
      | nil => exact .refl _
      | cons c cs ihcs =>
          rw [climbForest, walkForest]
          exact (ih c (by simp)).append (ihcs fun d hd => ih d (by simp [hd]))

theorem length_walkForest (ts : List (Rose α)) (h : ∀ t ∈ ts, (walk t).length = size t) :
    (walkForest ts).length = sizeForest ts := by
  induction ts with
  | nil => rfl
  | cons t ts ih =>
      rw [walkForest, sizeForest, List.length_append, h t (by simp),
        ih fun u hu => h u (by simp [hu])]

theorem length_walk (t : Rose α) : (walk t).length = size t := by
  induction t using induction_on with
  | node a cs ih => rw [walk_node, List.length_cons, length_walkForest cs ih, size]

theorem size_le_of_mem {c : Rose α} {cs : List (Rose α)} (h : c ∈ cs) :
    size c ≤ sizeForest cs := by
  induction cs with
  | nil => simp at h
  | cons t ts ih =>
      rw [sizeForest]
      rcases List.mem_cons.1 h with rfl | h
      · omega
      · have := ih h
        omega

theorem size_eq (t : Rose α) : size t = sizeForest t.children + 1 := by
  cases t with
  | node a cs => rfl

theorem size_lt_of_mem_children {c t : Rose α} (h : c ∈ t.children) : size c < size t := by
  have := size_le_of_mem h
  rw [size_eq t]
  omega

theorem size_le_of_mem_walk {s t : Rose α} (h : s ∈ walk t) : size s ≤ size t := by
  induction t using induction_on with
  | node a cs ih =>
      rcases mem_walk.1 h with rfl | hbelow
      · exact Nat.le_refl _
      · obtain ⟨c, hc, hsc⟩ := mem_walkForest.1 hbelow
        have := ih c hc hsc
        have := size_lt_of_mem_children (t := .node a cs) hc
        omega

theorem size_lt_of_mem_below {s t : Rose α} (h : s ∈ walkForest t.children) : size s < size t := by
  obtain ⟨c, hc, hsc⟩ := mem_walkForest.1 h
  exact Nat.lt_of_le_of_lt (size_le_of_mem_walk hsc) (size_lt_of_mem_children hc)

theorem size_pos (t : Rose α) : 0 < size t := by
  rw [size_eq]
  omega

/-! ### What holds at every node -/

/-- A property of a value and the children it has, at every node. -/
def Everywhere (P : α → List (Rose α) → Prop) (t : Rose α) : Prop :=
  ∀ s ∈ t.walk, P s.value s.children

theorem everywhere_node {P : α → List (Rose α) → Prop} {a : α} {cs : List (Rose α)} :
    Everywhere P (.node a cs) ↔ P a cs ∧ ∀ c ∈ cs, Everywhere P c := by
  simp only [Everywhere, walk_node, List.forall_mem_cons, value_node, children_node]
  refine and_congr_right fun _ => ⟨fun h c hc s hs => ?_, fun h s hs => ?_⟩
  · exact h s (mem_walkForest.2 ⟨c, hc, hs⟩)
  · obtain ⟨c, hc, hsc⟩ := mem_walkForest.1 hs
    exact h c hc s hsc

theorem Everywhere.of_mem_walk {P : α → List (Rose α) → Prop} {s t : Rose α}
    (h : Everywhere P t) (hs : s ∈ walk t) : Everywhere P s :=
  fun u hu => h u (mem_walk_trans hu hs)

/-! ### Maps -/

@[simp] theorem map_node (f : α → β) (a : α) (cs : List (Rose α)) :
    map f (.node a cs) = .node (f a) (cs.map (map f)) := by
  rw [map, mapForest_eq_map]

@[simp] theorem value_map (f : α → β) (t : Rose α) : (map f t).value = f t.value := by
  cases t with
  | node a cs => rw [map_node, value_node, value_node]

@[simp] theorem children_map (f : α → β) (t : Rose α) :
    (map f t).children = t.children.map (map f) := by
  cases t with
  | node a cs => rw [map_node, children_node, children_node]

theorem map_map {γ : Type} (f : α → β) (g : β → γ) (t : Rose α) :
    map g (map f t) = map (g ∘ f) t := by
  induction t using induction_on with
  | node a cs ih =>
      simp only [map_node, List.map_map, Function.comp_apply, node.injEq, true_and]
      exact List.map_congr_left fun c hc => ih c hc

theorem map_congr {f g : α → β} {t : Rose α} (h : ∀ s ∈ t.walk, f s.value = g s.value) :
    map f t = map g t := by
  induction t using induction_on with
  | node a cs ih =>
      have hroot := h _ (self_mem_walk _)
      simp only [value_node] at hroot
      rw [map_node, map_node, hroot]
      congr 1
      exact List.map_congr_left fun c hc => ih c hc fun s hs => h s (mem_walk_of_mem hc hs)

@[simp] theorem map_id (t : Rose α) : map id t = t := by
  induction t using induction_on with
  | node a cs ih =>
      rw [map_node]
      congr 1
      exact (List.map_congr_left ih).trans (List.map_id cs)

theorem walk_map (f : α → β) (t : Rose α) : (map f t).walk = t.walk.map (map f) := by
  induction t using induction_on with
  | node a cs ih =>
      rw [map_node, walk_node, walk_node, List.map_cons, map_node, walkForest_eq_flatMap,
        walkForest_eq_flatMap, List.flatMap_map, List.map_flatMap]
      congr 1
      exact List.flatMap_congr fun c hc => ih c hc

theorem walk_annotate (f : Rose α → β) (t : Rose α) :
    (annotate f t).walk = t.walk.map (annotate f) := by
  induction t using induction_on with
  | node a cs ih =>
      rw [annotate, annotateForest_eq_map, walk_node, walk_node, List.map_cons, annotate,
        annotateForest_eq_map, walkForest_eq_flatMap, walkForest_eq_flatMap, List.flatMap_map,
        List.map_flatMap]
      congr 1
      exact List.flatMap_congr fun c hc => ih c hc

/-- Where the new values are made of the old ones alone, annotating is mapping. -/
theorem annotate_eq_map {f : Rose α → β} {g : α → β} {t : Rose α}
    (h : ∀ s ∈ t.walk, f s = g s.value) : annotate f t = map g t := by
  induction t using induction_on with
  | node a cs ih =>
      rw [annotate, annotateForest_eq_map, map_node, h _ (self_mem_walk _), value_node]
      congr 1
      exact List.map_congr_left fun c hc => ih c hc fun s hs => h s (mem_walk_of_mem hc hs)

theorem size_map (f : α → β) (t : Rose α) : size (map f t) = size t := by
  rw [← length_walk, ← length_walk, walk_map, List.length_map]

/-! ### Equality -/

section Same

variable [BEq α] [LawfulBEq α]

omit [LawfulBEq α] in
theorem sameForest_iff_of_same {ts us : List (Rose α)}
    (h : ∀ t ∈ ts, ∀ u, same t u = true ↔ t = u) : sameForest ts us = true ↔ ts = us := by
  induction ts generalizing us with
  | nil => cases us <;> simp [sameForest]
  | cons t ts ih =>
      cases us with
      | nil => simp [sameForest]
      | cons u us =>
          rw [sameForest, Bool.and_eq_true, h t (by simp), ih fun v hv => h v (by simp [hv]),
            List.cons.injEq]

theorem same_iff {t u : Rose α} : same t u = true ↔ t = u := by
  induction t using induction_on generalizing u with
  | node a cs ih =>
      obtain ⟨b, ds⟩ := u
      rw [same, Bool.and_eq_true, beq_iff_eq, sameForest_iff_of_same fun c hc _ => ih c hc,
        node.injEq]

theorem sameForest_iff {ts us : List (Rose α)} : sameForest ts us = true ↔ ts = us :=
  sameForest_iff_of_same fun _ _ _ => same_iff

end Same

end StoryAtlas.Rose
