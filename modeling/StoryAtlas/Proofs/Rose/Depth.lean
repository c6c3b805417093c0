import StoryAtlas.Proofs.Rose.Shuffle

/-!
# Depths

A node lies one step deeper than its parent. Changing values and rearranging children leave every
node at its depth, and nodes of one depth are not below one another.
-/

namespace StoryAtlas.Rose

variable {α β : Type}

/-- The node lies so many steps below the root. -/
inductive Lies (root : Rose α) : Nat → Rose α → Prop
  | top : Lies root 0 root
  | child {depth : Nat} {s c : Rose α} (hs : Lies root depth s) (hc : c ∈ s.children) :
    Lies root (depth + 1) c

namespace Lies

variable {t s c : Rose α} {depth other : Nat}

theorem mem_walk (h : Lies t depth s) : s ∈ t.walk := by
  induction h with
  | top => exact self_mem_walk t
  | child _ hc ih => exact mem_walk_trans (mem_walk_of_mem_children hc) ih

theorem of_mem_below (h : Lies t depth s) (hc : c ∈ walkForest s.children) :
    ∃ other, depth < other ∧ Lies t other c := by
  induction s using induction_on generalizing depth with
  | node a cs ih =>
      obtain ⟨d, hd, hcd⟩ := mem_walkForest.1 hc
      have hstep := h.child (show d ∈ (node a cs).children from hd)
      rcases Rose.mem_walk.1 hcd with rfl | hbelow
      · exact ⟨depth + 1, Nat.lt_succ_self depth, hstep⟩
      · obtain ⟨other, hother, hlies⟩ := ih d hd hstep hbelow
        exact ⟨other, Nat.lt_of_succ_lt hother, hlies⟩

/-- What lies deep has little below it. -/
theorem add_size_le (h : Lies t depth s) : depth + s.size ≤ t.size := by
  induction h with
  | top => exact Nat.le_of_eq (Nat.zero_add _)
  | child _ hc ih =>
      have := size_lt_of_mem_children hc
      omega

theorem unique {κ : Type} {key : Rose α → κ} (hkeys : (t.walk.map key).Nodup) (h : Lies t depth s)
    (hother : Lies t other s) : depth = other := by
  induction h generalizing other with
  | top =>
      have := hother.add_size_le
      omega
  | child hs hc ih =>
      cases hother with
      | top =>
          have := (hs.child hc).add_size_le
          omega
      | child hs' hc' =>
          obtain rfl := parent_unique hkeys hs.mem_walk hs'.mem_walk hc hc' rfl
          rw [ih hs']

theorem notMem_below {κ : Type} {key : Rose α → κ} (hkeys : (t.walk.map key).Nodup)
    (h : Lies t depth s) (hc : Lies t depth c) : c ∉ walkForest s.children := by
  intro hbelow
  obtain ⟨other, hother, hlies⟩ := h.of_mem_below hbelow
  rw [hc.unique hkeys hlies] at hother
  exact absurd hother (Nat.lt_irrefl other)

theorem map (f : α → β) (h : Lies t depth s) : Lies (t.map f) depth (s.map f) := by
  induction h with
  | top => exact .top
  | child _ hc ih =>
      refine ih.child ?_
      rw [children_map]
      exact List.mem_map_of_mem hc

theorem exists_of_map {f : α → β} {u : Rose β} (h : Lies (t.map f) depth u) :
    ∃ s, Lies t depth s ∧ s.map f = u := by
  induction h with
  | top => exact ⟨t, .top, rfl⟩
  | child _ hc ih =>
      obtain ⟨s, hs, rfl⟩ := ih
      rw [children_map] at hc
      obtain ⟨c, hcs, rfl⟩ := List.mem_map.1 hc
      exact ⟨c, hs.child hcs, rfl⟩

end Lies

theorem exists_lies_of_mem_walk {t s : Rose α} (h : s ∈ t.walk) : ∃ depth, Lies t depth s := by
  rcases mem_walk.1 h with rfl | hbelow
  · exact ⟨0, .top⟩
  · obtain ⟨depth, -, hlies⟩ := Lies.top.of_mem_below hbelow
    exact ⟨depth, hlies⟩

theorem Shuffled.exists_of_lies {R : α → β → Prop} {t : Rose α} {u v : Rose β} {depth : Nat}
    (h : Shuffled R t u) (hv : Lies u depth v) : ∃ s, Lies t depth s ∧ Shuffled R s v := by
  induction hv with
  | top => exact ⟨t, .top, h⟩
  | child _ hc ih =>
      obtain ⟨s, hs, hsv⟩ := ih
      obtain ⟨c, hcs, hcv⟩ := hsv.exists_of_mem_children hc
      exact ⟨c, hs.child hcs, hcv⟩

end StoryAtlas.Rose
