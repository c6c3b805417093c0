import Mathlib.Data.List.Flatten
import Mathlib.Data.List.Perm.Basic
import StoryAtlas.Proofs.Rose.Walk

/-!
# Walking a tree level by level

The levels of a forest are its roots and then the levels of their children, so a proof about them is
by recursion on how many nodes are left. The two orders of a tree list the same subtrees, and in
the order of the levels nothing comes after what lies below it.
-/

namespace StoryAtlas.Rose

variable {α : Type}

theorem joinLevels_nil {γ : Type} (levels : List (List γ)) : joinLevels levels [] = levels := by
  cases levels <;> rfl

theorem joinLevels_assoc {γ : Type} (first second third : List (List γ)) :
    joinLevels (joinLevels first second) third = joinLevels first (joinLevels second third) := by
  induction first generalizing second third with
  | nil => rfl
  | cons level levels ih =>
      cases second with
      | nil => rfl
      | cons other others =>
          cases third with
          | nil => rw [joinLevels_nil, joinLevels_nil]
          | cons last lasts => simp only [joinLevels, List.append_assoc, ih]

theorem flatten_joinLevels_perm {γ : Type} (first second : List (List γ)) :
    (joinLevels first second).flatten.Perm (first.flatten ++ second.flatten) := by
  induction first generalizing second with
  | nil => exact .refl _
  | cons level levels ih =>
      cases second with
      | nil => simp [joinLevels_nil]
      | cons other others =>
          simp only [joinLevels, List.flatten_cons, List.append_assoc]
          apply List.Perm.append_left _
          apply ((ih others).append_left _).trans
          exact List.perm_append_comm_assoc _ _ _

theorem levelsForest_append (ts us : List (Rose α)) :
    levelsForest (ts ++ us) = joinLevels (levelsForest ts) (levelsForest us) := by
  induction ts with
  | nil => rfl
  | cons t ts ih => rw [List.cons_append, levelsForest, levelsForest, ih, joinLevels_assoc]

theorem length_joinLevels {γ : Type} (first second : List (List γ)) :
    (joinLevels first second).length = max first.length second.length := by
  induction first generalizing second with
  | nil => simp [joinLevels]
  | cons level levels ih =>
      cases second with
      | nil => simp [joinLevels]
      | cons other others => simp [joinLevels, ih, Nat.succ_max_succ]

theorem length_levelsForest_append (ts us : List (Rose α)) :
    (levelsForest (ts ++ us)).length = max (levelsForest ts).length (levelsForest us).length := by
  rw [levelsForest_append, length_joinLevels]

theorem length_levelsForest_le {ts : List (Rose α)} {bound : Nat} :
    (levelsForest ts).length ≤ bound ↔ ∀ t ∈ ts, t.levels.length ≤ bound := by
  induction ts with
  | nil => simp [levelsForest]
  | cons t ts ih =>
      rw [levelsForest, length_joinLevels, Nat.max_le, ih, List.forall_mem_cons]

theorem levels_eq (t : Rose α) : levels t = [t] :: levelsForest t.children := by
  cases t with
  | node a cs => rfl

/-- The first level of a forest are its roots, and the rest are the levels of their children. -/
theorem levelsForest_cons (t : Rose α) (ts : List (Rose α)) :
    levelsForest (t :: ts) = (t :: ts) :: levelsForest ((t :: ts).flatMap children) := by
  induction ts generalizing t with
  | nil => rw [levelsForest, levelsForest, joinLevels_nil, levels_eq, List.flatMap_singleton]
  | cons u us ih =>
      rw [levelsForest, ih u, levels_eq]
      simp only [joinLevels, List.singleton_append]
      rw [List.flatMap_cons (x := t), levelsForest_append]

theorem flatten_levelsForest_perm (ts : List (Rose α))
    (h : ∀ t ∈ ts, t.levels.flatten.Perm t.walk) :
    (levelsForest ts).flatten.Perm (walkForest ts) := by
  induction ts with
  | nil => exact .refl _
  | cons t ts ih =>
      rw [levelsForest, walkForest]
      apply (flatten_joinLevels_perm _ _).trans
      exact (h t (by simp)).append (ih fun u hu => h u (by simp [hu]))

theorem breadth_perm_walk (t : Rose α) : t.breadth.Perm t.walk := by
  induction t using induction_on with
  | node a cs ih =>
      rw [breadth, levels_eq, children_node, List.flatten_cons, List.singleton_append, walk_node]
      exact (flatten_levelsForest_perm cs ih).cons _

theorem mem_breadth {s t : Rose α} : s ∈ t.breadth ↔ s ∈ t.walk := (breadth_perm_walk t).mem_iff

theorem mem_breadthWithDepth {s t : Rose α} {depth : Nat} (h : (s, depth) ∈ t.breadthWithDepth) :
    s ∈ t.walk := by
  obtain ⟨level, hlevel, hs⟩ := List.mem_flatten.1 h
  obtain ⟨⟨nodes, step⟩, hstep, rfl⟩ := List.mem_map.1 hlevel
  obtain ⟨node, hnode, heq⟩ := List.mem_map.1 hs
  rw [Prod.mk.injEq] at heq
  rw [← heq.1, ← mem_breadth]
  exact List.mem_flatten.2 ⟨nodes, List.fst_mem_of_mem_zipIdx hstep, hnode⟩

/-! ### Nothing comes after what lies below it -/

section Keyed

variable {κ : Type} {key : Rose α → κ}

theorem walkForest_perm_append (ts : List (Rose α)) :
    (walkForest ts).Perm (ts ++ walkForest (ts.flatMap children)) := by
  induction ts with
  | nil => exact .refl _
  | cons t ts ih =>
      rw [walkForest, List.flatMap_cons, walkForest_append]
      obtain ⟨a, cs⟩ := t
      rw [walk_node, List.cons_append, List.cons_append]
      apply List.Perm.cons _
      apply (ih.append_left _).trans
      exact List.perm_append_comm_assoc _ _ _

theorem key_notMem_below {s t : Rose α} (hkeys : (t.walk.map key).Nodup) (hs : s ∈ t.walk) :
    key s ∉ (walkForest s.children).map key := by
  induction t using induction_on with
  | node a cs ih =>
      rcases mem_walk.1 hs with rfl | hbelow
      · exact (List.nodup_cons.1 hkeys).1
      · obtain ⟨c, hc, hsc⟩ := mem_walkForest.1 hbelow
        refine ih c hc ?_ hsc
        have hrest := (List.nodup_cons.1 hkeys).2
        rw [walkForest_eq_flatMap, List.map_flatMap] at hrest
        exact (List.nodup_flatMap.1 hrest).1 c hc

theorem notMem_below_of_nodup {ts : List (Rose α)} (hkeys : ((walkForest ts).map key).Nodup)
    {s t : Rose α} (hs : s ∈ ts) (ht : t ∈ walkForest ts) :
    key s ∉ (walkForest t.children).map key := by
  have hperm := (walkForest_perm_append ts).map key
  rw [List.map_append] at hperm
  have hdisjoint := (List.nodup_append.1 (hperm.nodup_iff.1 hkeys)).2.2
  intro hmem
  refine hdisjoint _ (List.mem_map_of_mem hs) _ ?_ rfl
  obtain ⟨below, hbelow, hkey⟩ := List.mem_map.1 hmem
  rw [← hkey]
  apply List.mem_map_of_mem
  obtain ⟨root, hroot, hwalk⟩ := mem_walkForest.1 ht
  have hunder : ∀ {u : Rose α}, u ∈ walkForest root.children →
      u ∈ walkForest (ts.flatMap children) := by
    intro u hu
    obtain ⟨c, hc, huc⟩ := mem_walkForest.1 hu
    exact mem_walkForest.2 ⟨c, List.mem_flatMap.2 ⟨root, hroot, hc⟩, huc⟩
  rcases mem_walk.1 hwalk with rfl | hwalk
  · exact hunder hbelow
  · obtain ⟨c, hc, htc⟩ := mem_walkForest.1 hwalk
    exact hunder (mem_walkForest.2 ⟨c, hc, mem_walk_of_mem_below hbelow htc⟩)

theorem pairwise_levelsForest (ts : List (Rose α)) (hkeys : ((walkForest ts).map key).Nodup) :
    (levelsForest ts).flatten.Pairwise
      fun s t => key s ∉ (walkForest t.children).map key := by
  induction hsize : (walkForest ts).length using Nat.strongRecOn generalizing ts with
  | ind size ih =>
      cases ts with
      | nil => exact .nil
      | cons t ts =>
          have hperm := walkForest_perm_append (t :: ts)
          have hlater : ((walkForest ((t :: ts).flatMap children)).map key).Nodup := by
            have hnodup := (hperm.map key).nodup_iff.1 hkeys
            rw [List.map_append] at hnodup
            exact (List.nodup_append.1 hnodup).2.1
          have hless : (walkForest ((t :: ts).flatMap children)).length < size := by
            have hlength := hperm.length_eq
            rw [hsize, List.length_append, List.length_cons] at hlength
            omega
          rw [levelsForest_cons, List.flatten_cons, List.pairwise_append]
          refine ⟨?_, ih _ hless _ hlater rfl, ?_⟩
          · apply List.pairwise_of_forall_mem_list
            intro s hs u hu
            exact notMem_below_of_nodup hkeys hs (mem_walkForest.2 ⟨u, hu, self_mem_walk u⟩)
          · intro s hs u hu
            refine notMem_below_of_nodup hkeys hs (hperm.mem_iff.2 (List.mem_append_right _ ?_))
            exact (flatten_levelsForest_perm _ fun t _ => breadth_perm_walk t).mem_iff.1 hu

/-- Level by level, no node comes after one that lies below it. -/
theorem pairwise_breadth {t : Rose α} (hkeys : (t.walk.map key).Nodup) :
    t.breadth.Pairwise fun s u => key s ∉ (walkForest u.children).map key := by
  have hforest : walkForest [t] = t.walk := by simp [walkForest]
  have hlevels : levelsForest [t] = t.levels := by rw [levelsForest, levelsForest, joinLevels_nil]
  rw [breadth, ← hlevels]
  exact pairwise_levelsForest [t] (hforest ▸ hkeys)

end Keyed

/-! ### Depths -/

theorem mem_breadthWithDepth_iff {s t : Rose α} {depth : Nat} :
    (s, depth) ∈ t.breadthWithDepth ↔ ∃ level, t.levels[depth]? = some level ∧ s ∈ level := by
  constructor
  · intro h
    obtain ⟨_, hlevel, hs⟩ := List.mem_flatten.1 h
    obtain ⟨⟨level, number⟩, hstep, rfl⟩ := List.mem_map.1 hlevel
    obtain ⟨node, hnode, hpair⟩ := List.mem_map.1 hs
    cases hpair
    exact ⟨level, List.mem_zipIdx_iff_getElem?.1 hstep, hnode⟩
  · rintro ⟨level, hlevel, hs⟩
    have hstep : (level, depth) ∈ t.levels.zipIdx := List.mem_zipIdx_iff_getElem?.2 hlevel
    exact List.mem_flatten.2 ⟨_, List.mem_map_of_mem hstep, List.mem_map_of_mem hs⟩

theorem getElem?_levelsForest_succ (ts : List (Rose α)) (depth : Nat) :
    (levelsForest ts)[depth + 1]? = (levelsForest (ts.flatMap children))[depth]? := by
  cases ts with
  | nil => rfl
  | cons t ts => rw [levelsForest_cons, List.getElem?_cons_succ]

theorem child_mem_levelsForest {ts : List (Rose α)} {level : List (Rose α)} {depth : Nat} {s c : Rose α}
    (hlevel : (levelsForest ts)[depth]? = some level) (hs : s ∈ level) (hc : c ∈ s.children) :
    ∃ next, (levelsForest ts)[depth + 1]? = some next ∧ c ∈ next := by
  induction depth generalizing ts with
  | zero =>
      cases ts with
      | nil => cases hlevel
      | cons t ts =>
          rw [levelsForest_cons, List.getElem?_cons_zero] at hlevel
          rw [getElem?_levelsForest_succ]
          have hmem : c ∈ (t :: ts).flatMap children :=
            List.mem_flatMap.2 ⟨s, Option.some.inj hlevel ▸ hs, hc⟩
          obtain ⟨first, rest, hsplit⟩ := List.exists_cons_of_ne_nil (List.ne_nil_of_mem hmem)
          rw [hsplit] at hmem ⊢
          exact ⟨_, by rw [levelsForest_cons, List.getElem?_cons_zero], hmem⟩
  | succ depth ih =>
      rw [getElem?_levelsForest_succ] at hlevel ⊢
      exact ih hlevel

theorem exists_level_of_mem_below {ts : List (Rose α)} {level : List (Rose α)} {depth : Nat}
    {s u : Rose α} (hlevel : (levelsForest ts)[depth]? = some level) (hs : s ∈ level)
    (hu : u ∈ walkForest s.children) :
    ∃ later below, depth < later ∧ (levelsForest ts)[later]? = some below ∧ u ∈ below := by
  induction s using induction_on generalizing depth level with
  | node a cs ih =>
      obtain ⟨c, hc, huc⟩ := mem_walkForest.1 hu
      obtain ⟨next, hnext, hmem⟩ := child_mem_levelsForest hlevel hs hc
      rcases mem_walk.1 huc with rfl | hbelow
      · exact ⟨depth + 1, next, Nat.lt_succ_self depth, hnext, hmem⟩
      · obtain ⟨later, below, hlater, hrest⟩ := ih c hc hnext hmem hbelow
        exact ⟨later, below, by omega, hrest⟩

theorem levelsForest_singleton (t : Rose α) : levelsForest [t] = t.levels := by
  rw [levelsForest, levelsForest, joinLevels_nil]

theorem eq_of_mem_flatten {γ : Type} {levels : List (List γ)} (distinct : levels.flatten.Nodup)
    {first second : List γ} {i j : Nat} (hfirst : levels[i]? = some first)
    (hsecond : levels[j]? = some second) {value : γ} (hi : value ∈ first) (hj : value ∈ second) :
    i = j := by
  obtain ⟨-, hdisjoint⟩ := List.nodup_flatten.1 distinct
  by_contra hne
  obtain ⟨hi', rfl⟩ := List.getElem?_eq_some_iff.1 hfirst
  obtain ⟨hj', rfl⟩ := List.getElem?_eq_some_iff.1 hsecond
  rcases Nat.lt_or_gt_of_ne hne with hlt | hlt
  · exact List.pairwise_iff_getElem.1 hdisjoint i j hi' hj' hlt hi hj
  · exact List.pairwise_iff_getElem.1 hdisjoint j i hj' hi' hlt hj hi

theorem depth_lt_of_mem_below {t s u : Rose α} {depth other : Nat} (distinct : t.walk.Nodup)
    (hs : (s, depth) ∈ t.breadthWithDepth) (hu : (u, other) ∈ t.breadthWithDepth)
    (hbelow : u ∈ walkForest s.children) : depth < other := by
  have hnodup : t.levels.flatten.Nodup := (breadth_perm_walk t).nodup_iff.2 distinct
  obtain ⟨level, hlevel, hmem⟩ := mem_breadthWithDepth_iff.1 hs
  obtain ⟨level', hlevel', hmem'⟩ := mem_breadthWithDepth_iff.1 hu
  rw [← levelsForest_singleton] at hlevel hlevel' hnodup
  obtain ⟨later, below, hlater, hbelow', hub⟩ := exists_level_of_mem_below hlevel hmem hbelow
  rw [eq_of_mem_flatten hnodup hlevel' hbelow' hmem' hub]
  exact hlater

theorem map_fst_breadthWithDepth (t : Rose α) : t.breadthWithDepth.map Prod.fst = t.breadth := by
  have hlevel : ∀ step : List (Rose α) × Nat,
      (step.1.map fun s => (s, step.2)).map Prod.fst = step.1 := by
    intro step
    rw [List.map_map]
    exact List.map_id step.1
  rw [breadthWithDepth, List.map_flatten, List.map_map, breadth]
  congr 1
  exact (List.map_congr_left fun step _ => hlevel step).trans (List.zipIdx_map_fst 0 _)

theorem pairwise_depth (t : Rose α) : t.breadthWithDepth.Pairwise fun s u => s.2 ≤ u.2 := by
  unfold breadthWithDepth
  suffices h : ∀ (levels : List (List (Rose α))) (start : Nat),
      (((levels.zipIdx start).map fun step => step.1.map fun s => (s, step.2)).flatten).Pairwise
        (fun s u => s.2 ≤ u.2) ∧
      ∀ found ∈ ((levels.zipIdx start).map fun step => step.1.map fun s => (s, step.2)).flatten,
        start ≤ found.2 from (h _ _).1
  intro levels
  induction levels with
  | nil => exact fun start => ⟨.nil, nofun⟩
  | cons level levels ih =>
      intro start
      obtain ⟨hrest, hlater⟩ := ih (start + 1)
      have hfirst : ∀ found ∈ level.map fun s => (s, start), found.2 = start := by
        intro found hfound
        obtain ⟨s, -, rfl⟩ := List.mem_map.1 hfound
        rfl
      rw [List.zipIdx_cons, List.map_cons, List.flatten_cons]
      refine ⟨List.pairwise_append.2 ⟨?_, hrest, ?_⟩, fun found hfound => ?_⟩
      · exact List.pairwise_of_forall_mem_list fun s hs u hu =>
          Nat.le_of_eq ((hfirst s hs).trans (hfirst u hu).symm)
      · intro s hs u hu
        rw [hfirst s hs]
        have := hlater u hu
        omega
      · rcases List.mem_append.1 hfound with hmem | hmem
        · exact Nat.le_of_eq (hfirst found hmem).symm
        · have := hlater found hmem
          omega

end StoryAtlas.Rose
