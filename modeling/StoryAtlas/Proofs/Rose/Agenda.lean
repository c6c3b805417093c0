import StoryAtlas.Proofs.Rose.Depth
import StoryAtlas.Proofs.Rose.Levels
import StoryAtlas.Proofs.Total

/-!
# Visiting with an agenda

A tree can be visited without recursion on its shape, by a loop over what is left to visit. A stack
gives the walk, a queue the levels one after the other, and a loop that goes down level by level the
number of nodes at a depth. What such a loop still yields depends on all that is left, which is a
forest, so each loop is compared with a function on forests.

The depths that the queue hands out are the depths at which the nodes lie, and counting the nodes
depth by depth down to the deepest counts all of them.
-/

namespace StoryAtlas.Rose

variable {α : Type}

/-! ### The loops -/

theorem sizeForest_append (ts us : List (Rose α)) :
    sizeForest (ts ++ us) = sizeForest ts + sizeForest us := by
  induction ts with
  | nil => rw [List.nil_append, sizeForest, Nat.zero_add]
  | cons t ts ih => rw [List.cons_append, sizeForest, sizeForest, ih, Nat.add_assoc]

theorem sizeForest_children (ts : List (Rose α)) :
    sizeForest (ts.flatMap children) + ts.length = sizeForest ts := by
  induction ts with
  | nil => rfl
  | cons t ts ih =>
      rw [List.flatMap_cons, sizeForest_append, List.length_cons, sizeForest, size_eq t]
      omega

/-- Visits the tree on top of the stack and puts its children in its place. -/
def walkFrom : List (Rose α) → List (Rose α)
  | [] => []
  | t :: stack => t :: walkFrom (t.children ++ stack)
termination_by stack => sizeForest stack
decreasing_by
  rw [sizeForest_append, sizeForest, size_eq t]
  omega

/-- Visits the tree at the head of the queue and sends its children to the end. -/
def breadthFrom : List (Rose α) → List (Rose α)
  | [] => []
  | t :: queue => t :: breadthFrom (queue ++ t.children)
termination_by queue => sizeForest queue
decreasing_by
  rw [sizeForest_append, sizeForest, size_eq t]
  omega

/-- As `breadthFrom`, with a depth for every tree, one more for its children. -/
def breadthWithDepthFrom : List (Rose α × Nat) → List (Rose α × Nat)
  | [] => []
  | (t, depth) :: queue =>
    (t, depth) :: breadthWithDepthFrom (queue ++ t.children.map fun c => (c, depth + 1))
termination_by queue => sizeForest (queue.map Prod.fst)
decreasing_by
  rw [List.map_append, List.map_map, List.map_cons, sizeForest_append, sizeForest, size_eq t]
  simp only [Function.comp_def, List.map_id']
  omega

/-- Goes down so many levels, as long as there are nodes, and counts the last one. -/
def widthFrom : Nat → List (Rose α) → Nat
  | 0, level => level.length
  | steps + 1, level =>
    let next := level.flatMap children
    if next.isEmpty then 0 else widthFrom steps next

def width (t : Rose α) (depth : Int) : Nat := widthFrom depth.toNat [t]

def deepest (t : Rose α) : Nat := ((breadthWithDepthFrom [(t, 0)]).map Prod.snd).max?.getD 0

/-! ### The loops against the recursion -/

theorem walkFrom_eq (stack : List (Rose α)) : walkFrom stack = walkForest stack := by
  fun_induction walkFrom stack with
  | case1 => rfl
  | case2 t stack ih =>
      obtain ⟨a, cs⟩ := t
      rw [ih, walkForest_append, walkForest, walk_node, List.cons_append, children_node]

theorem map_fst_breadthWithDepthFrom (queue : List (Rose α × Nat)) :
    (breadthWithDepthFrom queue).map Prod.fst = breadthFrom (queue.map Prod.fst) := by
  fun_induction breadthWithDepthFrom queue with
  | case1 => rw [List.map_nil, breadthFrom]
  | case2 t depth queue ih =>
      rw [List.map_cons, ih, List.map_cons, breadthFrom, List.map_append, List.map_map]
      simp only [Function.comp_def, List.map_id']

/-- While a level is visited, the children of its nodes gather behind it. -/
theorem breadthWithDepthFrom_level (depth : Nat) (level next : List (Rose α)) :
    breadthWithDepthFrom
        ((level.map fun s => (s, depth)) ++ next.map fun s => (s, depth + 1)) =
      (level.map fun s => (s, depth)) ++
        breadthWithDepthFrom ((next ++ level.flatMap children).map fun s => (s, depth + 1)) := by
  induction level generalizing next with
  | nil => rw [List.map_nil, List.nil_append, List.nil_append, List.flatMap_nil, List.append_nil]
  | cons t level ih =>
      have hgather := ih (next ++ t.children)
      rw [List.map_append, ← List.append_assoc] at hgather
      rw [List.map_cons, List.cons_append, breadthWithDepthFrom, hgather, List.flatMap_cons,
        List.append_assoc, List.cons_append]

theorem breadthWithDepthFrom_eq (level : List (Rose α)) (depth : Nat) :
    breadthWithDepthFrom (level.map fun s => (s, depth)) =
      (((levelsForest level).zipIdx depth).map fun (level, depth) =>
        level.map fun s => (s, depth)).flatten := by
  induction hsize : sizeForest level using Nat.strongRecOn generalizing level depth with
  | ind size ih =>
      cases level with
      | nil => rw [List.map_nil, breadthWithDepthFrom]; rfl
      | cons t level =>
          have hless : sizeForest ((t :: level).flatMap children) < size := by
            rw [← hsize, ← sizeForest_children (t :: level), List.length_cons]
            omega
          have hlevel := breadthWithDepthFrom_level depth (t :: level) []
          rw [List.map_nil, List.append_nil, List.nil_append] at hlevel
          rw [hlevel, ih _ hless _ (depth + 1) rfl, levelsForest_cons, List.zipIdx_cons]
          rfl

theorem breadthWithDepthFrom_root (t : Rose α) :
    breadthWithDepthFrom [(t, 0)] = t.breadthWithDepth := by
  rw [breadthWithDepth, ← levelsForest_singleton]
  exact breadthWithDepthFrom_eq [t] 0

theorem breadthFrom_root (t : Rose α) : breadthFrom [t] = t.breadth := by
  rw [← map_fst_breadthWithDepth, ← breadthWithDepthFrom_root, map_fst_breadthWithDepthFrom,
    List.map_singleton]

theorem walkFrom_root (t : Rose α) : walkFrom [t] = t.walk := by
  rw [walkFrom_eq, walkForest_singleton]

theorem widthFrom_eq (steps : Nat) (level : List (Rose α)) :
    widthFrom steps level = ((levelsForest level)[steps]?.getD []).length := by
  induction steps generalizing level with
  | zero =>
      cases level with
      | nil => rfl
      | cons t level => rw [widthFrom, levelsForest_cons, List.getElem?_cons_zero, Option.getD_some]
  | succ steps ih =>
      rw [widthFrom, getElem?_levelsForest_succ]
      split
      · next hempty => rw [List.isEmpty_iff.1 hempty]; rfl
      · exact ih _

/-- A negative depth takes no step. -/
theorem width_eq (t : Rose α) (depth : Int) : t.width depth = t.countAtDepth depth.toNat := by
  rw [width, widthFrom_eq, levelsForest_singleton, countAtDepth]

/-! ### Depths -/

theorem lies_of_mem_level {t s : Rose α} {ts level : List (Rose α)} {start depth : Nat}
    (hroots : ∀ root ∈ ts, Lies t start root) (hlevel : (levelsForest ts)[depth]? = some level)
    (hs : s ∈ level) : Lies t (start + depth) s := by
  induction depth generalizing ts start with
  | zero =>
      cases ts with
      | nil => cases hlevel
      | cons root ts =>
          rw [levelsForest_cons, List.getElem?_cons_zero, Option.some.injEq] at hlevel
          exact hroots s (hlevel ▸ hs)
  | succ depth ih =>
      rw [getElem?_levelsForest_succ] at hlevel
      rw [Nat.add_comm depth, ← Nat.add_assoc]
      refine ih (fun child hchild => ?_) hlevel
      obtain ⟨root, hroot, hmem⟩ := List.mem_flatMap.1 hchild
      exact (hroots root hroot).child hmem

theorem mem_breadthWithDepth_iff_lies {t s : Rose α} {depth : Nat} :
    (s, depth) ∈ t.breadthWithDepth ↔ Lies t depth s := by
  rw [mem_breadthWithDepth_iff, ← levelsForest_singleton]
  constructor
  · rintro ⟨level, hlevel, hs⟩
    rw [← Nat.zero_add depth]
    exact lies_of_mem_level (List.forall_mem_singleton.2 .top) hlevel hs
  · intro h
    induction h with
    | top =>
        refine ⟨[t], ?_, List.mem_singleton.2 rfl⟩
        rw [levelsForest_cons, List.getElem?_cons_zero]
    | child _ hc ih =>
        obtain ⟨level, hlevel, hs⟩ := ih
        exact child_mem_levelsForest hlevel hs hc

theorem ne_nil_of_getElem?_levelsForest {ts level : List (Rose α)} {depth : Nat}
    (h : (levelsForest ts)[depth]? = some level) : level ≠ [] := by
  induction depth generalizing ts with
  | zero =>
      cases ts with
      | nil => cases h
      | cons t ts =>
          rw [levelsForest_cons, List.getElem?_cons_zero, Option.some.injEq] at h
          exact h ▸ List.cons_ne_nil t ts
  | succ depth ih => exact ih (getElem?_levelsForest_succ ts depth ▸ h)

theorem length_levels (t : Rose α) : t.levels.length = t.height + 1 := by
  rw [height, levels_eq, List.length_cons, Nat.add_sub_cancel]

/-- No level is empty, so the number of the last is a depth of some node. -/
theorem deepest_eq (t : Rose α) : t.deepest = t.height := by
  have hmax : (t.breadthWithDepth.map Prod.snd).max? = some t.height := by
    rw [List.max?_eq_some_iff]
    constructor
    · have hlast : t.height < t.levels.length := by
        rw [length_levels]
        exact Nat.lt_succ_self _
      obtain ⟨level, hlevel⟩ : ∃ level, t.levels[t.height]? = some level :=
        ⟨_, List.getElem?_eq_getElem hlast⟩
      have hforest := hlevel
      rw [← levelsForest_singleton] at hforest
      obtain ⟨s, hs⟩ := List.exists_mem_of_ne_nil _ (ne_nil_of_getElem?_levelsForest hforest)
      exact List.mem_map.2 ⟨(s, t.height), mem_breadthWithDepth_iff.2 ⟨_, hlevel, hs⟩, rfl⟩
    · intro depth hdepth
      obtain ⟨⟨s, _⟩, hs, rfl⟩ := List.mem_map.1 hdepth
      obtain ⟨level, hlevel, -⟩ := mem_breadthWithDepth_iff.1 hs
      obtain ⟨hlt, -⟩ := List.getElem?_eq_some_iff.1 hlevel
      rw [length_levels] at hlt
      exact Nat.le_of_lt_succ hlt
  rw [deepest, breadthWithDepthFrom_root, hmax, Option.getD_some]

/-! ### Counting depth by depth -/

theorem countP_numbered {γ : Type} (levels : List (List γ)) (start depth : Nat) :
    (((levels.zipIdx start).map fun (level, number) =>
        level.map fun s => (s, number)).flatten.countP fun s => s.2 == depth) =
      if start ≤ depth then (levels[depth - start]?.getD []).length else 0 := by
  induction levels generalizing start with
  | nil => simp
  | cons level levels ih =>
      rw [List.zipIdx_cons, List.map_cons, List.flatten_cons, List.countP_append, ih]
      have hlevel : ((level.map fun s => (s, start)).countP fun s => s.2 == depth) =
          if start = depth then level.length else 0 := by
        rw [List.countP_map]
        split
        · next heq => simp [Function.comp_def, heq]
        · next hne => simp [Function.comp_def, hne]
      rw [hlevel]
      rcases Nat.lt_trichotomy start depth with hlt | rfl | hgt
      · obtain ⟨steps, rfl⟩ := Nat.exists_eq_add_of_lt hlt
        have hsteps : start + steps + 1 - start = (start + steps + 1 - (start + 1)) + 1 := by omega
        rw [if_neg (by omega), if_pos (by omega), if_pos (by omega), Nat.zero_add, hsteps,
          List.getElem?_cons_succ]
      · rw [if_pos rfl, if_neg (by omega), if_pos (Nat.le_refl _), Nat.sub_self,
          List.getElem?_cons_zero, Option.getD_some, Nat.add_zero]
      · rw [if_neg (by omega), if_neg (by omega), if_neg (by omega)]

theorem countAtDepth_eq (t : Rose α) (depth : Nat) :
    t.countAtDepth depth = t.breadthWithDepth.countP fun s => s.2 == depth := by
  rw [breadthWithDepth, countP_numbered, if_pos (Nat.zero_le _), Nat.sub_zero, countAtDepth]

theorem total_length_getElem? {γ : Type} (levels : List (List γ)) :
    total ((List.range levels.length).map fun depth => (levels[depth]?.getD []).length) =
      levels.flatten.length := by
  induction levels with
  | nil => rfl
  | cons level levels ih =>
      rw [List.length_cons, List.range_succ_eq_map, List.map_cons, total_cons, List.map_map,
        List.flatten_cons, List.length_append, ← ih]
      rfl

theorem total_countAtDepth (t : Rose α) :
    total ((List.range (t.height + 1)).map t.countAtDepth) = t.size := by
  rw [← length_levels, ← length_walk, ← (breadth_perm_walk t).length_eq, breadth,
    ← total_length_getElem?]
  rfl

end StoryAtlas.Rose
