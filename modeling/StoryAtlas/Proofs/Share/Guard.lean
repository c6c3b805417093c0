import StoryAtlas.Proofs.Event.Place
import StoryAtlas.Share.Guard

/-!
# What the guard sees

In the walk a subtree is a run of numbers, from the number of its root on, as many as it has nodes.
So whether a number lies in the span of a node says whether the node with that number lies in its
subtree, and the comparisons of the guard mean what they are meant to: a reference reaches into a
subtree, and its referrer stands outside.
-/

namespace StoryAtlas.Guard

variable {tree : Node} {node other : Placed} {guard : Guard}

theorem mem_walk_iff_span (hnode : node ∈ tree.placed.walk) (hother : other ∈ tree.placed.walk) :
    other ∈ node.walk ↔ node.place ≤ other.place ∧ other.place ≤ node.place + node.size - 1 := by
  have hnumbers : node.walk.map Placed.place = List.range' node.place node.size :=
    Rose.numbers_of_mem_walk_enumerate hnode
  have hpos := Rose.size_pos node
  have hspan : other.place ∈ node.walk.map Placed.place ↔
      node.place ≤ other.place ∧ other.place ≤ node.place + node.size - 1 := by
    rw [hnumbers, List.mem_range'_1]
    omega
  rw [← hspan]
  constructor
  · exact List.mem_map_of_mem
  · intro hmem
    obtain ⟨inner, hinner, hplace⟩ := List.mem_map.1 hmem
    have hwalk := Rose.mem_walk_trans hinner hnode
    rw [← Placed.eq_of_place_eq (Placed.nodup_places_placed tree) hwalk hother hplace]
    exact hinner

/-- The guard has the spans of the tree, whatever references it knows. -/
structure Spans (tree : Node) (guard : Guard) : Prop where
  entries : guard.entries = (ofPlaced tree.placed).entries
  exits : guard.exits = (ofPlaced tree.placed).exits

theorem Spans.addRef (h : Spans tree guard) (referrer target : Int) :
    Spans tree (guard.addRef referrer target) := ⟨h.entries, h.exits⟩

section Spans

variable (distinct : tree.ids.Nodup) (h : Spans tree guard)

include distinct h in
theorem get?_entries_iff {id : Int} {number : Nat} : Register.get? id guard.entries = some number ↔
    ∃ found ∈ tree.placed.walk, Placed.id found = id ∧ Placed.place found = number := by
  rw [h.entries]
  constructor
  · intro hget
    obtain ⟨found, hfound, heq⟩ := List.mem_map.1 (Register.mem_of_get?_ofList hget)
    rw [Prod.mk.injEq] at heq
    exact ⟨found, hfound, heq⟩
  · rintro ⟨found, hfound, rfl, rfl⟩
    refine Register.get?_ofList_of_mem ?_ (List.mem_map_of_mem hfound)
    rw [List.map_map]
    rw [← Placed.ids_placed] at distinct
    exact distinct

include distinct h in
theorem get?_exits (hnode : node ∈ tree.placed.walk) :
    Register.get? node.id guard.exits = some (node.place + node.size - 1) := by
  rw [h.exits]
  have hperm := Rose.climb_perm_walk tree.placed
  refine Register.get?_ofList_of_mem ?_ (List.mem_map_of_mem (hperm.mem_iff.2 hnode))
  rw [List.map_map, ((hperm.map _).nodup_iff)]
  rw [← Placed.ids_placed] at distinct
  exact distinct

include distinct h in
/-- A target is reached if its node is in the subtree; an id below the least target only if it is not
the root's. -/
theorem reaches_iff (hnode : node ∈ tree.placed.walk) (target : Int) :
    guard.reaches node.place (node.place + node.size - 1) target = true ↔
      ∃ inside ∈ node.walk, Placed.id inside = target ∧ (inside = node → leastTarget ≤ target) := by
  have places := Placed.nodup_places_placed tree
  unfold reaches
  constructor
  · intro hreaches
    split at hreaches
    · next number hnumber =>
      obtain ⟨inside, hinside, hid, rfl⟩ := (get?_entries_iff distinct h).1 hnumber
      simp only [Bool.and_eq_true, Bool.or_eq_true, decide_eq_true_eq, beq_iff_eq] at hreaches
      obtain ⟨hfirst, hlast⟩ := hreaches
      refine ⟨inside, (mem_walk_iff_span hnode hinside).2 ⟨by omega, hlast⟩, hid, ?_⟩
      rintro rfl
      omega
    · cases hreaches
  · rintro ⟨inside, hinside, hid, hleast⟩
    have hwalk := Rose.mem_walk_trans hinside hnode
    rw [(get?_entries_iff distinct h).2 ⟨inside, hwalk, hid, rfl⟩]
    obtain ⟨hfirst, hlast⟩ := (mem_walk_iff_span hnode hwalk).1 hinside
    simp only [Bool.and_eq_true, Bool.or_eq_true, decide_eq_true_eq, beq_iff_eq]
    refine ⟨?_, hlast⟩
    by_cases hplace : Placed.place inside = node.place
    · exact .inr ⟨hplace, hleast (Placed.eq_of_place_eq places hwalk hnode hplace)⟩
    · omega

include distinct h in
theorem standsOutside_iff (hnode : node ∈ tree.placed.walk) (referrer : Int) :
    guard.standsOutside node.place (node.place + node.size - 1) referrer = true ↔
      ∃ outside ∈ tree.placed.walk, Placed.id outside = referrer ∧ outside ∉ node.walk := by
  unfold standsOutside
  constructor
  · intro hstands
    split at hstands
    · next number hnumber =>
      obtain ⟨outside, houtside, hid, rfl⟩ := (get?_entries_iff distinct h).1 hnumber
      refine ⟨outside, houtside, hid, fun hmem => ?_⟩
      obtain ⟨hfirst, hlast⟩ := (mem_walk_iff_span hnode houtside).1 hmem
      simp [hfirst, hlast] at hstands
    · cases hstands
  · rintro ⟨outside, houtside, hid, hmem⟩
    rw [(get?_entries_iff distinct h).2 ⟨outside, houtside, hid, rfl⟩]
    rw [mem_walk_iff_span hnode houtside] at hmem
    simp only [Bool.not_eq_true', Bool.and_eq_false_iff, decide_eq_false_iff_not]
    omega

include distinct h in
/-- The guard stops a drop exactly if it knows a reference from outside into the subtree. -/
theorem wouldOrphan_iff (hnode : node ∈ tree.placed.walk) : guard.wouldOrphan node.id = true ↔
    ∃ outside ∈ tree.placed.walk, outside ∉ node.walk ∧ ∃ inside ∈ node.walk,
      (Placed.id outside, Placed.id inside) ∈ guard.refs ∧
        (inside = node → leastTarget ≤ node.id) := by
  unfold wouldOrphan
  rw [(get?_entries_iff distinct h).2 ⟨node, hnode, rfl, rfl⟩, get?_exits distinct h hnode]
  dsimp only
  rw [List.any_eq_true]
  constructor
  · rintro ⟨⟨referrer, target⟩, hmem, hboth⟩
    rw [Bool.and_eq_true] at hboth
    obtain ⟨inside, hinside, rfl, hleast⟩ := (reaches_iff distinct h hnode target).1 hboth.1
    obtain ⟨outside, houtside, rfl, hout⟩ := (standsOutside_iff distinct h hnode referrer).1 hboth.2
    exact ⟨outside, houtside, hout, inside, hinside, hmem, fun hsame => hsame ▸ hleast hsame⟩
  · rintro ⟨outside, houtside, hout, inside, hinside, hmem, hleast⟩
    refine ⟨_, hmem, Bool.and_eq_true_iff.2 ⟨?_, ?_⟩⟩
    · exact (reaches_iff distinct h hnode _).2
        ⟨inside, hinside, rfl, fun hsame => hsame ▸ hleast hsame⟩
    · exact (standsOutside_iff distinct h hnode _).2 ⟨outside, houtside, rfl, hout⟩

end Spans

end StoryAtlas.Guard
