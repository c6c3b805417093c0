import Mathlib.Data.List.Flatten
import Mathlib.Data.List.Range
import StoryAtlas.Proofs.Rose.Walk

/-!
# Editing one node of a tree

An edit reaches the topmost nodes that pass a test. Nodes above keep their value and the number of
their children, nodes beside are untouched, and if only one node passes then the values of the
edited tree are those of the tree, less the values of that node, and with the values it was given.

Numbering a tree changes nothing else, and every subtree has the numbers from its root's onwards.
-/

namespace StoryAtlas.Rose

variable {α : Type} {test : α → Bool} {edit : Rose α → Rose α}

def values (t : Rose α) : List α := t.walk.map value

theorem values_node (a : α) (cs : List (Rose α)) :
    values (.node a cs) = a :: cs.flatMap values := by
  rw [values, walk_node, List.map_cons, value_node, walkForest_eq_flatMap, List.map_flatMap]
  rfl

theorem flatMap_values (ts : List (Rose α)) : ts.flatMap values = (walkForest ts).map value := by
  rw [walkForest_eq_flatMap, List.map_flatMap]
  rfl

theorem editWhere_of_pos {t : Rose α} (h : test t.value = true) :
    editWhere test edit t = edit t := by
  obtain ⟨a, cs⟩ := t
  rw [editWhere]
  exact if_pos h

theorem editWhere_of_neg {t : Rose α} (h : test t.value = false) :
    editWhere test edit t = .node t.value (t.children.map (editWhere test edit)) := by
  obtain ⟨a, cs⟩ := t
  rw [editWhere, editForest_eq_map, if_neg]
  · rfl
  · rw [value_node] at h
    simp [h]

theorem editWhere_eq_self {t : Rose α} (h : ∀ s ∈ t.walk, test s.value = false) :
    editWhere test edit t = t := by
  induction t using induction_on with
  | node a cs ih =>
      rw [editWhere_of_neg (h _ (self_mem_walk _)), value_node, children_node]
      congr 1
      refine (List.map_congr_left fun c hc => ih c hc ?_).trans (List.map_id cs)
      exact fun s hs => h s (mem_walk_of_mem hc hs)

theorem editWhere_congr {other : Rose α → Rose α} {t : Rose α}
    (h : ∀ s ∈ t.walk, test s.value = true → edit s = other s) :
    editWhere test edit t = editWhere test other t := by
  induction t using induction_on with
  | node a cs ih =>
      cases htest : test a with
      | true =>
          rw [editWhere_of_pos htest, editWhere_of_pos htest]
          exact h _ (self_mem_walk _) htest
      | false =>
          rw [editWhere_of_neg htest, editWhere_of_neg htest]
          congr 1
          exact List.map_congr_left fun c hc => ih c hc fun s hs => h s (mem_walk_of_mem hc hs)

/-- Every node of an edited tree either comes from the edit or stands for a node above or beside. -/
theorem mem_walk_editWhere {s t : Rose α} (h : s ∈ (editWhere test edit t).walk) :
    (∃ u ∈ t.walk, test u.value = false ∧ s = editWhere test edit u) ∨
      ∃ u ∈ t.walk, test u.value = true ∧ s ∈ (edit u).walk := by
  induction t using induction_on with
  | node a cs ih =>
      cases htest : test a with
      | true =>
          rw [editWhere_of_pos (t := .node a cs) htest] at h
          exact .inr ⟨_, self_mem_walk _, htest, h⟩
      | false =>
          rcases mem_walk.1 h with rfl | h
          · exact .inl ⟨_, self_mem_walk _, htest, rfl⟩
          · rw [editWhere_of_neg (t := .node a cs) htest, children_node, children_node] at h
            obtain ⟨_, hmap, h⟩ := mem_walkForest.1 h
            obtain ⟨c, hc, rfl⟩ := List.mem_map.1 hmap
            rcases ih c hc h with ⟨u, hu, hs⟩ | ⟨u, hu, hs⟩
            · exact .inl ⟨u, mem_walk_of_mem hc hu, hs⟩
            · exact .inr ⟨u, mem_walk_of_mem hc hu, hs⟩

/-- A node stays, itself edited, unless it lies below a node that the edit reaches. -/
theorem editWhere_mem_walk {s t : Rose α} (hs : s ∈ t.walk)
    (h : ∀ u ∈ t.walk, test u.value = true → s ∉ walkForest u.children) :
    editWhere test edit s ∈ (editWhere test edit t).walk := by
  induction t using induction_on with
  | node a cs ih =>
      rcases mem_walk.1 hs with rfl | hbelow
      · exact self_mem_walk _
      · have htest : test a = false := by
          rw [← Bool.not_eq_true]
          intro htest
          exact h _ (self_mem_walk _) htest hbelow
        obtain ⟨c, hc, hsc⟩ := mem_walkForest.1 hbelow
        rw [editWhere_of_neg (t := .node a cs) htest]
        refine mem_walk_of_mem (List.mem_map_of_mem hc) (ih c hc hsc fun u hu => ?_)
        exact h u (mem_walk_of_mem hc hu)

/-- Where one node passes the test, its values are exchanged for those of the edit. -/
theorem values_editWhere_perm {t s : Rose α}
    (h : (t.walk.filter fun u => test u.value) = [s]) :
    ((editWhere test edit t).values ++ s.values).Perm (t.values ++ (edit s).values) := by
  induction t using induction_on with
  | node a cs ih =>
      rw [walk_node, List.filter_cons] at h
      split at h
      · next htest =>
        rw [List.cons.injEq] at h
        rw [editWhere_of_pos htest, h.1]
        exact List.perm_append_comm
      · next htest =>
        rw [editWhere_of_neg (by simpa using htest), value_node, children_node, values_node,
          values_node, List.cons_append, List.cons_append]
        apply List.Perm.cons _
        clear htest
        induction cs with
        | nil => simp [walkForest] at h
        | cons c cs ihcs =>
            rw [walkForest, List.filter_append] at h
            rw [List.map_cons, List.flatMap_cons, List.flatMap_cons, List.append_assoc,
              List.append_assoc]
            rcases List.append_eq_singleton_iff.1 h with ⟨hc, hcs⟩ | ⟨hc, hcs⟩
            · -- the node is in a later child
              rw [editWhere_eq_self (by simpa using hc)]
              exact List.Perm.append_left _ (ihcs (fun d hd => ih d (by simp [hd])) hcs)
            · have hrest : cs.map (editWhere test edit) = cs := by
                refine (List.map_congr_left fun d hd => editWhere_eq_self ?_).trans (List.map_id cs)
                intro u hu
                have := List.filter_eq_nil_iff.1 hcs u (mem_walkForest.2 ⟨d, hd, hu⟩)
                simpa using this
              rw [hrest]
              have hfirst := ih c (by simp) hc
              -- the other children's values are moved out of the way and back
              have hswap : (cs.flatMap values ++ s.values).Perm (s.values ++ cs.flatMap values) :=
                List.perm_append_comm
              apply (hswap.append_left _).trans
              rw [← List.append_assoc]
              apply (hfirst.append_right _).trans
              rw [List.append_assoc]
              exact List.perm_append_comm.append_left _

/-! ### Pruning -/

theorem pruneForest_eq_map (drops : α → Bool) (ts : List (Rose α)) :
    pruneForest drops ts = (ts.filter fun t => !drops t.value).map (prune drops) := by
  induction ts with
  | nil => rfl
  | cons t ts ih =>
      rw [pruneForest, List.filter_cons, ih]
      cases drops t.value <;> rfl

theorem prune_eq (drops : α → Bool) (t : Rose α) :
    prune drops t =
      .node t.value ((t.children.filter fun c => !drops c.value).map (prune drops)) := by
  cases t with
  | node a cs => rw [prune, pruneForest_eq_map, value_node, children_node]

@[simp] theorem value_prune (drops : α → Bool) (t : Rose α) : (prune drops t).value = t.value := by
  rw [prune_eq, value_node]

theorem mem_walk_prune {drops : α → Bool} {s t : Rose α} (h : s ∈ (prune drops t).walk) :
    ∃ u ∈ t.walk, s = prune drops u := by
  induction t using induction_on with
  | node a cs ih =>
      rcases mem_walk.1 h with rfl | hbelow
      · exact ⟨_, self_mem_walk _, rfl⟩
      · rw [prune_eq, children_node, children_node] at hbelow
        obtain ⟨_, hmap, hs⟩ := mem_walkForest.1 hbelow
        obtain ⟨c, hc, rfl⟩ := List.mem_map.1 hmap
        obtain ⟨u, hu, hsu⟩ := ih c (List.mem_of_mem_filter hc) hs
        exact ⟨u, mem_walk_of_mem (List.mem_of_mem_filter hc) hu, hsu⟩

/-- Pruning gives no node children that had none. -/
theorem childless_prune {P : α → Prop} {t : Rose α} (drops : α → Bool)
    (h : Everywhere (fun a cs => P a → cs = []) t) :
    Everywhere (fun a cs => P a → cs = []) (prune drops t) := by
  intro s hs hP
  obtain ⟨u, hu, rfl⟩ := mem_walk_prune hs
  rw [value_prune] at hP
  rw [prune_eq, children_node, h u hu hP]
  rfl

/-! ### Numbering -/

theorem map_snd_enumerate (next : Nat) (t : Rose α) : (enumerate next t).map Prod.snd = t := by
  induction t using induction_on generalizing next with
  | node a cs ih =>
      rw [enumerate, map_node]
      congr 1
      generalize next + 1 = first
      induction cs generalizing first with
      | nil => rfl
      | cons c cs ihcs =>
          rw [enumerateForest, List.map_cons, ih c (by simp),
            ihcs (fun d hd => ih d (by simp [hd]))]

theorem size_enumerate (next : Nat) (t : Rose α) : (enumerate next t).size = t.size := by
  rw [← size_map Prod.snd, map_snd_enumerate]

theorem numbers_enumerate (next : Nat) (t : Rose α) :
    (enumerate next t).walk.map (fun s => s.value.1) = List.range' next t.size := by
  induction t using induction_on generalizing next with
  | node a cs ih =>
      rw [enumerate, walk_node, List.map_cons, value_node, size, List.range'_succ]
      congr 1
      generalize next + 1 = first
      induction cs generalizing first with
      | nil => rfl
      | cons c cs ihcs =>
          rw [enumerateForest, walkForest, List.map_append, ih c (by simp),
            ihcs (fun d hd => ih d (by simp [hd])), sizeForest, ← List.range'_append_1]

theorem exists_enumerate_of_mem_walk {s : Rose (Nat × α)} {next : Nat} {t : Rose α}
    (h : s ∈ (enumerate next t).walk) : ∃ u, s = enumerate s.value.1 u := by
  induction t using induction_on generalizing next with
  | node a cs ih =>
      rcases mem_walk.1 h with rfl | hbelow
      · exact ⟨.node a cs, rfl⟩
      · rw [enumerate, children_node] at hbelow
        clear h
        generalize next + 1 = first at hbelow
        induction cs generalizing first with
        | nil => simp [enumerateForest, walkForest] at hbelow
        | cons c cs ihcs =>
            rw [enumerateForest, walkForest, List.mem_append] at hbelow
            rcases hbelow with hs | hs
            · exact ih c (by simp) hs
            · exact ihcs (fun d hd => ih d (by simp [hd])) _ hs

theorem numbers_of_mem_walk_enumerate {s : Rose (Nat × α)} {next : Nat} {t : Rose α}
    (h : s ∈ (enumerate next t).walk) :
    s.walk.map (fun u => u.value.1) = List.range' s.value.1 s.size := by
  obtain ⟨u, hu⟩ := exists_enumerate_of_mem_walk h
  have hnumbers := numbers_enumerate s.value.1 u
  rw [← hu, ← size_enumerate s.value.1, ← hu] at hnumbers
  exact hnumbers

end StoryAtlas.Rose
