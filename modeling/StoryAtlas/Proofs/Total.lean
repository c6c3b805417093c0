import StoryAtlas.Total

/-!
# Totals of rearranged and joined lists

A total does not depend on the order of the counts, and the total over parts is the total of the
totals of the parts.
-/

namespace StoryAtlas

theorem total_perm {first second : List Nat} (h : first.Perm second) :
    total first = total second := by
  induction h with
  | nil => rfl
  | cons count _ ih => rw [total_cons, total_cons, ih]
  | swap one other counts => simp only [total_cons, Nat.add_left_comm]
  | trans _ _ ih ih' => exact ih.trans ih'

theorem total_flatMap {α : Type} (parts : List α) (counts : α → List Nat) :
    total (parts.flatMap counts) = total (parts.map fun part => total (counts part)) := by
  induction parts with
  | nil => rfl
  | cons part parts ih => rw [List.flatMap_cons, total_append, List.map_cons, total_cons, ih]

theorem total_map_add {α : Type} (parts : List α) (one other : α → Nat) :
    total (parts.map fun part => one part + other part) =
      total (parts.map one) + total (parts.map other) := by
  induction parts with
  | nil => rfl
  | cons part parts ih =>
      simp only [List.map_cons, total_cons, ih]
      omega

theorem total_map_zero {α : Type} (parts : List α) : total (parts.map fun _ => 0) = 0 := by
  induction parts with
  | nil => rfl
  | cons part parts ih => rw [List.map_cons, total_cons, ih]

end StoryAtlas
