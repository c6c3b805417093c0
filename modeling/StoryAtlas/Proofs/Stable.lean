import Mathlib.Data.List.Sort

/-!
# Stable sorting

A stable sort leaves the entries with one key in the order they had. With this a sorted list is
determined: it is sorted, and for each key it has the same entries in the same order as the list
before. So it is enough to follow, key by key, what a program does to a list.
-/

namespace StoryAtlas

/-- An order that puts entries in the order of a key, and tells those of one key not apart. -/
structure SortsBy {α κ : Type} (key : α → κ) (le : α → α → Bool) : Prop where
  trans : ∀ a b c, le a b = true → le b c = true → le a c = true
  total : ∀ a b, (le a b || le b a) = true
  same : ∀ a b, key a = key b → le a b = true
  antisymm : ∀ a b, le a b = true → le b a = true → key a = key b

theorem mergeSort_pair {α : Type} {le : α → α → Bool} {x y : α} (h : le x y = false) :
    [x, y].mergeSort le = [y, x] := by
  simp [List.mergeSort, h]

namespace SortsBy

variable {α κ : Type} [DecidableEq κ] {key : α → κ} {le : α → α → Bool} {xs ys : List α}

/-- The entries with a key, in their order. -/
def keyed (key : α → κ) (k : κ) (xs : List α) : List α := xs.filter fun a => key a = k

theorem mem_keyed {a : α} {k : κ} : a ∈ keyed key k xs ↔ a ∈ xs ∧ key a = k := by
  simp [keyed]

/-- Sorting leaves the entries with a key in their order. -/
theorem keyed_mergeSort (h : SortsBy key le) (k : κ) (xs : List α) :
    keyed key k (xs.mergeSort le) = keyed key k xs := by
  have hordered : (keyed key k xs).Pairwise fun a b => le a b = true :=
    List.pairwise_of_forall_mem_list fun a ha b hb =>
      h.same a b ((mem_keyed.1 ha).2.trans (mem_keyed.1 hb).2.symm)
  have hsub : (keyed key k xs).Sublist (xs.mergeSort le) :=
    List.sublist_mergeSort h.trans h.total hordered List.filter_sublist
  have hfiltered := hsub.filter fun a => key a = k
  rw [keyed, List.filter_filter] at hfiltered
  simp only [Bool.and_self] at hfiltered
  refine (hfiltered.eq_of_length ?_).symm
  exact ((List.mergeSort_perm xs le).filter _).length_eq.symm

theorem mem_iff_of_keyed (hkeyed : ∀ k, keyed key k xs = keyed key k ys) (a : α) :
    a ∈ xs ↔ a ∈ ys := by
  have hsame : a ∈ keyed key (key a) xs ↔ a ∈ keyed key (key a) ys := by rw [hkeyed]
  simpa [mem_keyed] using hsame

/-- A sorted list is determined by its entries with each key, in their order. -/
theorem eq_of_keyed (h : SortsBy key le) (hxs : xs.Pairwise fun a b => le a b = true)
    (hys : ys.Pairwise fun a b => le a b = true)
    (hkeyed : ∀ k, keyed key k xs = keyed key k ys) : xs = ys := by
  induction xs generalizing ys with
  | nil =>
      cases ys with
      | nil => rfl
      | cons y ys =>
          exact absurd ((mem_iff_of_keyed hkeyed y).2 List.mem_cons_self) List.not_mem_nil
  | cons x xs ih =>
      cases ys with
      | nil => exact absurd ((mem_iff_of_keyed hkeyed x).1 List.mem_cons_self) List.not_mem_nil
      | cons y ys =>
          obtain ⟨hx, htail⟩ := List.pairwise_cons.1 hxs
          obtain ⟨hy, htail'⟩ := List.pairwise_cons.1 hys
          -- both heads are least, so they have one key, and the first with that key is the same
          have hkey : key x = key y := by
            rcases List.mem_cons.1 ((mem_iff_of_keyed hkeyed x).1 List.mem_cons_self) with
              hsame | hlater
            · rw [hsame]
            rcases List.mem_cons.1 ((mem_iff_of_keyed hkeyed y).2 List.mem_cons_self) with
              hsame | hlater'
            · rw [hsame]
            exact h.antisymm x y (hx y hlater') (hy x hlater)
          have hheads := hkeyed (key x)
          simp only [keyed, List.filter_cons, hkey, decide_true, if_true, List.cons.injEq] at hheads
          obtain ⟨rfl, -⟩ := hheads
          have hrest : ∀ k, keyed key k xs = keyed key k ys := by
            intro k
            have hk := hkeyed k
            simp only [keyed, List.filter_cons] at hk ⊢
            split at hk
            · exact (List.cons.inj hk).2
            · exact hk
          rw [ih htail htail' hrest]

/-- Lists with the same entries for each key, in the same order, are sorted to the same list. -/
theorem mergeSort_congr (h : SortsBy key le) (hkeyed : ∀ k, keyed key k xs = keyed key k ys) :
    xs.mergeSort le = ys.mergeSort le := by
  refine h.eq_of_keyed (List.pairwise_mergeSort h.trans h.total xs)
    (List.pairwise_mergeSort h.trans h.total ys) fun k => ?_
  rw [h.keyed_mergeSort, h.keyed_mergeSort, hkeyed]

theorem keyed_flatMap {β : Type} (k : κ) (parts : List β) (f : β → List α) :
    keyed key k (parts.flatMap f) = parts.flatMap fun part => keyed key k (f part) :=
  List.filter_flatMap

theorem keyed_filterMap {f : α → Option α} (hf : ∀ a b, f a = some b → key b = key a) (k : κ)
    (xs : List α) : keyed key k (xs.filterMap f) = (keyed key k xs).filterMap f := by
  induction xs with
  | nil => rfl
  | cons x xs ih =>
      unfold keyed at ih ⊢
      rw [List.filterMap_cons, List.filter_cons]
      cases hx : f x with
      | none =>
          dsimp only
          rw [ih]
          split
          · rw [List.filterMap_cons_none hx]
          · rfl
      | some y =>
          dsimp only
          rw [List.filter_cons, hf x y hx, ih]
          split
          · rw [List.filterMap_cons_some hx]
          · rfl

omit [DecidableEq κ] in
theorem pairwise_filterMap (h : SortsBy key le) {f : α → Option α}
    (hf : ∀ a b, f a = some b → key b = key a) (hxs : xs.Pairwise fun a b => le a b = true) :
    (xs.filterMap f).Pairwise fun a b => le a b = true := by
  refine List.pairwise_filterMap.2 (hxs.imp fun {a b} hab c hc d hd => ?_)
  have hca : le c a = true := h.same c a (hf a c hc)
  have hbd : le b d = true := h.same b d (hf b d hd).symm
  exact h.trans c a d hca (h.trans a b d hab hbd)

end SortsBy

end StoryAtlas
