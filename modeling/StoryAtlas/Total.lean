/-!
# Totals

The total of a list of counts.
-/

namespace StoryAtlas

def total (counts : List Nat) : Nat := counts.foldr (· + ·) 0

@[simp] theorem total_nil : total [] = 0 := rfl

@[simp] theorem total_cons (count : Nat) (counts : List Nat) :
    total (count :: counts) = count + total counts := rfl

@[simp] theorem total_append (first second : List Nat) :
    total (first ++ second) = total first + total second := by
  induction first with
  | nil => simp
  | cons count counts ih =>
      rw [List.cons_append, total_cons, total_cons, ih, Nat.add_assoc]

end StoryAtlas
