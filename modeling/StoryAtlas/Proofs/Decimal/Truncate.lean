import Mathlib.Algebra.Order.Floor.Ring
import Mathlib.Data.Rat.Floor
import Mathlib.Tactic.Linarith
import StoryAtlas.Decimal.Binary

/-!
# The whole part of a binary fraction

A binary fraction stands for a rational number. The whole number that it is truncated to is what
remains of that number when it is rounded toward zero.
-/

namespace StoryAtlas.Decimal

def towardZero (number : ℚ) : ℤ := if number < 0 then ⌈number⌉ else ⌊number⌋

theorem towardZero_neg (number : ℚ) : towardZero (-number) = -towardZero number := by
  unfold towardZero
  rcases lt_trichotomy number 0 with hless | rfl | hless
  · rw [if_neg (by linarith), if_pos hless, Int.floor_neg]
  · simp
  · rw [if_pos (by linarith), if_neg (by linarith), Int.ceil_neg]

namespace Binary

def magnitude (x : Binary) : ℚ := x.mantissa * 2 ^ x.exponent

def toRat (x : Binary) : ℚ := if x.negative then -x.magnitude else x.magnitude

theorem floor_magnitude (x : Binary) : ⌊x.magnitude⌋ =
    ((if 0 ≤ x.exponent then x.mantissa * twoTo x.exponent.toNat
      else x.mantissa / twoTo (-x.exponent).toNat : ℕ) : ℤ) := by
  unfold magnitude
  split
  · next hexponent =>
    obtain ⟨steps, hsteps⟩ := Int.eq_ofNat_of_zero_le hexponent
    rw [hsteps, zpow_natCast, Int.toNat_natCast]
    exact_mod_cast Int.floor_natCast (x.mantissa * 2 ^ steps)
  · next hexponent =>
    obtain ⟨steps, hsteps⟩ := Int.eq_ofNat_of_zero_le (by omega : 0 ≤ -x.exponent)
    have hdiv : (x.mantissa : ℚ) * 2 ^ x.exponent =
        ((x.mantissa : ℤ) : ℚ) / ((2 ^ steps : ℕ) : ℚ) := by
      rw [← neg_neg x.exponent, hsteps, zpow_neg, zpow_natCast, div_eq_mul_inv]
      push_cast
      rfl
    rw [hdiv, Rat.floor_intCast_div_natCast, hsteps, Int.toNat_natCast]
    exact (Int.natCast_div _ _).symm

theorem truncate_eq (x : Binary) : x.truncate = towardZero x.toRat := by
  have hpos : 0 ≤ x.magnitude := mul_nonneg (Nat.cast_nonneg _) (zpow_nonneg zero_le_two _)
  have hfloor : towardZero x.magnitude = ⌊x.magnitude⌋ := if_neg (not_lt.2 hpos)
  unfold truncate toRat
  cases x.negative with
  | false => exact (hfloor.trans x.floor_magnitude).symm
  | true => rw [if_pos rfl, if_pos rfl, towardZero_neg, hfloor, floor_magnitude]

end Binary

end StoryAtlas.Decimal
