import StoryAtlas.Text.Blank
import StoryAtlas.Text.Digit
import StoryAtlas.Text.Fold

/-!
# ASCII characters

The classes of characters are tables for all scripts. What they say of an ASCII character is found
out by going through the 128 of them.
-/

namespace StoryAtlas.Text

variable {c : Char}

/-- What holds of each ASCII character holds of a character that is one. -/
theorem of_ascii {p : Char → Prop} (h : ∀ code < 128, p (Char.ofNat code)) (hc : c.toNat < 128) :
    p c := by
  have hchar := h c.toNat hc
  rwa [Char.ofNat_toNat] at hchar

theorem isUpper_lt (h : c.isUpper = true) : c.toNat < 128 := by
  have hmost : c.toNat ≤ 90 := UInt32.le_iff_toNat_le.1 (of_decide_eq_true h).2
  omega

theorem isLower_lt (h : c.isLower = true) : c.toNat < 128 := by
  have hmost : c.toNat ≤ 122 :=
    UInt32.le_iff_toNat_le.1 (of_decide_eq_true (Bool.and_eq_true_iff.1 h).2)
  omega

theorem isDigit_lt (h : c.isDigit = true) : c.toNat < 128 := by
  have hmost : c.toNat ≤ 57 :=
    UInt32.le_iff_toNat_le.1 (of_decide_eq_true (Bool.and_eq_true_iff.1 h).2)
  omega

theorem isAlphanum_lt (h : c.isAlphanum = true) : c.toNat < 128 := by
  rcases Bool.or_eq_true_iff.1 h with halpha | hdigit
  · exact (Bool.or_eq_true_iff.1 halpha).elim isUpper_lt isLower_lt
  · exact isDigit_lt hdigit

theorem toLower_of_le (h : 128 ≤ c.toNat) : c.toLower = c := by
  refine dif_neg fun hupper => ?_
  have hmost : c.toNat ≤ 90 := UInt32.le_iff_toNat_le.1 hupper.2
  omega

theorem isDigit_of_isDigit (h : c.isDigit = true) : isDigit c = true :=
  of_ascii (p := fun c => c.isDigit = true → isDigit c = true) (by decide) (isDigit_lt h) h

theorem isBlank_of_isDigit (h : c.isDigit = true) : isBlank c = false :=
  of_ascii (p := fun c => c.isDigit = true → isBlank c = false) (by decide) (isDigit_lt h) h

end StoryAtlas.Text
