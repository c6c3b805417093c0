import StoryAtlas.Schema.Model

/-!
# What a check ensures

A check of several parts is passed only if every part is, so a value that passed can be taken apart
again into values that did. What a check ensures of the values that pass it, it also ensures of the
items of a list and of a value that may be missing.
-/

namespace StoryAtlas.Schema

variable {α β : Type}

namespace Checked

theorem map_eq_valid {f : α → β} {check : Checked α} {value : β} :
    f <$> check = valid value ↔ ∃ a, check = valid a ∧ f a = value := by
  change map f check = valid value ↔ _
  cases check <;> simp [map]

theorem seq_eq_valid {f : Checked (α → β)} {check : Checked α} {value : β} :
    f <*> check = valid value ↔ ∃ g a, f = valid g ∧ check = valid a ∧ g a = value := by
  change combine f check = valid value ↔ _
  cases f <;> cases check <;> simp [combine]

theorem seqLeft_eq_valid {check : Checked α} {other : Checked β} {value : α} :
    check <* other = valid value ↔ check = valid value ∧ ∃ b, other = valid b := by
  change combine (map (Function.const β) check) other = valid value ↔ _
  cases check <;> cases other <;> simp [combine, map]

theorem andAlso_eq_valid {check : Checked α} {rule : α → Option String} {value : α} :
    check.andAlso rule = valid value ↔ check = valid value ∧ rule value = none := by
  cases check with
  | invalid issues => simp [andAlso]
  | valid a =>
      rw [andAlso]
      constructor
      · intro h
        split at h
        · cases h
        · next hrule =>
          cases h
          exact ⟨rfl, hrule⟩
      · rintro ⟨h, hrule⟩
        cases h
        rw [hrule]

theorem under_eq_valid {step : Step} {check : Checked α} {value : α} :
    check.under step = valid value ↔ check = valid value := by
  cases check <;> simp [under]

end Checked

open Checked

/-- Every value that passes the check has the property. -/
def Ensures (check : Json → Checked α) (P : α → Prop) : Prop :=
  ∀ ⦃json value⦄, check json = valid value → P value

variable {check : Json → Checked α} {P : α → Prop}

theorem Ensures.itemsFrom (h : Ensures check P) {index : Nat} {items : List Json}
    {values : List α} (hvalues : itemsFrom check index items = valid values) :
    ∀ value ∈ values, P value := by
  induction items generalizing index values with
  | nil =>
      cases hvalues
      simp
  | cons item items ih =>
      obtain ⟨_, rest, hfirst, hrest, rfl⟩ := seq_eq_valid.1 hvalues
      obtain ⟨first, hitem, rfl⟩ := map_eq_valid.1 hfirst
      exact List.forall_mem_cons.2 ⟨h (under_eq_valid.1 hitem), ih hrest⟩

theorem Ensures.list (h : Ensures check P) :
    Ensures (list check) fun values => ∀ value ∈ values, P value := by
  intro json values hvalues
  cases json with
  | arr items => exact h.itemsFrom hvalues
  | _ => cases hvalues

theorem Ensures.nullable (h : Ensures check P) :
    Ensures (nullable check) fun value => ∀ present ∈ value, P present := by
  intro json value hvalue
  unfold Schema.nullable at hvalue
  split at hvalue
  · cases hvalue
    simp
  · obtain ⟨present, hpresent, rfl⟩ := map_eq_valid.1 hvalue
    intro other hother
    rw [← Option.some.inj hother]
    exact h hpresent

theorem Ensures.optionalField (h : Ensures check P) {fields : Fields} {name : String}
    {standard value : α} (hstandard : P standard)
    (hvalue : optionalField fields name standard check = valid value) : P value := by
  unfold Schema.optionalField at hvalue
  split at hvalue
  · exact h (under_eq_valid.1 hvalue)
  · cases hvalue
    exact hstandard

end StoryAtlas.Schema
