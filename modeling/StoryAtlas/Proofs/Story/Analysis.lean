import StoryAtlas.Story.Bytecode

/-!
# When the analysis of a story succeeds

The analysis looks for rolls and makes their bounds whole. A bound is a number, so this fails for
two kinds of value only, the infinite ones and the one that is no number, and nothing else in the
analysis can fail.
-/

namespace StoryAtlas

namespace Json

/-- Whatever is not a fraction is finite. -/
def IsFinite : Json → Prop
  | .float value => ∃ parts, Decimal.read value = .finite parts
  | _ => True

def IsInfinite : Json → Prop
  | .float value => ∃ negative, Decimal.read value = .infinite negative
  | _ => False

theorem exists_toWhole_iff {value : Json} (h : Bytecode.isNumber value = true) :
    (∃ number, value.toWhole = .ok number) ↔ value.IsFinite := by
  cases value with
  | int number => exact ⟨fun _ => trivial, fun _ => ⟨number, rfl⟩⟩
  | float number =>
      change (∃ whole, wholeOfFloat number = .ok whole) ↔
        ∃ parts, Decimal.read number = .finite parts
      unfold wholeOfFloat
      cases Decimal.read number with
      | finite parts => exact ⟨fun _ => ⟨parts, rfl⟩, fun _ => ⟨parts.truncate, rfl⟩⟩
      | infinite negative => exact ⟨nofun, nofun⟩
      | notANumber => exact ⟨nofun, nofun⟩
  | null => cases h
  | bool flag => cases h
  | str text => cases h
  | arr items => cases h
  | obj fields => cases h

theorem ofNumeral_ne_infinity (text : String) (error : Text.NumeralError) :
    Fault.ofNumeral text error ≠ .wholeOfInfinity := by
  cases error <;> exact nofun

theorem toWhole_eq_infinity_iff (value : Json) :
    value.toWhole = .error .wholeOfInfinity ↔ value.IsInfinite := by
  cases value with
  | float number =>
      change wholeOfFloat number = .error .wholeOfInfinity ↔
        ∃ negative, Decimal.read number = .infinite negative
      unfold wholeOfFloat
      cases Decimal.read number with
      | finite parts => exact ⟨nofun, nofun⟩
      | infinite negative => exact ⟨fun _ => ⟨negative, rfl⟩, fun _ => rfl⟩
      | notANumber => exact ⟨nofun, nofun⟩
  | str text =>
      refine ⟨fun h => ?_, nofun⟩
      change wholeOfText text = .error .wholeOfInfinity at h
      unfold wholeOfText at h
      cases hread : Text.readInt text.toList with
      | ok number =>
          rw [hread] at h
          cases h
      | error error =>
          rw [hread] at h
          exact absurd (Except.error.inj h) (ofNumeral_ne_infinity text error)
  | null => exact ⟨nofun, nofun⟩
  | bool flag => exact ⟨nofun, nofun⟩
  | int number => exact ⟨nofun, nofun⟩
  | arr items => exact ⟨nofun, nofun⟩
  | obj fields => exact ⟨nofun, nofun⟩

end Json

/-- A fold succeeds if each of its steps does, whatever the state it starts from. -/
theorem exists_foldlM_iff {ε σ α : Type} {step : σ → α → Except ε σ} {items : List α}
    {good : α → Prop}
    (h : ∀ item ∈ items, ∀ state, (∃ next, step state item = .ok next) ↔ good item) (state : σ) :
    (∃ last, items.foldlM step state = .ok last) ↔ ∀ item ∈ items, good item := by
  induction items generalizing state with
  | nil => exact ⟨fun _ => nofun, fun _ => ⟨state, rfl⟩⟩
  | cons item items ih =>
      have hrest := ih fun other hother => h other (List.mem_cons_of_mem _ hother)
      rw [List.foldlM_cons, List.forall_mem_cons, ← h item List.mem_cons_self state]
      cases hstep : step state item with
      | error fault => exact ⟨nofun, nofun⟩
      | ok next =>
          refine (hrest next).trans ⟨fun hitems => ⟨⟨next, rfl⟩, hitems⟩, fun hitems => hitems.2⟩

namespace Bytecode

def Bounded (roll : Json × Json × Json) : Prop := roll.2.1.IsFinite ∧ roll.2.2.IsFinite

theorem isNumber_of_readRoll {items : List Json} {roll : Json × Json × Json}
    (h : readRoll items = some roll) :
    isNumber roll.2.1 = true ∧ isNumber roll.2.2 = true := by
  unfold readRoll at h
  split at h
  · split at h
    · next hnumbers =>
      obtain ⟨name, -, rfl⟩ := Option.map_eq_some_iff.1 h
      exact Bool.and_eq_true_iff.1 hnumbers
    · cases h
  · cases h

theorem exists_addRoll_iff {roll : Json × Json × Json} (hleast : isNumber roll.2.1 = true)
    (hmost : isNumber roll.2.2 = true) (table : RollTable) :
    (∃ next, addRoll table roll = .ok next) ↔ Bounded roll := by
  unfold addRoll Bounded
  rw [← Json.exists_toWhole_iff hleast, ← Json.exists_toWhole_iff hmost]
  cases roll.2.1.toWhole with
  | error fault => exact ⟨nofun, nofun⟩
  | ok least =>
      cases roll.2.2.toWhole with
      | error fault => exact ⟨nofun, nofun⟩
      | ok most => exact ⟨fun _ => ⟨⟨least, rfl⟩, most, rfl⟩, fun _ => ⟨_, rfl⟩⟩

theorem exists_rollsOf_iff (document : Json) :
    (∃ table, rollsOf document = .ok table) ↔
      ∀ roll ∈ occurrences readRoll document, Bounded roll := by
  refine exists_foldlM_iff (fun roll hroll table => ?_) []
  obtain ⟨items, -, hitems⟩ := List.mem_filterMap.1 hroll
  obtain ⟨hleast, hmost⟩ := isNumber_of_readRoll hitems
  exact exists_addRoll_iff hleast hmost table

/-- The analysis of a story succeeds if all its rolls are bounded. -/
theorem exists_analyse_iff (document : Json) :
    (∃ found, analyse document = .ok found) ↔
      ∀ roll ∈ occurrences readRoll document, Bounded roll := by
  rw [← exists_rollsOf_iff]
  unfold analyse
  cases rollsOf document with
  | error fault => exact ⟨nofun, nofun⟩
  | ok table => exact ⟨fun _ => ⟨table, rfl⟩, fun _ => ⟨_, rfl⟩⟩

end Bytecode

end StoryAtlas
