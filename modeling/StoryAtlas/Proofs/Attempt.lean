/-!
# Attempts that succeed

An attempt that is made of others succeeds exactly if each of them does, and then the values that
they found are what its own is made of.
-/

namespace StoryAtlas

theorem bind_eq_ok {ε α β : Type} {step : Except ε α} {next : α → Except ε β} {result : β} :
    step >>= next = .ok result ↔ ∃ value, step = .ok value ∧ next value = .ok result := by
  cases step with
  | error fault => exact ⟨nofun, nofun⟩
  | ok value => exact ⟨fun h => ⟨value, rfl, h⟩, fun ⟨_, hvalue, h⟩ => by cases hvalue; exact h⟩

theorem map_eq_ok {ε α β : Type} {found : Except ε α} {change : α → β} {result : β} :
    found.map change = .ok result ↔ ∃ value, found = .ok value ∧ change value = result := by
  cases found with
  | error fault => exact ⟨nofun, nofun⟩
  | ok value =>
      refine ⟨fun h => ⟨value, rfl, Except.ok.inj h⟩, ?_⟩
      rintro ⟨other, hvalue, rfl⟩
      cases hvalue
      rfl

theorem eq_ok_of_toOption {ε α : Type} {found : Except ε α} {value : α}
    (h : found.toOption = some value) : found = .ok value := by
  cases found with
  | error fault => cases h
  | ok other => rw [Option.some.inj h]

theorem exists_ok_of_map_toOption {ε α β : Type} {found : Except ε α} {view : α → β} {shown : β}
    (h : found.toOption.map view = some shown) :
    ∃ value, found = .ok value ∧ view value = shown := by
  cases found with
  | error fault => cases h
  | ok value => exact ⟨value, rfl, Option.some.inj h⟩

end StoryAtlas
