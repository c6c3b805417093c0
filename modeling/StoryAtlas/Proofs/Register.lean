import Mathlib.Data.List.Induction
import Mathlib.Data.List.Nodup
import StoryAtlas.Register

/-!
# Looking up what was stored

A register is filled entry by entry, and what is found in it afterwards is one of the entries. If
the keys are distinct nothing is stored over, so the register is the list of entries itself and
every one of them is found.
-/

namespace StoryAtlas.Register

variable {κ α : Type} [DecidableEq κ] {key : κ} {value : α} {register : Register κ α}

theorem mem_of_get? (h : get? key register = some value) : (key, value) ∈ register := by
  obtain ⟨entry, hentry, rfl⟩ := Option.map_eq_some_iff.1 h
  obtain ⟨other, found⟩ := entry
  have hkey : other = key := by simpa using List.find?_some hentry
  rw [← hkey]
  exact List.mem_of_find?_eq_some hentry

theorem exists_get?_of_mem_keys (h : key ∈ register.map (·.1)) :
    ∃ value, get? key register = some value := by
  obtain ⟨entry, hentry, rfl⟩ := List.mem_map.1 h
  cases hfound : get? entry.1 register with
  | some value => exact ⟨value, rfl⟩
  | none =>
      rw [get?, Option.map_eq_none_iff, List.find?_eq_none] at hfound
      exact absurd (decide_eq_true rfl) (hfound entry hentry)

theorem notMem_keys_of_get?_eq_none (h : get? key register = none) : key ∉ register.map (·.1) := by
  intro hmem
  obtain ⟨value, hvalue⟩ := exists_get?_of_mem_keys hmem
  rw [h] at hvalue
  cases hvalue

theorem holds_iff_mem_keys : holds key register ↔ key ∈ keys register := by
  constructor
  · intro h
    obtain ⟨value, hvalue⟩ := Option.isSome_iff_exists.1 h
    exact List.mem_map_of_mem (mem_of_get? hvalue)
  · intro h
    exact Option.isSome_iff_exists.2 (exists_get?_of_mem_keys h)

theorem get?_of_mem (hkeys : (register.map (·.1)).Nodup) (h : (key, value) ∈ register) :
    get? key register = some value := by
  obtain ⟨other, hfound⟩ := exists_get?_of_mem_keys (List.mem_map_of_mem h)
  have hsame := List.inj_on_of_nodup_map hkeys (mem_of_get? hfound) h rfl
  rw [Prod.mk.injEq] at hsame
  rw [hfound, hsame.2]

theorem holds_put {other : κ} : holds other (put key value register) ↔
    other = key ∨ holds other register := by
  rw [holds, get?_put, holds]
  split
  · next hsame => simp [hsame]
  · next hne => simp [hne]

theorem put_eq_append (h : key ∉ register.map (·.1)) :
    put key value register = register ++ [(key, value)] := by
  induction register with
  | nil => rfl
  | cons entry entries ih =>
      rw [List.map_cons, List.mem_cons, not_or] at h
      rw [put, if_neg (fun hkey => h.1 hkey.symm), ih h.2, List.cons_append]

theorem mem_put {entry : κ × α} (h : entry ∈ put key value register) :
    entry = (key, value) ∨ entry ∈ register := by
  induction register with
  | nil => exact .inl (List.mem_singleton.1 h)
  | cons first entries ih =>
      rw [put] at h
      split at h
      · rcases List.mem_cons.1 h with h | h
        · exact .inl h
        · exact .inr (List.mem_cons_of_mem _ h)
      · rcases List.mem_cons.1 h with h | h
        · exact .inr (h ▸ List.mem_cons_self)
        · exact (ih h).imp_right (List.mem_cons_of_mem _)

theorem nodup_keys_put (h : (register.map (·.1)).Nodup) :
    ((put key value register).map (·.1)).Nodup := by
  have hkeys := keys_put key value register
  unfold keys at hkeys
  rw [hkeys]
  split
  · exact h
  · next hnew => exact List.nodup_append.2 ⟨h, List.nodup_singleton key, fun _ hmem _ hkey => by
      rw [List.mem_singleton.1 hkey]
      exact fun heq => hnew (heq ▸ hmem)⟩

theorem map_put_of_get? {β : Type} {view : α → β} {old : α} (hget : get? key register = some old)
    (hview : view value = view old) :
    ((put key value register).map fun entry => view entry.2) =
      register.map fun entry => view entry.2 := by
  induction register with
  | nil => cases hget
  | cons entry entries ih =>
      rw [put]
      by_cases hkey : entry.1 = key
      · have hold : entry.2 = old := by simpa [get?, hkey] using hget
        rw [if_pos hkey, List.map_cons, List.map_cons, hview, hold]
      · have hrest : get? key entries = some old := by simpa [get?, hkey] using hget
        rw [if_neg hkey, List.map_cons, List.map_cons, ih hrest]

/-! ### Registers filled from a list -/

theorem foldl_put_eq_append {pairs : List (κ × α)}
    (h : ((register ++ pairs).map (·.1)).Nodup) :
    pairs.foldl (fun register pair => put pair.1 pair.2 register) register = register ++ pairs := by
  induction pairs generalizing register with
  | nil => rw [List.foldl_nil, List.append_nil]
  | cons pair pairs ih =>
      have hnew : pair.1 ∉ register.map (·.1) := by
        rw [List.map_append, List.map_cons, List.nodup_append] at h
        intro hmem
        exact h.2.2 _ hmem _ (by simp) rfl
      rw [List.foldl_cons, put_eq_append hnew, ih (by simpa using h), List.append_assoc]
      rfl

theorem ofList_of_nodup {pairs : List (κ × α)} (h : (pairs.map (·.1)).Nodup) :
    ofList pairs = pairs := by
  unfold ofList
  rw [foldl_put_eq_append, List.nil_append]
  exact h

theorem mem_ofList {pairs : List (κ × α)} {entry : κ × α} (h : entry ∈ ofList pairs) :
    entry ∈ pairs := by
  suffices hfold : ∀ register : Register κ α,
      entry ∈ pairs.foldl (fun register pair => put pair.1 pair.2 register) register →
        entry ∈ register ∨ entry ∈ pairs from (hfold [] h).resolve_left (by simp)
  clear h
  induction pairs with
  | nil => exact fun register h => .inl h
  | cons pair pairs ih =>
      intro register h
      rcases ih _ h with h | h
      · rcases mem_put h with rfl | h
        · exact .inr List.mem_cons_self
        · exact .inl h
      · exact .inr (List.mem_cons_of_mem _ h)

theorem map_put {β : Type} (f : α → β) (key : κ) (value : α) (register : Register κ α) :
    (put key value register).map (fun entry => (entry.1, f entry.2)) =
      put key (f value) (register.map fun entry => (entry.1, f entry.2)) := by
  induction register with
  | nil => rfl
  | cons entry entries ih =>
      rw [put, List.map_cons, put, ← ih]
      split <;> rfl

theorem map_ofList {β : Type} (f : α → β) (pairs : List (κ × α)) :
    (ofList pairs).map (fun entry => (entry.1, f entry.2)) =
      ofList (pairs.map fun entry => (entry.1, f entry.2)) := by
  suffices hfold : ∀ register : Register κ α,
      (pairs.foldl (fun register pair => put pair.1 pair.2 register) register).map
          (fun entry => (entry.1, f entry.2)) =
        (pairs.map fun entry => (entry.1, f entry.2)).foldl
          (fun register pair => put pair.1 pair.2 register)
          (register.map fun entry => (entry.1, f entry.2)) from hfold []
  induction pairs with
  | nil => exact fun register => rfl
  | cons pair pairs ih =>
      intro register
      rw [List.foldl_cons, ih, List.map_cons, List.foldl_cons, map_put]

theorem mem_of_get?_ofList {pairs : List (κ × α)} (h : get? key (ofList pairs) = some value) :
    (key, value) ∈ pairs :=
  mem_ofList (mem_of_get? h)

theorem get?_ofList_of_mem {pairs : List (κ × α)} (hkeys : (pairs.map (·.1)).Nodup)
    (h : (key, value) ∈ pairs) : get? key (ofList pairs) = some value := by
  rw [ofList_of_nodup hkeys]
  exact get?_of_mem hkeys h

end StoryAtlas.Register
