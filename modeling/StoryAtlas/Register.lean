/-!
# Registers

A register stores values under keys and remembers in which order the keys were first used. Storing
under a known key changes its value and not its place.
-/

namespace StoryAtlas

abbrev Register (κ α : Type) := List (κ × α)

namespace Register

variable {κ α : Type} [DecidableEq κ]

def get? (key : κ) (register : Register κ α) : Option α :=
  (register.find? (·.1 = key)).map (·.2)

def put (key : κ) (value : α) : Register κ α → Register κ α
  | [] => [(key, value)]
  | entry :: entries =>
    if entry.1 = key then (key, value) :: entries else entry :: put key value entries

def keys (register : Register κ α) : List κ := register.map (·.1)

def holds (key : κ) (register : Register κ α) : Bool := (get? key register).isSome

/-- Stores the pairs one after the other. -/
def ofList (pairs : List (κ × α)) : Register κ α :=
  pairs.foldl (fun register pair => put pair.1 pair.2 register) []

theorem keys_put (key : κ) (value : α) (register : Register κ α) :
    keys (put key value register) =
      if key ∈ keys register then keys register else keys register ++ [key] := by
  induction register with
  | nil => simp [put, keys]
  | cons entry entries ih =>
    by_cases h : entry.1 = key
    · simp [put, keys, h]
    · have h' : key ≠ entry.1 := fun e => h e.symm
      simp only [keys] at ih
      simp only [put, keys, h, if_false, List.map_cons, ih, List.mem_cons, h', false_or]
      split <;> simp_all

theorem get?_put (key other : κ) (value : α) (register : Register κ α) :
    get? other (put key value register) =
      if other = key then some value else get? other register := by
  induction register with
  | nil =>
    by_cases h : key = other
    · simp [put, get?, h]
    · have h' : other ≠ key := fun e => h e.symm
      simp [put, get?, h, h']
  | cons entry entries ih =>
    by_cases h : entry.1 = key
    · by_cases ho : key = other
      · simp [put, get?, h, ho]
      · have ho' : other ≠ key := fun e => ho e.symm
        simp [put, get?, h, ho, ho']
    · simp only [get?] at ih
      simp only [put, get?, h, if_false, List.find?_cons]
      by_cases ho : entry.1 = other
      · have ho' : other ≠ key := fun e => h (ho.trans e)
        simp [ho, ho']
      · simpa [ho] using ih

end Register

end StoryAtlas
