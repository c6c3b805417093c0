import StoryAtlas.Markup.Clean

/-!
# Choice gates

A choice label may begin with gates: conditions under which the choice is open, each closed by a
semicolon. A gate is a name in small letters, negated by an exclamation mark in front, with an
optional value after a colon. What follows the last gate is the label that the player reads.
-/

namespace StoryAtlas

/-- The conditions of a choice and its label. -/
structure ChoiceLabel where
  requirements : List String := []
  text : String := ""
deriving DecidableEq, Repr

namespace ChoiceLabel

open Text

/-- How a condition is shown among the requirements. -/
def showGate : List Char → String
  | '!' :: gate => "NOT " ++ String.ofList gate
  | gate => String.ofList gate

def isGateLetter (c : Char) : Bool := 'a' ≤ c && c ≤ 'z'

/-- The name, the value with its colon, and the rest after the semicolon. -/
def readCondition (cs : List Char) : Option (List Char × List Char) :=
  let name := cs.takeWhile isGateLetter
  if name.isEmpty then none
  else
    match cs.dropWhile isGateLetter with
    | ';' :: rest => some (name, rest)
    | ':' :: tail =>
      match tail.takeWhile (· != ';'), tail.dropWhile (· != ';') with
      | c :: value, _ :: rest => some (name ++ ':' :: c :: value, rest)
      | _, _ => none
    | _ => none

def readGate : List Char → Option (List Char × List Char)
  | '!' :: cs => (readCondition cs).map fun (gate, rest) => ('!' :: gate, rest)
  | cs => readCondition cs

theorem length_trim_le (cs : List Char) : (trim cs).length ≤ cs.length := by
  have front := (List.dropWhile_sublist isBlank (l := cs)).length_le
  have back := (List.dropWhile_sublist isBlank (l := (cs.dropWhile isBlank).reverse)).length_le
  simp only [trim, trimWhere, List.length_reverse] at *
  omega

theorem length_lt_of_readCondition {cs gate rest : List Char}
    (h : readCondition cs = some (gate, rest)) : rest.length < cs.length := by
  have tail := (List.dropWhile_sublist isGateLetter (l := cs)).length_le
  unfold readCondition at h
  simp only at h
  split at h
  · simp at h
  · split at h
    · next after hdrop =>
      simp only [Option.some.injEq, Prod.mk.injEq] at h
      rw [hdrop, h.2] at tail
      simp only [List.length_cons] at tail
      omega
    · next after hdrop =>
      split at h
      · next hvalue =>
        simp only [Option.some.injEq, Prod.mk.injEq] at h
        have inner := (List.dropWhile_sublist (· != ';') (l := after)).length_le
        rw [hvalue, h.2] at inner
        rw [hdrop] at tail
        simp only [List.length_cons] at tail inner
        omega
      · simp at h
    · simp at h

theorem length_lt_of_readGate {cs gate rest : List Char} (h : readGate cs = some (gate, rest)) :
    rest.length < cs.length := by
  unfold readGate at h
  split at h
  · obtain ⟨⟨inner, after⟩, found, hpair⟩ := Option.map_eq_some_iff.1 h
    simp only [Prod.mk.injEq] at hpair
    have := length_lt_of_readCondition found
    rw [← hpair.2]
    simp only [List.length_cons]
    omega
  · exact length_lt_of_readCondition h

/-- The gates at the front and the label behind them. -/
def split (cs : List Char) : List (List Char) × List Char :=
  match _h : readGate cs with
  | some (gate, rest) =>
    let later := split (trim rest)
    (gate :: later.1, later.2)
  | none => ([], cs)
termination_by cs.length
decreasing_by
  have := length_lt_of_readGate _h
  have := length_trim_le rest
  omega

def ofText (text : String) : ChoiceLabel :=
  let parts := split text.toList
  { requirements := parts.1.map showGate
    text := String.ofList (Markup.cleanChars parts.2) }

end ChoiceLabel

end StoryAtlas
