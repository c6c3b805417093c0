import StoryAtlas.Chance.Range
import StoryAtlas.Proofs.Attempt
import StoryAtlas.Proofs.Text.Ascii
import StoryAtlas.Proofs.Text.Scan

/-!
# Ranges as they are shown, commands as they are found

The label of a range is made of digits and a few marks, none of which is found in a command. A
command for a stake is found where the word for the stake, in any case, a colon and an amount stand
that no word character follows.
-/

namespace StoryAtlas

theorem mem_toString {number : Int} {c : Char} (h : c ∈ (toString number).toList) :
    c = '-' ∨ c.isDigit = true := by
  have hdigit : ∀ {n : Nat}, c ∈ n.repr.toList → c.isDigit = true := by
    intro n hn
    rw [Nat.toList_repr] at hn
    exact Nat.isDigit_of_mem_toDigits (by decide) (by decide) hn
  rw [Int.toString_eq_repr, Int.repr_eq_if] at h
  split at h
  · exact .inr (hdigit h)
  · rw [String.toList_append, List.mem_append] at h
    rcases h with h | h
    · exact .inl (List.mem_singleton.1 h)
    · exact .inr (hdigit h)

namespace RollRange

theorem toList_label (range : RollRange) :
    range.label.toList = "random [".toList ++ ((toString range.least).toList ++
      (" - ".toList ++ ((toString range.most).toList ++ [']']))) := by
  simp [label, String.toList_append]

theorem label_ne_nil (range : RollRange) : range.label.toList ≠ [] := by
  simp [toList_label]

theorem label_not_digits (range : RollRange) : ¬∀ c ∈ range.label.toList, c.isDigit = true := by
  intro h
  have hfirst := h 'r' (by simp [toList_label])
  revert hfirst
  decide

def labelMarks : List Char := "random [-]".toList

theorem mem_label {range : RollRange} {c : Char} (h : c ∈ range.label.toList) :
    c ∈ labelMarks ∨ c.isDigit = true := by
  have hnumber : ∀ {number : Int}, c ∈ (toString number).toList →
      c ∈ labelMarks ∨ c.isDigit = true := fun h =>
    (mem_toString h).imp_left (by rintro rfl; decide)
  have hfixed : ∀ marks : List Char, (∀ d ∈ marks, d ∈ labelMarks) → c ∈ marks →
      c ∈ labelMarks ∨ c.isDigit = true := fun marks hmarks hc => .inl (hmarks c hc)
  simp only [toList_label, List.mem_append] at h
  rcases h with h | h | h | h | h
  · exact hfixed "random [".toList (Text.forall_mem_of_all (by decide)) h
  · exact hnumber h
  · exact hfixed " - ".toList (Text.forall_mem_of_all (by decide)) h
  · exact hnumber h
  · exact hfixed [']'] (Text.forall_mem_of_all (by decide)) h

end RollRange

namespace Roll

open Text

variable {stake : Stake} {before : Option Char} {cs rest : List Char}
  {found : List Char × List Char}

def written (found : List Char × List Char) : List Char := found.1 ++ ':' :: found.2

theorem readCommand_eq_some (h : readCommand stake before cs = some (found, rest)) :
    cs = written found ++ rest ∧ found.1.map foldLetter = stake.word.toList ∧ found.2 ≠ [] ∧
      ∀ c ∈ found.2, isDigit c = true := by
  obtain ⟨tail, htail, h⟩ := Option.bind_eq_some_iff.1 h
  obtain ⟨word, rfl, hword⟩ := exists_append_of_dropFolded? htail
  have hlength : stake.word.length = word.length := by
    rw [← String.length_toList, ← hword, List.length_map]
  dsimp only at h
  split at h
  · next tail =>
    split at h
    · cases h
    · next hdigits =>
      cases h
      rw [Bool.or_eq_true, not_or, List.isEmpty_iff] at hdigits
      rw [written, hlength, List.take_left, List.append_assoc, List.cons_append,
        List.takeWhile_append_dropWhile]
      exact ⟨rfl, hword, hdigits.1, fun c => List.mem_takeWhile_imp⟩
  · cases h

theorem readCommand_written (hword : found.1.map foldLetter = stake.word.toList)
    (hne : found.2 ≠ []) (hdigits : ∀ c ∈ found.2, isDigit c = true) (hstops : Stops isWord rest)
    (hend : Stops isDigit rest) :
    readCommand stake before (written found ++ rest) = some (found, rest) := by
  have hlength : stake.word.length = found.1.length := by
    rw [← String.length_toList, ← hword, List.length_map]
  have htake : (found.2 ++ rest).takeWhile isDigit = found.2 := by
    rw [takeWhile_append_of_stops hend, List.takeWhile_eq_self_iff.2 hdigits]
  have hdrop : (found.2 ++ rest).dropWhile isDigit = rest := by
    rw [dropWhile_append_of_stops hend, List.dropWhile_eq_nil_iff.2 hdigits, List.nil_append]
  have hafter : (rest.head?.map isWord).getD false = false := by
    cases rest with
    | nil => rfl
    | cons c rest => exact stops_cons.1 hstops
  rw [written, List.append_assoc, List.cons_append, readCommand, dropFolded?_append hword]
  simp only [Option.bind_eq_bind, Option.bind_some, htake, hdrop, hafter, Bool.or_false,
    List.isEmpty_iff, hne, if_false, hlength, List.take_left]

end Roll

end StoryAtlas
