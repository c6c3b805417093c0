import Mathlib.Data.List.Sublists
import StoryAtlas.Chance.Reveal
import StoryAtlas.Proofs.Text.Ascii
import StoryAtlas.Proofs.Text.Scan

/-!
# What a text names, and what a node grants

The steps of the masking of texts, turned round: a text that is changed names an amount, a range
that a node shows is that of one of its effects, and a hand-over is due to the text of the child.

An amount is written anew with one space behind it whether or not the range holds it. So a text is
changed by an amount in range, and by one that another space, none or several stand behind.
-/

namespace StoryAtlas.Roll

open Text

/-! ### Amounts in a text -/

/-- Digits, blanks and the word for the stake stand in the text, and no word character stands before
or behind them. -/
def Names (cs : List Char) (stake : Stake) (digits blanks : List Char) : Prop :=
  ∃ front word after, cs = front ++ (digits ++ (blanks ++ word) ++ after) ∧
    digits ≠ [] ∧ (∀ c ∈ digits, isDigit c = true) ∧ (∀ c ∈ blanks, isBlank c = true) ∧
    word.map foldLetter = stake.word.toList ∧
    (∀ c ∈ front.getLast?, isWord c = false) ∧ Stops isWord after

/-- The text names an amount that the range holds, or one without the single space behind it. -/
def Touches (cs : List Char) (found : Stake × RollRange) : Prop :=
  ∃ digits blanks amount, Names cs found.1 digits blanks ∧ wholeOfRun digits = .ok amount ∧
    (found.2.holds amount = true ∨ blanks ≠ [' '])

section Text

variable {stake : Stake} {before : Option Char} {cs after : List Char} {mention : Mention}
  {text shown : String} {found : Stake × RollRange} {ranges : List (Stake × RollRange)}

theorem readMention_eq_some (h : readMention stake before cs = some (mention, after)) :
    ∃ blanks, cs = mention.digits ++ (blanks ++ mention.word) ++ after ∧ mention.digits ≠ [] ∧
      (∀ c ∈ mention.digits, isDigit c = true) ∧ (∀ c ∈ blanks, isBlank c = true) ∧
      mention.word.map foldLetter = stake.word.toList ∧ (∀ c ∈ before, isWord c = false) ∧
      Stops isWord after := by
  obtain ⟨rest, hrest, hread⟩ := Option.bind_eq_some_iff.1 h
  obtain ⟨word, hword, hfold⟩ := exists_append_of_dropFolded? hrest
  split at hread
  · cases hread
  · next hplain =>
    simp only [Bool.or_eq_true, not_or, Bool.not_eq_true, List.isEmpty_eq_false_iff] at hplain
    cases hread
    have htaken : ((cs.dropWhile isDigit).dropWhile isBlank).take stake.word.length = word := by
      rw [hword, ← String.length_toList, ← hfold, List.length_map, List.take_left]
    refine ⟨(cs.dropWhile isDigit).takeWhile isBlank, ?_, hplain.1.1,
      fun c => List.mem_takeWhile_imp, fun c => List.mem_takeWhile_imp, ?_, ?_, ?_⟩
    · dsimp only
      rw [htaken, List.append_assoc, List.append_assoc, ← hword, List.takeWhile_append_dropWhile,
        List.takeWhile_append_dropWhile]
    · rw [htaken, hfold]
    · rintro c rfl
      exact hplain.1.2
    · intro c hc
      have hafter := hplain.2
      rw [Option.mem_def.1 hc] at hafter
      exact hafter

theorem fold_lt {c : Char} (h : foldLetter c ∈ stake.word.toList) : c.toNat < 128 := by
  have hword : ∀ d ∈ stake.word.toList, d.toNat < 128 :=
    forall_mem_of_all (by cases stake <;> decide)
  unfold foldLetter at h
  split at h
  · cases stake <;> exact absurd h (by decide)
  split at h
  · cases stake <;> exact absurd h (by decide)
  split at h
  · cases stake <;> exact absurd h (by decide)
  · by_contra hlarge
    rw [toLower_of_le (Nat.le_of_not_lt hlarge)] at h
    exact hlarge (hword c h)

theorem letter_of_fold {c : Char} (h : foldLetter c ∈ stake.word.toList) :
    isDigit c = false ∧ isBlank c = false :=
  of_ascii (p := fun c => foldLetter c ∈ stake.word.toList → isDigit c = false ∧ isBlank c = false)
    (by cases stake <;> decide) (fold_lt h) h

theorem isDigit_of_isBlank {c : Char} (h : isBlank c = true) : isDigit c = false := by
  have hapart : ∀ range ∈ blankRanges, ∀ first ∈ digitZeros,
      range.2 < first ∨ first + 10 ≤ range.1 := by decide
  obtain ⟨range, hrange, hlow, hhigh⟩ := inRanges_iff.1 h
  rw [isDigit, digitValue?, Option.isSome_map, Option.isSome_eq_false_iff,
    Option.isNone_iff_eq_none, List.find?_eq_none]
  intro first hfirst
  have hside := hapart range hrange first hfirst
  simp only [Bool.and_eq_true, decide_eq_true_eq, not_and]
  omega

theorem cut_of_names {digits blanks : List Char} (h : Names cs stake digits blanks) :
    ∃ back ∈ cs.tails, back.takeWhile isDigit = digits ∧ digits ≠ [] ∧
      (back.dropWhile isDigit).takeWhile isBlank = blanks ∧
      (dropFolded? stake.word.toList
        ((back.dropWhile isDigit).dropWhile isBlank)).isSome = true := by
  obtain ⟨front, word, after, rfl, hne, hdigits, hblanks, hword, -, -⟩ := h
  have hfirst : ∀ c ∈ (word ++ after).head?, isDigit c = false ∧ isBlank c = false := by
    intro c hc
    cases word with
    | nil => cases stake <;> exact absurd hword (by decide)
    | cons d word =>
        obtain rfl := Option.some.inj hc
        exact letter_of_fold (hword ▸ List.mem_map_of_mem List.mem_cons_self)
  have hstops : Stops isDigit (blanks ++ (word ++ after)) := by
    intro c hc
    cases blanks with
    | nil => exact (hfirst c hc).1
    | cons b blanks =>
        obtain rfl := Option.some.inj hc
        exact isDigit_of_isBlank (hblanks b List.mem_cons_self)
  have hrest : (digits ++ (blanks ++ (word ++ after))).dropWhile isDigit =
      blanks ++ (word ++ after) := by
    rw [List.dropWhile_append_of_pos hdigits, dropWhile_of_stops hstops]
  have hspoken : Stops isBlank (word ++ after) := fun c hc => (hfirst c hc).2
  have htail : digits ++ (blanks ++ (word ++ after)) <:+
      front ++ (digits ++ (blanks ++ word) ++ after) := ⟨front, by simp⟩
  refine ⟨_, (List.mem_tails _ _).2 htail, ?_, hne, ?_, ?_⟩
  · rw [List.takeWhile_append_of_pos hdigits, takeWhile_of_stops hstops, List.append_nil]
  · rw [hrest, List.takeWhile_append_of_pos hblanks, takeWhile_of_stops hspoken, List.append_nil]
  · rw [hrest, List.dropWhile_append_of_pos hblanks, dropWhile_of_stops hspoken,
      dropFolded?_append hword]
    rfl

/-- A text that is changed names an amount. -/
theorem touches_of_maskText (h : maskText text found = .ok shown) (hne : shown ≠ text) :
    Touches text.toList found := by
  obtain ⟨pieces, hpieces, h⟩ := bind_eq_ok.1 h
  cases h
  have hfound : ∀ before cs mention rest, readMention found.1 before cs = some (mention, rest) →
      ∃ consumed, cs = consumed ++ rest ∧ 1 < consumed.length := by
    intro before cs mention rest hread
    obtain ⟨blanks, heq, hdigits, -, -, hword, -⟩ := readMention_eq_some hread
    refine ⟨_, heq, ?_⟩
    have hlong := List.length_pos_of_ne_nil hdigits
    have hletters : 0 < mention.word.length := by
      rw [← List.length_map (f := foldLetter), hword]
      cases found.1 <;> decide
    simp only [List.length_append]
    omega
  have hchanged : pieces.flatten ≠ text.toList := fun heq => hne (by rw [heq, String.ofList_toList])
  obtain ⟨front, consumed, rest, mention, other, heq, hread, hother, hdiff⟩ :=
    exists_changed (fun _ => rfl) hfound (map_eq_ok.2 ⟨pieces, hpieces, rfl⟩) hchanged
  obtain ⟨blanks, hconsumed, hdigits, hall, hblanks, hword, hfront, hstops⟩ :=
    readMention_eq_some hread
  obtain ⟨amount, hamount, hother⟩ := bind_eq_ok.1 hother
  have htaken : consumed = mention.digits ++ (blanks ++ mention.word) :=
    List.append_cancel_right hconsumed
  refine ⟨mention.digits, blanks, amount, ⟨front, mention.word, rest, ?_, hdigits, hall, hblanks,
    hword, ?_, hstops⟩, hamount, ?_⟩
  · rw [heq, htaken]
  · simpa using hfront
  · split at hother
    · next hholds => exact .inl hholds
    · refine .inr fun hspace => ?_
      cases hother
      exact hdiff (by rw [htaken, hspace]; rfl)

theorem touches_of_foldlM {text shown : String}
    (h : ranges.foldlM maskText text = .ok shown) (hne : shown ≠ text) :
    ∃ found ∈ ranges, Touches text.toList found := by
  induction ranges with
  | nil =>
      cases h
      exact absurd rfl hne
  | cons found ranges ih =>
      rw [List.foldlM_cons] at h
      obtain ⟨next, hnext, hrest⟩ := bind_eq_ok.1 h
      by_cases hsame : next = text
      · obtain ⟨later, hlater, htouches⟩ := ih (hsame ▸ hrest)
        exact ⟨later, List.mem_cons_of_mem found hlater, htouches⟩
      · exact ⟨found, List.mem_cons_self, touches_of_maskText hnext hsame⟩

end Text

/-! ### Ranges of a node -/

/-- The effect grants an amount of the stake from the range. -/
def Grants (effect : String) (found : Stake × RollRange) : Prop :=
  ∃ least most, readBounds found.1 effect.toList = some (least, most) ∧
    wholeOfRun least = .ok found.2.least ∧ wholeOfRun most = .ok found.2.most

section Ranges

variable {effects : List String} {text shown : String} {stakes : List Stake} {stake : Stake}
  {found : Stake × RollRange} {ranges : List (Stake × RollRange)} {beat child received : Beat}
  {own handed : Revealed}

theorem exists_of_grantedRange (h : grantedRange effects stake = .ok (some found)) :
    found.1 = stake ∧ ∃ effect ∈ effects, Grants effect found := by
  unfold grantedRange at h
  split at h
  · next least most hbounds =>
    obtain ⟨effect, heffect, hread⟩ := List.exists_of_findSome?_eq_some hbounds
    obtain ⟨low, hlow, h⟩ := bind_eq_ok.1 h
    obtain ⟨high, hhigh, h⟩ := bind_eq_ok.1 h
    cases h
    exact ⟨rfl, effect, heffect, least, most, hread, hlow, hhigh⟩
  · cases h

theorem maskOwn_eq_ok (h : maskOwn effects text stakes = .ok (ranges, shown)) :
    (ranges.map Prod.fst).Sublist stakes ∧
      ∀ found ∈ ranges, ∃ effect ∈ effects, Grants effect found := by
  induction stakes generalizing text ranges shown with
  | nil =>
      cases h
      exact ⟨List.Sublist.slnil, by simp⟩
  | cons stake stakes ih =>
      obtain ⟨granted, hgranted, h⟩ := bind_eq_ok.1 h
      cases granted with
      | none =>
          obtain ⟨hstakes, hall⟩ := ih h
          exact ⟨hstakes.cons stake, hall⟩
      | some found =>
          obtain ⟨marked, -, h⟩ := bind_eq_ok.1 h
          obtain ⟨⟨others, last⟩, hothers, h⟩ := bind_eq_ok.1 h
          cases h
          obtain ⟨hstakes, hall⟩ := ih hothers
          obtain ⟨rfl, hfound⟩ := exists_of_grantedRange hgranted
          exact ⟨hstakes.cons_cons found.1, List.forall_mem_cons.2 ⟨hfound, hall⟩⟩

/-- What a beat shows of its own: its effects stay, and each range is that of one of them. -/
theorem revealBeat_eq_ok (h : revealBeat beat = .ok own) :
    own.beat.effects = beat.effects ∧ (own.ranges.map Prod.fst).Nodup ∧
      ∀ found ∈ own.ranges, ∃ effect ∈ beat.effects, Grants effect found := by
  unfold revealBeat at h
  split at h
  · split at h
    · cases h
      simp
    · obtain ⟨⟨ranges, shown⟩, hmasked, h⟩ := bind_eq_ok.1 h
      obtain ⟨hstakes, hall⟩ := maskOwn_eq_ok hmasked
      have hnodup : (ranges.map Prod.fst).Nodup := hstakes.nodup (by decide)
      dsimp only at h
      split at h <;> cases h <;> exact ⟨rfl, hnodup, hall⟩
  · cases h
    simp

/-- A hand-over is due to the text of the child. -/
structure Due (own : Revealed) (child : Beat) : Prop where
  dialogue : child.kind = .dialogue
  text : ∃ text, present child.text = some text ∧ ∃ found ∈ own.ranges, Touches text.toList found

def Revealed.grants (own : Revealed) : List String := own.ranges.map grant

def Revealed.taken (own : Revealed) : List String :=
  own.beat.effects.filter fun effect => own.grants.contains effect

theorem present_eq_some {text : Option String} {shown : String} (h : present text = some shown) :
    text = some shown := by
  unfold present at h
  split at h
  · split at h
    · cases h
    · exact h
  · cases h

/-- Either nothing passes from a node to its child, or all grants do and the text is changed. -/
theorem handOver_eq_ok (h : handOver own child = .ok (handed, received)) :
    (handed = own ∧ received = child) ∨
      (Due own child ∧ received ≠ child ∧ received.effects = child.effects ++ own.grants ∧
        handed.beat.effects =
          own.beat.effects.filter fun effect => !own.grants.contains effect) := by
  unfold handOver at h
  split at h
  · next text htext =>
    split at h
    · cases h
      exact .inl ⟨rfl, rfl⟩
    · next hgives =>
      simp only [Bool.or_eq_true, not_or, bne_iff_ne, ne_eq, not_not] at hgives
      obtain ⟨shown, hshown, h⟩ := bind_eq_ok.1 h
      split at h
      · cases h
        exact .inl ⟨rfl, rfl⟩
      · next hne =>
        cases h
        have hdue : Due own child := ⟨hgives.2, text, htext, touches_of_foldlM hshown hne⟩
        refine .inr ⟨hdue, fun hsame => ?_, rfl, rfl⟩
        have hkept : some shown = child.text := congrArg Beat.text hsame
        rw [present_eq_some htext] at hkept
        exact hne (Option.some.inj hkept)
  · cases h
    exact .inl ⟨rfl, rfl⟩

end Ranges

end StoryAtlas.Roll
