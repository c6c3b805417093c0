import StoryAtlas.Proofs.Chance.Range
import StoryAtlas.Proofs.Command.Phrase

/-!
# Ranges in a line of commands

The masking of a line looks for commands anywhere in its text. On a line that is a series of phrases
in capitals it finds those whose name ends with the command of the stake, and the line that it
leaves is again a series: the same phrases, with the label of a range in the place of a number.
-/

namespace StoryAtlas

open Text Command Roll

def isCapital (c : Char) : Bool := c.isUpper || c == '_'

namespace Value

def Numeral (value : Value) : Prop :=
  (∀ c ∈ value.chars, c.isDigit = true) ∧ value.chars.length ≤ digitLimit

def number (value : Value) : Int := readDigits (value.chars.filterMap digitValue?)

theorem wholeOfRun_of_numeral {value : Value} (h : value.Numeral) :
    wholeOfRun value.chars = .ok value.number := by
  have hlength : ¬digitLimit < (value.chars.filterMap digitValue?).length := by
    have hle := List.length_filterMap_le digitValue? value.chars
    have hlimit := h.2
    omega
  rw [wholeOfRun, readRun]
  simp only [hlength, if_false]
  rfl

def ofRange (range : RollRange) : Value where
  chars := range.label.toList
  ne_nil := range.label_ne_nil
  trimmed := by
    rw [range.toList_label]
    refine trimWhere_of_stops (stops_cons.2 (by decide)) ?_
    simp only [List.reverse_append, List.append_assoc, List.reverse_singleton,
      List.singleton_append]
    exact stops_cons.2 (by decide)
  legal c hc := by
    rcases range.mem_label hc with hmark | hdigit
    · have hmarks : ∀ d ∈ RollRange.labelMarks, isValueChar d = true :=
        forall_mem_of_all (by decide)
      exact hmarks c hmark
    · simp [isValueChar, Char.isAlphanum, hdigit]
  oneLine hmem := by
    rcases range.mem_label hmem with hmark | hdigit
    · exact absurd hmark (by decide)
    · exact absurd hdigit (by decide)

/-- The range in the place of a number that it holds. -/
def shown (ranges : List RollRange) (value : Value) : Value :=
  (source ranges value.number).elim value ofRange

def masked (stake : Stake) (ranges : List RollRange) (name : List Char) (value : Value) : Value :=
  if stake.command.toList <:+ name ∧ value.chars.all Char.isDigit = true then value.shown ranges
  else value

end Value

namespace Phrase

def masked (stake : Stake) (ranges : List RollRange) (phrase : Phrase) : Phrase :=
  { phrase with value := phrase.value.map (Value.masked stake ranges phrase.name) }

/-- The phrase is in capitals, and its value is a number or the label of a range. -/
structure Tame (phrase : Phrase) : Prop where
  capitals : ∀ c ∈ phrase.name, isCapital c = true
  value : ∀ value ∈ phrase.value, value.Numeral ∨ ∃ range, value = Value.ofRange range

theorem Tame.colon_notMem {phrase : Phrase} (h : phrase.Tame) :
    ∀ value ∈ phrase.value, ':' ∉ value.chars := by
  intro value hvalue hmem
  rcases h.value value hvalue with hnumeral | ⟨range, rfl⟩
  · exact absurd (hnumeral.1 _ hmem) (by decide)
  · rcases range.mem_label hmem with hmark | hdigit
    · exact absurd hmark (by decide)
    · exact absurd hdigit (by decide)

theorem Tame.masked {phrase : Phrase} (h : phrase.Tame) (stake : Stake) (ranges : List RollRange) :
    (phrase.masked stake ranges).Tame where
  capitals := h.capitals
  value value hvalue := by
    obtain ⟨old, hold, rfl⟩ := Option.map_eq_some_iff.1 hvalue
    unfold Value.masked
    split
    · unfold Value.shown
      cases source ranges old.number with
      | none => exact h.value old hold
      | some range => exact .inr ⟨range, rfl⟩
    · exact h.value old hold

end Phrase

/-! ### What is found in a phrase -/

namespace Roll

section Find

variable {stake : Stake} {before : Option Char} {c : Char} {cs after rest name value : List Char}
  {found : List Char × List Char}

/-- The line ends here, or the next phrase begins. -/
def Ends (after : List Char) : Prop := after = [] ∨ ∃ rest, after = ';' :: rest

theorem Ends.stops {p : Char → Bool} (h : Ends after) (hp : p ';' = false) : Stops p after := by
  rcases h with rfl | ⟨rest, rfl⟩
  · simp [Stops]
  · exact stops_cons.2 hp

theorem colon_notMem_of_fold {shown : List Char} (h : shown.map foldLetter = stake.word.toList) :
    ':' ∉ shown := by
  intro hmem
  have hfold : foldLetter ':' ∈ stake.word.toList := h ▸ List.mem_map_of_mem hmem
  revert hfold
  cases stake <;> decide

theorem readCommand_of_foreign (h : foldLetter c ∉ stake.word.toList) :
    readCommand stake before (c :: cs) = none := by
  rw [Option.eq_none_iff_forall_ne_some]
  rintro ⟨⟨word, digits⟩, rest⟩ hread
  obtain ⟨heq, hword, -⟩ := readCommand_eq_some hread
  cases word with
  | nil =>
      have hne : stake.word.toList ≠ [] := by cases stake <;> decide
      exact hne hword.symm
  | cons d word =>
      rw [written, List.cons_append, List.cons_append] at heq
      rw [(List.cons.inj heq).1] at h
      exact h (hword ▸ List.mem_map_of_mem List.mem_cons_self)

theorem readCommand_of_no_colon (h : ':' ∉ cs) (hends : Ends after) :
    readCommand stake before (cs ++ after) = none := by
  rw [Option.eq_none_iff_forall_ne_some]
  rintro ⟨⟨word, digits⟩, rest⟩ hread
  obtain ⟨heq, hword, -⟩ := readCommand_eq_some hread
  rw [written, List.append_assoc, List.cons_append, List.append_eq_append_iff] at heq
  rcases heq with ⟨middle, rfl, hafter⟩ | ⟨middle, rfl, hmiddle⟩
  · rcases hends with rfl | ⟨tail, rfl⟩
    · simp at hafter
    · -- the word would have to go on with the semicolon
      rcases middle with - | ⟨d, middle⟩
      · cases hafter
      · obtain ⟨rfl, -⟩ := List.cons.inj hafter
        have hfold : foldLetter ';' ∈ stake.word.toList :=
          hword ▸ List.mem_map_of_mem (List.mem_append_right _ List.mem_cons_self)
        revert hfold
        cases stake <;> decide
  · rcases middle with - | ⟨d, middle⟩
    · rcases hends with rfl | ⟨tail, rfl⟩ <;> cases hmiddle
    · obtain ⟨rfl, -⟩ := List.cons.inj hmiddle
      exact h (List.mem_append_right _ List.mem_cons_self)

theorem map_fold_command : stake.command.toList.map foldLetter = stake.word.toList := by
  cases stake <;> decide

theorem isCapital_lt (h : isCapital c = true) : c.toNat < 128 := by
  simp only [isCapital, Bool.or_eq_true, beq_iff_eq] at h
  rcases h with h | rfl
  · exact isUpper_lt h
  · decide

theorem toUpper_of_isCapital (h : isCapital c = true) : c.toUpper = c :=
  of_ascii (p := fun c => isCapital c = true → c.toUpper = c) (by decide) (isCapital_lt h) h

theorem map_toUpper (h : ∀ c ∈ name, isCapital c = true) : name.map Char.toUpper = name := by
  have hupper : ∀ c ∈ name, c.toUpper = id c := fun c hc => toUpper_of_isCapital (h c hc)
  rw [List.map_congr_left hupper, List.map_id]

theorem toUpper_foldLetter (h : isCapital c = true) : (foldLetter c).toUpper = c :=
  of_ascii (p := fun c => isCapital c = true → (foldLetter c).toUpper = c) (by decide)
    (isCapital_lt h) h

/-- In capitals the word for a stake is its command. -/
theorem eq_command (h : ∀ c ∈ name, isCapital c = true)
    (hword : name.map foldLetter = stake.word.toList) : name = stake.command.toList := by
  have hupper : stake.word.toList.map Char.toUpper = stake.command.toList := by
    cases stake <;> decide
  rw [← hupper, ← hword, List.map_map]
  conv_lhs => rw [← List.map_id name]
  exact List.map_congr_left fun c hc => (toUpper_foldLetter (h c hc)).symm

/-- A command that begins at a name in capitals is that of the stake. -/
theorem readCommand_of_name (h : ∀ c ∈ name, isCapital c = true)
    (hread : readCommand stake before (name ++ ':' :: cs) = some (found, rest)) :
    name = stake.command.toList ∧ cs = found.2 ++ rest ∧ found.2 ≠ [] ∧
      ∀ c ∈ found.2, isDigit c = true := by
  obtain ⟨heq, hword, hne, hdigits⟩ := readCommand_eq_some hread
  have hcolon : ':' ∉ name := fun hmem => absurd (h _ hmem) (by decide)
  rw [written, List.append_assoc, List.cons_append] at heq
  obtain ⟨rfl, rfl⟩ := append_cons_inj hcolon (colon_notMem_of_fold hword) heq
  exact ⟨eq_command h hword, rfl, hne, hdigits⟩

end Find

/-! ### Masking, phrase by phrase -/

/-- What a text is shown as, whatever stands before it. -/
def Masks (stake : Stake) (ranges : List RollRange) (cs shown : List Char) : Prop :=
  ∀ before, ((scan (readCommand stake) before cs).mapM (showPiece ranges)).map List.flatten =
    .ok shown

section Masking

variable {stake : Stake} {ranges : List RollRange} {c : Char} {cs after rest shown out : List Char}
  {finding : List Char × List Char} {phrase : Phrase} {phrases : List Phrase}

theorem Masks.nil : Masks stake ranges [] [] := fun before => by
  rw [scan]
  rfl

theorem Masks.plain (h : Masks stake ranges cs out)
    (hnone : ∀ before, readCommand stake before (c :: cs) = none) :
    Masks stake ranges (c :: cs) (c :: out) := by
  intro before
  obtain ⟨parts, hparts, rfl⟩ := map_eq_ok.1 (h (some c))
  rw [scan_plain (hnone before), List.mapM_cons, hparts]
  rfl

theorem Masks.append {front : List Char} (h : Masks stake ranges after out)
    (hnone : ∀ c back, c :: back <:+ front →
      ∀ before, readCommand stake before (c :: back ++ after) = none) :
    Masks stake ranges (front ++ after) (front ++ out) := by
  induction front with
  | nil => exact h
  | cons c front ih =>
      refine (ih fun d back hback => hnone d back (hback.trans (List.suffix_cons c front))).plain ?_
      exact hnone c front List.suffix_rfl

theorem Masks.found (h : Masks stake ranges rest out)
    (hread : ∀ before, readCommand stake before cs = some (finding, rest))
    (hshow : showCommand ranges finding = .ok shown) : Masks stake ranges cs (shown ++ out) := by
  intro before
  have hcs := (readCommand_eq_some (hread before)).1
  obtain ⟨c, tail, htail⟩ : ∃ c tail, written finding = c :: tail :=
    List.exists_cons_of_ne_nil (by simp [written])
  rw [htail, List.cons_append] at hcs
  have hrest : rest.length ≤ (tail ++ rest).length := by simp
  obtain ⟨parts, hparts, rfl⟩ := map_eq_ok.1 (h ((tail ++ rest).take
    ((tail ++ rest).length - rest.length)).getLast?)
  rw [hcs, scan_found (hcs ▸ hread before) hrest, List.mapM_cons, hparts]
  simp only [showPiece, hshow]
  rfl

/-- A name in capitals is passed over unless it ends with the command and an amount follows. -/
theorem Masks.name {name tail : List Char} (hname : ∀ c ∈ name, isCapital c = true)
    (h : Masks stake ranges tail out)
    (hno : stake.command.toList <:+ name → Stops isDigit tail) :
    Masks stake ranges (name ++ ':' :: tail) (name ++ ':' :: out) := by
  have hcolon : Masks stake ranges (':' :: tail) (':' :: out) :=
    h.plain fun before => readCommand_of_foreign (by cases stake <;> decide)
  refine hcolon.append fun c back hback before => ?_
  rw [Option.eq_none_iff_forall_ne_some]
  rintro ⟨⟨word, digits⟩, rest⟩ hread
  obtain ⟨heq, rfl, hne, hdigits⟩ := readCommand_of_name
    (fun d hd => hname d (hback.mem hd)) hread
  obtain ⟨d, digits, rfl⟩ := List.exists_cons_of_ne_nil hne
  have hdigit := hdigits d List.mem_cons_self
  rw [stops_cons.1 (hno (heq ▸ hback))] at hdigit
  cases hdigit

/-- The command with an amount is found behind whatever its name begins with. -/
theorem Masks.command {front : List Char} {value : Value}
    (hname : ∀ c ∈ front ++ stake.command.toList, isCapital c = true)
    (hdigits : ∀ c ∈ value.chars, isDigit c = true) (hends : Ends after)
    (hshow : showCommand ranges (stake.command.toList, value.chars) = .ok shown)
    (h : Masks stake ranges after out) :
    Masks stake ranges (front ++ (written (stake.command.toList, value.chars) ++ after))
      (front ++ (shown ++ out)) := by
  have hread : ∀ before,
      readCommand stake before (written (stake.command.toList, value.chars) ++ after) =
        some ((stake.command.toList, value.chars), after) := fun before =>
    readCommand_written map_fold_command value.ne_nil hdigits
      (hends.stops (by decide +kernel)) (hends.stops (by decide))
  refine (h.found hread hshow).append fun c back hback before => ?_
  rw [Option.eq_none_iff_forall_ne_some]
  rintro ⟨⟨word, digits⟩, rest⟩ hlonger
  rw [written, List.append_assoc, List.cons_append, ← List.append_assoc] at hlonger
  have hcapitals : ∀ d ∈ c :: back ++ stake.command.toList, isCapital d = true := fun d hd =>
    hname d ((List.mem_append.1 hd).elim (fun h => List.mem_append_left _ (hback.mem h))
      (List.mem_append_right _))
  -- the command would be longer than itself
  have hlength := congrArg List.length (readCommand_of_name hcapitals hlonger).1
  simp only [List.length_append, List.length_cons] at hlength
  omega

theorem showCommand_numeral {value : Value} (h : value.Numeral) (shown : List Char) :
    showCommand ranges (shown, value.chars) =
      .ok (shown ++ ':' :: (value.shown ranges).chars) := by
  simp only [showCommand, Value.shown, Value.wholeOfRun_of_numeral h, bind, Except.bind]
  cases source ranges value.number <;> rfl

theorem stops_ofRange (range : RollRange) (after : List Char) :
    Stops isDigit ((Value.ofRange range).chars ++ after) := by
  show Stops isDigit (range.label.toList ++ after)
  rw [range.toList_label]
  exact stops_cons.2 (by decide)

theorem masks_phrase (htame : phrase.Tame) (hends : Ends after) (h : Masks stake ranges after out) :
    Masks stake ranges (phrase.written ++ after) ((phrase.masked stake ranges).written ++ out) := by
  cases hvalue : phrase.value with
  | none =>
      have hwritten : phrase.written = phrase.name := by simp [Phrase.written, hvalue]
      have hmasked : (phrase.masked stake ranges).written = phrase.name := by
        simp [Phrase.written, Phrase.masked, hvalue]
      have hcolon : ':' ∉ phrase.name := fun hmem => absurd (htame.capitals _ hmem) (by decide)
      rw [hwritten, hmasked]
      exact h.append fun c back hback before =>
        readCommand_of_no_colon (fun hmem => hcolon (hback.mem hmem)) hends
  | some value =>
      have hwritten : phrase.written ++ after = phrase.name ++ ':' :: (value.chars ++ after) := by
        simp [Phrase.written, hvalue]
      have hmasked : (phrase.masked stake ranges).written ++ out =
          phrase.name ++ ':' :: ((value.masked stake ranges phrase.name).chars ++ out) := by
        simp [Phrase.written, Phrase.masked, hvalue]
      rw [hwritten, hmasked]
      unfold Value.masked
      split
      · next hfound =>
        obtain ⟨⟨front, hfront⟩, hall⟩ := hfound
        have hdigits := List.all_eq_true.1 hall
        have hnumeral : value.Numeral := by
          refine (htame.value value hvalue).resolve_right ?_
          rintro ⟨range, rfl⟩
          exact range.label_not_digits hdigits
        have hmask := h.command (hfront ▸ htame.capitals)
          (fun c hc => isDigit_of_isDigit (hdigits c hc)) hends
          (showCommand_numeral hnumeral stake.command.toList)
        rw [← hfront]
        simpa [written] using hmask
      · next hother =>
        have hplain : Masks stake ranges (value.chars ++ after) (value.chars ++ out) :=
          h.append fun c back hback before => readCommand_of_no_colon
            (fun hmem => htame.colon_notMem value hvalue (hback.mem hmem)) hends
        refine hplain.name htame.capitals fun hsuffix => ?_
        rcases htame.value value hvalue with hnumeral | ⟨range, rfl⟩
        · exact absurd ⟨hsuffix, List.all_eq_true.2 hnumeral.1⟩ hother
        · exact stops_ofRange range after

theorem masks_series (h : ∀ phrase ∈ phrases, phrase.Tame) :
    Masks stake ranges (series phrases) (series (phrases.map (Phrase.masked stake ranges))) := by
  induction phrases with
  | nil => exact Masks.nil
  | cons first others ih =>
      have hfirst := h first List.mem_cons_self
      have hothers := ih fun phrase hphrase => h phrase (List.mem_cons_of_mem first hphrase)
      rw [List.map_cons]
      by_cases hne : others = []
      · subst hne
        have hlast : Masks stake ranges (first.written ++ [])
            ((first.masked stake ranges).written ++ []) :=
          masks_phrase hfirst (.inl rfl) Masks.nil
        rwa [List.append_nil, List.append_nil] at hlast
      · have hsemicolon : Masks stake ranges (';' :: series others)
            (';' :: series (others.map (Phrase.masked stake ranges))) :=
          hothers.plain fun before => readCommand_of_foreign (by cases stake <;> decide)
        rw [Chain.series_cons first hne, Chain.series_cons _ (by simpa using hne)]
        exact masks_phrase hfirst (.inr ⟨_, rfl⟩) hsemicolon

theorem Masks.arrows (h : Masks stake ranges after out) :
    Masks stake ranges (arrows ++ after) (arrows ++ out) := by
  refine h.append fun c back hback before => readCommand_of_foreign ?_
  have harrow : c ∈ StoryAtlas.arrows := hback.mem List.mem_cons_self
  rw [StoryAtlas.arrows] at harrow
  simp only [List.mem_cons, List.not_mem_nil, or_false, or_self] at harrow
  subst harrow
  cases stake <;> decide

end Masking

end Roll

namespace Phrase

open Roll

theorem masked_nil (stake : Stake) (phrase : Phrase) : phrase.masked stake [] = phrase := by
  have hvalue : Value.masked stake [] phrase.name = id := funext fun value => by
    simp [Value.masked, Value.shown, source]
  rw [masked, hvalue, Option.map_id, id]

def shown (table : RollTable) (phrase : Phrase) : Phrase :=
  Stake.all.foldl (fun phrase stake => phrase.masked stake (table.rangesFor stake)) phrase

end Phrase

namespace Roll

variable {table : RollTable} {phrases : List Phrase}

theorem maskStake_series (stake : Stake) (h : ∀ phrase ∈ phrases, phrase.Tame) :
    maskStake table (arrows ++ series phrases) stake =
      .ok (arrows ++ series (phrases.map (Phrase.masked stake (table.rangesFor stake)))) := by
  unfold maskStake
  dsimp only
  split
  · next hempty =>
    rw [List.isEmpty_iff.1 hempty]
    have hsame : Phrase.masked stake [] = id := funext fun phrase => phrase.masked_nil stake
    rw [hsame, List.map_id]
  · exact (masks_series h).arrows none

theorem maskLine_series (h : ∀ phrase ∈ phrases, phrase.Tame) :
    maskLine table (arrows ++ series phrases) =
      .ok (arrows ++ series (phrases.map (Phrase.shown table))) := by
  have harrows : occursIn ['>', '>', '>', '>'] (arrows ++ series phrases) = true :=
    occursIn_iff.2 (List.prefix_append arrows (series phrases)).isInfix
  have htame : ∀ phrase ∈ phrases.map (Phrase.masked .gold (table.rangesFor .gold)),
      phrase.Tame := by
    intro phrase hphrase
    obtain ⟨old, hold, rfl⟩ := List.mem_map.1 hphrase
    exact (h old hold).masked .gold _
  unfold maskLine
  split
  · next hskip =>
    rw [harrows, Bool.not_true, Bool.or_false, List.isEmpty_iff] at hskip
    have hranges : ∀ stake, table.rangesFor stake = [] := by
      rw [hskip]
      intro stake
      cases stake <;> rfl
    have hsame : Phrase.shown table = id := funext fun phrase => by
      simp [Phrase.shown, Stake.all, hranges, Phrase.masked_nil]
    rw [hsame, List.map_id]
  · rw [Stake.all, List.foldlM_cons, maskStake_series .gold h]
    show maskStake table _ .damage >>= pure = _
    rw [maskStake_series .damage htame, List.map_map]
    rfl

end Roll

end StoryAtlas
