import StoryAtlas.Proofs.Chance.Mask
import StoryAtlas.Proofs.Command.Page

/-!
# Two ways to show a range

The ranges of a story are shown in its lines before the commands are read, and in the effects once
they are. An effect is masked only if it grants the stake, while a line is masked wherever the
command is found, and it is found at the end of a longer name as well. Both ways make the same
effects of a line as long as no number in range stands behind such a name, and only then.
-/

namespace StoryAtlas

open Text Command Roll

namespace Phrase

/-- The phrase is in capitals, and its value is a number. -/
structure Counts (phrase : Phrase) : Prop where
  capitals : ∀ c ∈ phrase.name, isCapital c = true
  value : ∀ value ∈ phrase.value, value.Numeral

/-- The name merely ends with the command of a stake, and a range of the stake holds the number. -/
def Misread (table : RollTable) (phrase : Phrase) : Prop :=
  ∃ stake : Stake, stake.command.toList <:+ phrase.name ∧ phrase.name ≠ stake.command.toList ∧
    ∃ value ∈ phrase.value, ∃ range ∈ table.rangesFor stake, range.holds value.number = true

variable {table : RollTable} {lexicon : Lexicon} {stake other : Stake} {ranges : List RollRange}
  {phrase : Phrase} {value : Value} {name : List Char}

theorem Counts.tame (h : phrase.Counts) : phrase.Tame where
  capitals := h.capitals
  value value hvalue := .inl (h.value value hvalue)

/-! ### The line -/

theorem masked_of_not_suffix (h : ¬stake.command.toList <:+ phrase.name) :
    phrase.masked stake ranges = phrase := by
  have hvalue : Value.masked stake ranges phrase.name = id := funext fun value => by
    simp [Value.masked, h]
  rw [masked, hvalue, Option.map_id, id]

theorem masked_of_suffix (h : phrase.Counts) (hsuffix : stake.command.toList <:+ phrase.name)
    (hvalue : phrase.value = some value) :
    phrase.masked stake ranges = { phrase with value := some (value.shown ranges) } := by
  have hmasked : value.masked stake ranges phrase.name = value.shown ranges :=
    if_pos ⟨hsuffix, List.all_eq_true.2 (h.value value hvalue).1⟩
  rw [masked, hvalue, Option.map_some, hmasked]

/-- A name ends with the command of one stake at most. -/
theorem eq_of_suffix (h : stake.command.toList <:+ name) (hother : other.command.toList <:+ name) :
    stake = other := by
  obtain ⟨front, rfl⟩ := h
  have hlast : other.command.toList.getLast? = stake.command.toList.getLast? := by
    obtain ⟨back, hback⟩ := hother
    have hcommand : ∀ stake : Stake, stake.command.toList.getLast?.isSome = true := by
      intro stake
      cases stake <;> rfl
    have hends := congrArg List.getLast? hback
    rwa [List.getLast?_append, List.getLast?_append, Option.or_of_isSome (hcommand other),
      Option.or_of_isSome (hcommand stake)] at hends
  cases stake <;> cases other <;> first | rfl | exact absurd hlast (by decide)

theorem shown_of_suffix (h : phrase.Counts) (hsuffix : stake.command.toList <:+ phrase.name)
    (hvalue : phrase.value = some value) :
    phrase.shown table = { phrase with value := some (value.shown (table.rangesFor stake)) } := by
  have hother : ∀ other, other ≠ stake → ¬other.command.toList <:+ phrase.name := fun other hne h =>
    hne (eq_of_suffix h hsuffix)
  show (phrase.masked .gold _).masked .damage _ = _
  cases stake with
  | gold =>
      rw [masked_of_suffix h hsuffix hvalue]
      exact masked_of_not_suffix (hother .damage (by decide))
  | damage =>
      rw [masked_of_not_suffix (hother .gold (by decide)), masked_of_suffix h hsuffix hvalue]

theorem shown_of_no_suffix (h : ∀ stake : Stake, ¬stake.command.toList <:+ phrase.name) :
    phrase.shown table = phrase := by
  show (phrase.masked .gold _).masked .damage _ = _
  rw [masked_of_not_suffix (h .gold), masked_of_not_suffix (h .damage)]

theorem shown_of_no_value (h : phrase.value = none) : phrase.shown table = phrase := by
  have hmasked : ∀ stake ranges, phrase.masked stake ranges = phrase := fun stake ranges => by
    rw [masked, h, Option.map_none, ← h]
  show (phrase.masked .gold _).masked .damage _ = _
  rw [hmasked, hmasked]

end Phrase

/-! ### The effects -/

namespace Roll

variable {table : RollTable} {stake : Stake} {heading tail effect digits : List Char}

theorem exists_of_effectDigits (h : effectDigits stake effect = some digits) :
    ∃ word tail, effect = word ++ ':' :: tail ∧ word.map foldLetter = stake.word.toList := by
  obtain ⟨rest, hrest, hread⟩ := Option.bind_eq_some_iff.1 h
  obtain ⟨word, rfl, hword⟩ := exists_append_of_dropFolded? hrest
  split at hread
  · next tail => exact ⟨word, tail, rfl, hword⟩
  · cases hread

theorem effectDigits_of_no_colon (h : ':' ∉ effect) : effectDigits stake effect = none := by
  rw [Option.eq_none_iff_forall_ne_some]
  intro digits hdigits
  obtain ⟨word, tail, rfl, -⟩ := exists_of_effectDigits hdigits
  simp at h

theorem effectDigits_of_ne_command (hcapitals : ∀ c ∈ heading, isCapital c = true)
    (hne : heading ≠ stake.command.toList) :
    effectDigits stake (heading ++ ':' :: tail) = none := by
  rw [Option.eq_none_iff_forall_ne_some]
  intro digits hdigits
  obtain ⟨word, rest, heq, hword⟩ := exists_of_effectDigits hdigits
  have hcolon : ':' ∉ heading := fun hmem => absurd (hcapitals _ hmem) (by decide)
  obtain ⟨rfl, -⟩ := append_cons_inj hcolon (colon_notMem_of_fold hword) heq
  exact hne (eq_command hcapitals hword)

theorem effectDigits_numeral {value : Value} (h : value.Numeral) :
    effectDigits stake (stake.command.toList ++ ':' :: ' ' :: value.chars) = some value.chars := by
  have hdigits : ∀ c ∈ value.chars, isDigit c = true := fun c hc => isDigit_of_isDigit (h.1 c hc)
  have hblank : Stops isBlank value.chars := fun c hc =>
    isBlank_of_isDigit (h.1 c (List.mem_of_mem_head? hc))
  have hrun : (' ' :: value.chars).dropWhile isBlank = value.chars := by
    rw [List.dropWhile_cons_of_pos (by decide), dropWhile_of_stops hblank]
  rw [effectDigits, dropFolded?_append map_fold_command]
  simp only [Option.bind_eq_bind, Option.bind_some, hrun, List.takeWhile_eq_self_iff.2 hdigits,
    List.dropWhile_eq_nil_iff.2 hdigits]
  simp [value.ne_nil]

theorem maskEffect_of_none {effect : String}
    (h : ∀ stake, effectDigits stake effect.toList = none) :
    maskEffect table effect = .ok effect := by
  simp only [maskEffect, maskEffectFor, Stake.all, List.mapM_cons, List.mapM_nil, h]
  rfl

def granting (stake : Stake) (value : Value) : String :=
  stake.command ++ ": " ++ String.ofList value.chars

theorem toList_granting (stake : Stake) (value : Value) :
    (granting stake value).toList = stake.command.toList ++ ':' :: ' ' :: value.chars := by
  simp [granting, String.toList_append]

theorem isCapital_command : ∀ c ∈ stake.command.toList, isCapital c = true :=
  forall_mem_of_all (by cases stake <;> decide)

theorem maskEffectFor_granting {value : Value} (h : value.Numeral) :
    maskEffectFor table (granting stake value) stake =
      .ok ((source (table.rangesFor stake) value.number).map fun range =>
        granting stake (Value.ofRange range)) := by
  have hlabel : ∀ range : RollRange,
      granting stake (Value.ofRange range) = stake.command ++ ": " ++ range.label := fun range => by
    simp [granting, Value.ofRange]
  unfold maskEffectFor
  rw [toList_granting, effectDigits_numeral h]
  simp only [Value.wholeOfRun_of_numeral h, hlabel]
  rfl

theorem maskEffectFor_other {value : Value} {other : Stake} (h : other ≠ stake) :
    maskEffectFor table (granting stake value) other = .ok none := by
  have hne : stake.command.toList ≠ other.command.toList := by
    cases stake <;> cases other <;> first | exact absurd rfl h | decide
  unfold maskEffectFor
  rw [toList_granting, effectDigits_of_ne_command isCapital_command hne]

theorem maskEffect_granting {value : Value} (h : value.Numeral) :
    maskEffect table (granting stake value) =
      .ok (granting stake (value.shown (table.rangesFor stake))) := by
  have hmasked : Stake.all.mapM (maskEffectFor table (granting stake value)) =
      .ok (Stake.all.map fun other => if other = stake then
        (source (table.rangesFor stake) value.number).map fun range =>
          granting stake (Value.ofRange range) else none) := by
    cases stake
    · rw [Stake.all, List.mapM_cons, maskEffectFor_granting h, List.mapM_cons,
        maskEffectFor_other (by decide)]
      rfl
    · rw [Stake.all, List.mapM_cons, maskEffectFor_other (by decide), List.mapM_cons,
        maskEffectFor_granting h]
      rfl
  rw [maskEffect, hmasked]
  unfold Value.shown
  cases source (table.rangesFor stake) value.number <;> cases stake <;> rfl

theorem maskEffects_of_none {effects : List String}
    (h : ∀ effect ∈ effects, ∀ stake, effectDigits stake effect.toList = none) :
    maskEffects table effects = .ok effects := by
  unfold maskEffects
  induction effects with
  | nil => rfl
  | cons effect effects ih =>
      rw [List.mapM_cons, maskEffect_of_none (h effect List.mem_cons_self),
        ih fun other hother => h other (List.mem_cons_of_mem effect hother)]
      rfl

end Roll

/-! ### What the commands of a line stand for -/

/-- The headings of effects that a command with another name may stand for. -/
def Command.foreignHeadings : List String := ["COMBAT", "ADDKEYWORD", "ADDTYPE", "SWAPCOST"]

theorem Command.exists_heading {lexicon : Lexicon} {name value effect : String}
    (h : effect ∈ Command.effects lexicon ⟨name, some value⟩) :
    ∃ heading tail, effect.toList = heading.toList ++ ':' :: tail ∧
      (heading = name ∨ heading ∈ foreignHeadings) := by
  have hkeyword : ∀ tail : String, ∃ heading back,
      ("ADDKEYWORD:" ++ tail).toList = heading.toList ++ ':' :: back ∧
        (heading = name ∨ heading ∈ foreignHeadings) := fun tail =>
    ⟨"ADDKEYWORD", tail.toList, by simp [String.toList_append], .inr (by decide)⟩
  simp only [effects] at h
  split at h
  · obtain rfl := List.mem_singleton.1 h
    exact ⟨"COMBAT", ' ' :: value.toList, by simp [String.toList_append], .inr (by decide)⟩
  split at h
  · unfold keywordEffects at h
    split at h
    · obtain rfl := List.mem_singleton.1 h
      exact hkeyword " random"
    split at h
    · simp only [chaosEffects, List.mem_cons, List.not_mem_nil, or_false] at h
      rcases h with rfl | rfl | rfl | rfl
      · exact hkeyword " random"
      · exact hkeyword " random"
      · exact ⟨"ADDTYPE", " Corruption".toList, by decide, .inr (by decide)⟩
      · exact ⟨"SWAPCOST", " blood".toList, by decide, .inr (by decide)⟩
    split at h
    · next values _ =>
      obtain rfl := List.mem_singleton.1 h
      have htail := hkeyword (" random [" ++ Text.join ", " values ++ "]")
      rwa [← String.append_assoc, ← String.append_assoc] at htail
    · obtain rfl := List.mem_singleton.1 h
      have htail := hkeyword (" " ++ value)
      rwa [← String.append_assoc] at htail
  · obtain rfl := List.mem_singleton.1 h
    exact ⟨name, ' ' :: value.toList, by simp [String.toList_append], .inl rfl⟩

namespace Phrase

variable {table : RollTable} {lexicon : Lexicon} {stake : Stake} {phrase : Phrase} {value : Value}

theorem command_of_value (hcapitals : ∀ c ∈ phrase.name, isCapital c = true)
    (hvalue : phrase.value = some value) :
    phrase.command = ⟨String.ofList phrase.name, some (String.ofList value.chars)⟩ := by
  rw [command, hvalue, map_toUpper hcapitals]
  rfl

theorem effects_of_suffix (phrase : Phrase) (hcapitals : ∀ c ∈ phrase.name, isCapital c = true)
    (hsuffix : stake.command.toList <:+ phrase.name) (hvalue : phrase.value = some value) :
    phrase.command.effects lexicon =
      [String.ofList phrase.name ++ ": " ++ String.ofList value.chars] := by
  have hname : ∀ other : String, ¬stake.command.toList <:+ other.toList →
      String.ofList phrase.name ≠ other := by
    rintro other hother rfl
    exact hother (by rwa [String.toList_ofList])
  have hcombat : String.ofList phrase.name ∉ combatNames := by
    simp [combatNames, hname "COMBAT" (by cases stake <;> decide),
      hname "DIRECTCOMBAT" (by cases stake <;> decide)]
  rw [command_of_value hcapitals hvalue, effects]
  simp [hcombat, hname "ADDKEYWORD" (by cases stake <;> decide)]

theorem maskEffects_of_foreign (h : phrase.Counts)
    (hne : phrase.value ≠ none → ∀ stake : Stake, phrase.name ≠ stake.command.toList) :
    maskEffects table (phrase.command.effects lexicon) =
      .ok (phrase.command.effects lexicon) := by
  refine maskEffects_of_none fun effect heffect stake => ?_
  cases hvalue : phrase.value with
  | none =>
      have hname : phrase.command.effects lexicon = [String.ofList phrase.name] := by
        rw [command, hvalue, map_toUpper h.capitals]
        rfl
      rw [hname, List.mem_singleton] at heffect
      rw [heffect, String.toList_ofList]
      exact effectDigits_of_no_colon fun hmem => absurd (h.capitals _ hmem) (by decide)
  | some value =>
      rw [command_of_value h.capitals hvalue] at heffect
      obtain ⟨heading, tail, heq, hheading⟩ := exists_heading heffect
      rw [heq]
      rcases hheading with rfl | hforeign
      · rw [String.toList_ofList]
        exact effectDigits_of_ne_command h.capitals (hne (by simp [hvalue]) stake)
      · have hall : ∀ heading ∈ foreignHeadings, heading.toList.all isCapital = true ∧
            heading.toList ≠ stake.command.toList := by
          cases stake <;> decide
        exact effectDigits_of_ne_command (List.all_eq_true.1 (hall heading hforeign).1)
          (hall heading hforeign).2

theorem chars_shown_eq_iff (h : value.Numeral) (ranges : List RollRange) :
    (value.shown ranges).chars = value.chars ↔
      ∀ range ∈ ranges, ¬range.holds value.number = true := by
  unfold Value.shown
  cases hsource : source ranges value.number with
  | none => simpa using List.find?_eq_none.1 hsource
  | some range =>
      refine ⟨fun heq => ?_, fun hnone => ?_⟩
      · have hdigits := h.1
        rw [← heq] at hdigits
        exact absurd hdigits range.label_not_digits
      · exact absurd (List.find?_some hsource) (hnone range (List.mem_of_find?_eq_some hsource))

theorem not_misread_of_name (hname : phrase.name = stake.command.toList) :
    ¬phrase.Misread table := by
  rintro ⟨other, hsuffix, hne, -⟩
  have heq : other = stake := eq_of_suffix hsuffix (hname ▸ List.suffix_rfl)
  exact hne (heq ▸ hname)

theorem misread_iff (hsuffix : stake.command.toList <:+ phrase.name)
    (hne : phrase.name ≠ stake.command.toList) (hvalue : phrase.value = some value) :
    phrase.Misread table ↔
      ∃ range ∈ table.rangesFor stake, range.holds value.number = true := by
  constructor
  · rintro ⟨other, hother, -, found, hfound, hrange⟩
    obtain rfl := eq_of_suffix hother hsuffix
    obtain rfl := Option.some.inj (hvalue.symm.trans hfound)
    exact hrange
  · exact fun hrange => ⟨stake, hsuffix, hne, value, hvalue, hrange⟩

/-- Where nothing is granted, the effects of a phrase tell whether it is misread. -/
theorem effects_shown_iff (h : phrase.Counts)
    (hne : phrase.value ≠ none → ∀ stake : Stake, phrase.name ≠ stake.command.toList) :
    ((phrase.shown table).command.effects lexicon).length =
        (phrase.command.effects lexicon).length ∧
      ((phrase.shown table).command.effects lexicon = phrase.command.effects lexicon ↔
        ¬phrase.Misread table) := by
  cases hvalue : phrase.value with
  | none =>
      have hread : ¬phrase.Misread table := by
        rintro ⟨-, -, -, value, hsome, -⟩
        rw [hvalue] at hsome
        cases hsome
      simp [shown_of_no_value hvalue, hread]
  | some value =>
      by_cases hends : ∃ stake : Stake, stake.command.toList <:+ phrase.name
      · obtain ⟨stake, hsuffix⟩ := hends
        have hname := hne (by simp [hvalue]) stake
        rw [misread_iff hsuffix hname hvalue, shown_of_suffix h hsuffix hvalue,
          effects_of_suffix phrase h.capitals hsuffix hvalue,
          effects_of_suffix { phrase with value := some _ } h.capitals hsuffix rfl]
        refine ⟨rfl, ?_⟩
        rw [not_exists]
        simp only [not_and]
        rw [← chars_shown_eq_iff (h.value value hvalue)]
        simp [String.ofList_inj]
      · have hsuffix := not_exists.1 hends
        have hread : ¬phrase.Misread table := fun ⟨stake, hstake, _⟩ => hsuffix stake hstake
        simp [shown_of_no_suffix hsuffix, hread]

theorem maskEffects_phrase (table : RollTable) (lexicon : Lexicon) (h : phrase.Counts) :
    ∃ masked, maskEffects table (phrase.command.effects lexicon) = .ok masked ∧
      ((phrase.shown table).command.effects lexicon).length = masked.length ∧
      ((phrase.shown table).command.effects lexicon = masked ↔ ¬phrase.Misread table) := by
  by_cases hgrants : ∃ stake : Stake, phrase.name = stake.command.toList ∧ phrase.value ≠ none
  · obtain ⟨stake, hname, hsome⟩ := hgrants
    obtain ⟨value, hvalue⟩ := Option.ne_none_iff_exists'.1 hsome
    have hsuffix : stake.command.toList <:+ phrase.name := hname ▸ List.suffix_rfl
    have heffects : ∀ value : Value,
        [String.ofList phrase.name ++ ": " ++ String.ofList value.chars] =
          [granting stake value] := fun value => by
      rw [hname, String.ofList_toList, granting]
    rw [shown_of_suffix h hsuffix hvalue, effects_of_suffix phrase h.capitals hsuffix hvalue,
      effects_of_suffix { phrase with value := some _ } h.capitals hsuffix rfl, heffects, heffects]
    refine ⟨[granting stake (value.shown (table.rangesFor stake))], ?_, rfl, ?_⟩
    · rw [maskEffects, List.mapM_cons, maskEffect_granting (h.value value hvalue)]
      rfl
    · simpa using not_misread_of_name hname
  · have hne : phrase.value ≠ none → ∀ stake : Stake, phrase.name ≠ stake.command.toList :=
      fun hsome stake hname => hgrants ⟨stake, hname, hsome⟩
    exact ⟨_, maskEffects_of_foreign h hne, effects_shown_iff h hne⟩

end Phrase

/-! ### The whole line -/

namespace Roll

variable {table : RollTable} {lexicon : Lexicon} {phrases : List Phrase}

theorem effects_series (lexicon : Lexicon) (phrases : List Phrase) :
    (Extract.ofChars lexicon (arrows ++ series phrases)).effects =
      phrases.flatMap fun phrase => phrase.command.effects lexicon := by
  cases phrases with
  | nil =>
      have hnone : Chain.all (arrows ++ series []) = [] := by decide +kernel
      rw [Extract.ofChars, hnone]
      rfl
  | cons first others =>
      have hsaid := (PageLine.chain first others).reads_last.said
      have hcommands : (Chain.all (arrows ++ series (first :: others))).flatMap Chain.commands =
          (first :: others).map Phrase.command := hsaid
      rw [Extract.ofChars, hcommands, List.flatMap_map]

theorem maskEffects_append {front back front' back' : List String}
    (hfront : maskEffects table front = .ok front') (hback : maskEffects table back = .ok back') :
    maskEffects table (front ++ back) = .ok (front' ++ back') := by
  unfold maskEffects at hfront hback ⊢
  rw [List.mapM_append, hfront, hback]
  rfl

theorem maskEffects_phrases (table : RollTable) (lexicon : Lexicon)
    (h : ∀ phrase ∈ phrases, phrase.Counts) :
    ∃ masked, maskEffects table (phrases.flatMap fun phrase => phrase.command.effects lexicon) =
        .ok masked ∧
      ((phrases.map (Phrase.shown table)).flatMap fun phrase =>
        phrase.command.effects lexicon).length = masked.length ∧
      (((phrases.map (Phrase.shown table)).flatMap fun phrase => phrase.command.effects lexicon) =
        masked ↔ ∀ phrase ∈ phrases, ¬phrase.Misread table) := by
  induction phrases with
  | nil => exact ⟨[], rfl, rfl, by simp⟩
  | cons phrase phrases ih =>
      obtain ⟨first, hfirst, hlength, hiff⟩ :=
        Phrase.maskEffects_phrase table lexicon (h phrase List.mem_cons_self)
      obtain ⟨others, hothers, hlengths, hiffs⟩ :=
        ih fun other hother => h other (List.mem_cons_of_mem phrase hother)
      refine ⟨first ++ others, ?_, ?_, ?_⟩
      · rw [List.flatMap_cons]
        exact maskEffects_append hfirst hothers
      · simp only [List.map_cons, List.flatMap_cons, List.length_append, hlength, hlengths]
      · simp only [List.map_cons, List.flatMap_cons, List.forall_mem_cons]
        rw [← hiff, ← hiffs]
        exact ⟨fun heq => List.append_inj heq hlength, fun ⟨heq, heqs⟩ => by rw [heq, heqs]⟩

/-- The effects of the masked line are the masked effects of the line unless a phrase is misread. -/
theorem maskLine_agrees_iff (table : RollTable) (lexicon : Lexicon) {phrases : List Phrase}
    (h : ∀ phrase ∈ phrases, phrase.Counts) :
    ∃ line masked, maskLine table (arrows ++ series phrases) = .ok line ∧
      maskEffects table (Extract.ofChars lexicon (arrows ++ series phrases)).effects = .ok masked ∧
      ((Extract.ofChars lexicon line).effects = masked ↔
        ∀ phrase ∈ phrases, ¬phrase.Misread table) := by
  obtain ⟨masked, hmasked, -, hiff⟩ := maskEffects_phrases table lexicon h
  refine ⟨_, masked, maskLine_series fun phrase hphrase => (h phrase hphrase).tame, ?_, ?_⟩
  · rw [effects_series, hmasked]
  · rw [effects_series, hiff]

def marigolds : Phrase where
  name := "MARIGOLD".toList
  value := some ⟨"5".toList, by decide, by decide, forall_mem_of_all (by decide), by decide⟩
  name_ne_nil := by decide
  letters := forall_mem_of_all (by decide)

def tenCoins : RollTable := [("gold", [⟨1, 10⟩])]

theorem maskLine_agrees_iff_marigolds :
    marigolds.Counts ∧ ∃ line masked,
      maskLine tenCoins (arrows ++ series [marigolds]) = .ok line ∧
      maskEffects tenCoins (Extract.ofChars {} (arrows ++ series [marigolds])).effects =
        .ok masked ∧
      ((Extract.ofChars {} line).effects = masked ↔
        ∀ phrase ∈ [marigolds], ¬phrase.Misread tenCoins) := by
  have hcounts : marigolds.Counts := by
    refine ⟨forall_mem_of_all (by decide), fun value hvalue => ?_⟩
    obtain rfl := Option.some.inj hvalue
    exact ⟨forall_mem_of_all (by decide), by decide⟩
  exact ⟨hcounts, maskLine_agrees_iff tenCoins {} fun phrase hphrase =>
    List.mem_singleton.1 hphrase ▸ hcounts⟩

/-- The flowers are rolled for in the line, and are just flowers in the effects. -/
theorem maskLine_disagrees_marigolds :
    ∃ line masked, maskLine tenCoins (arrows ++ series [marigolds]) = .ok line ∧
      maskEffects tenCoins (Extract.ofChars {} (arrows ++ series [marigolds])).effects =
        .ok masked ∧
      (Extract.ofChars {} line).effects = ["MARIGOLD: random [1 - 10]"] ∧
      masked = ["MARIGOLD: 5"] :=
  ⟨">>>>MARIGOLD:random [1 - 10]".toList, ["MARIGOLD: 5"], eq_ok_of_toOption (by decide +kernel),
    eq_ok_of_toOption (by decide +kernel), by decide +kernel, rfl⟩

end Roll

end StoryAtlas
