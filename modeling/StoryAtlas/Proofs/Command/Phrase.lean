import StoryAtlas.Proofs.Command.Ending
import StoryAtlas.Proofs.Text.Ascii

/-!
# Phrases

A phrase is a command as an author writes it, and a series is what follows the arrows: phrases with
semicolons between them. A series is read as the commands that are meant, and it is read alike
whether a line break follows it, or nothing, or a pause with other text behind it.
-/

namespace StoryAtlas

open Text Command

/-- What stands behind the colon of a command: it fits on a line and there is nothing to trim. -/
structure Value where
  chars : List Char
  ne_nil : chars ≠ []
  trimmed : trim chars = chars
  legal : ∀ c ∈ chars, isValueChar c = true
  oneLine : '\n' ∉ chars

structure Phrase where
  name : List Char
  value : Option Value := none
  name_ne_nil : name ≠ []
  letters : ∀ c ∈ name, isLetter c = true

def Phrase.command (phrase : Phrase) : Command :=
  ⟨String.ofList (phrase.name.map Char.toUpper),
    phrase.value.map fun value => String.ofList value.chars⟩

def Phrase.written (phrase : Phrase) : List Char :=
  match phrase.value with
  | none => phrase.name
  | some value => phrase.name ++ ':' :: value.chars

def series (phrases : List Phrase) : List Char := joinWith [';'] (phrases.map Phrase.written)

def arrows : List Char := ['>', '>', '>', '>']

/-! ### Characters of a phrase -/

section Characters

variable {c : Char}

theorem isLetter_lt (h : isLetter c = true) : c.toNat < 128 := by
  simp only [isLetter, Bool.or_eq_true, beq_iff_eq] at h
  rcases h with h | rfl
  · exact isAlphanum_lt (by simp [Char.isAlphanum, h])
  · decide

theorem isBlank_of_isLetter (h : isLetter c = true) : isBlank c = false :=
  of_ascii (p := fun c => isLetter c = true → isBlank c = false) (by decide) (isLetter_lt h) h

theorem isValueChar_of_isLetter (h : isLetter c = true) : isValueChar c = true := by
  simp only [isLetter, Bool.or_eq_true, beq_iff_eq] at h
  rcases h with h | rfl
  · simp [isValueChar, Char.isAlphanum, h]
  · decide

end Characters

namespace Phrase

variable {phrase : Phrase} {phrases : List Phrase}

theorem exists_cons_written (phrase : Phrase) :
    ∃ c cs, phrase.written = c :: cs ∧ isLetter c = true := by
  obtain ⟨c, name, hname⟩ := List.exists_cons_of_ne_nil phrase.name_ne_nil
  have hletter : isLetter c = true := phrase.letters c (by simp [hname])
  cases hvalue : phrase.value with
  | none => exact ⟨c, name, by simp [written, hvalue, hname], hletter⟩
  | some value =>
      exact ⟨c, name ++ ':' :: value.chars, by simp [written, hvalue, hname], hletter⟩

theorem legal_written (phrase : Phrase) {c : Char} (h : c ∈ phrase.written) :
    isValueChar c = true ∧ c ≠ '\n' := by
  have hname : ∀ c ∈ phrase.name, isValueChar c = true ∧ c ≠ '\n' := fun c hc =>
    ⟨isValueChar_of_isLetter (phrase.letters c hc), fun heq =>
      absurd (phrase.letters c hc) (by rw [heq]; decide)⟩
  unfold written at h
  split at h
  · exact hname c h
  · next value hvalue =>
    rcases List.mem_append.1 h with h | h
    · exact hname c h
    · rcases List.mem_cons.1 h with rfl | h
      · decide
      · exact ⟨value.legal c h, fun heq => value.oneLine (heq ▸ h)⟩

theorem trim_written (phrase : Phrase) : trim phrase.written = phrase.written := by
  obtain ⟨c, cs, heq, hletter⟩ := phrase.exists_cons_written
  refine trimWhere_of_stops ?_ ?_
  · rw [heq]
    exact stops_cons.2 (isBlank_of_isLetter hletter)
  · unfold written
    split
    · intro d hd
      exact isBlank_of_isLetter (phrase.letters d (List.mem_reverse.1 (List.mem_of_mem_head? hd)))
    · next value _ =>
      have hstops := stops_reverse_trim value.chars
      rw [value.trimmed] at hstops
      have hne : value.chars.reverse ≠ [] := by simpa using value.ne_nil
      rw [List.reverse_append, List.reverse_cons, List.append_assoc]
      intro d hd
      rw [List.head?_append_of_ne_nil _ hne] at hd
      exact hstops d hd

theorem read_written (phrase : Phrase) : Command.read phrase.written = some phrase.command := by
  have hname : phrase.name.takeWhile isLetter = phrase.name :=
    List.takeWhile_eq_self_iff.2 phrase.letters
  have hrest : phrase.name.dropWhile isLetter = [] := List.dropWhile_eq_nil_iff.2 phrase.letters
  have hempty : phrase.name.isEmpty = false := by simpa using phrase.name_ne_nil
  unfold Command.read command
  rw [trim_written]
  unfold written
  cases phrase.value with
  | none => simp [hname, hrest, hempty]
  | some value =>
      have hstops : Stops isLetter (':' :: value.chars) := stops_cons.2 (by decide)
      have hvalue : value.chars.all isValueChar = true := List.all_eq_true.2 value.legal
      have hne : value.chars.isEmpty = false := by simpa using value.ne_nil
      simp only [takeWhile_append_of_stops hstops, dropWhile_append_of_stops hstops, hname, hrest,
        hempty, List.nil_append]
      simp [hvalue, value.ne_nil, value.trimmed]

theorem ofPiece_written (phrase : Phrase) :
    Part.ofPiece phrase.written = .command phrase.command := by
  obtain ⟨c, cs, heq, hletter⟩ := phrase.exists_cons_written
  have hblank : allBlank phrase.written = false := by
    simp [heq, allBlank, isBlank_of_isLetter hletter]
  rw [Part.ofPiece, if_neg (by simp [hblank]), read_written]

end Phrase

/-! ### Series -/

namespace Chain

variable {phrases : List Phrase} {c : Char}

theorem series_cons (phrase : Phrase) (hne : phrases ≠ []) :
    series (phrase :: phrases) = phrase.written ++ ';' :: series phrases := by
  rw [series, List.map_cons, joinWith_cons (by simpa using hne)]
  rfl

theorem legal_series (h : c ∈ series phrases) : isValueChar c = true ∧ c ≠ '\n' ∨ c = ';' := by
  rcases mem_joinWith h with h | ⟨piece, hpiece, hc⟩
  · exact .inr (List.mem_singleton.1 h)
  · obtain ⟨phrase, -, rfl⟩ := List.mem_map.1 hpiece
    exact .inl (phrase.legal_written hc)

theorem inLine_of_mem_series (h : c ∈ series phrases) : inLine c = true := by
  rcases legal_series h with ⟨hlegal, hline⟩ | rfl
  · have hquote : c ≠ '"' := fun heq => absurd hlegal (by rw [heq]; decide)
    simp [inLine, hline, hquote]
  · decide

theorem exists_cons_series (hne : phrases ≠ []) :
    ∃ c cs, series phrases = c :: cs ∧ isLetter c = true := by
  obtain ⟨first, others, rfl⟩ := List.exists_cons_of_ne_nil hne
  obtain ⟨c, cs, heq, hletter⟩ := first.exists_cons_written
  cases others with
  | nil => exact ⟨c, cs, heq, hletter⟩
  | cons next others =>
      refine ⟨c, cs ++ ';' :: series (next :: others), ?_, hletter⟩
      simp [series, joinWith, heq]

theorem stops_series (hne : phrases ≠ []) (after : List Char) :
    Stops isArrow (series phrases ++ after) := by
  obtain ⟨c, cs, heq, hletter⟩ := exists_cons_series hne
  rw [heq, List.cons_append, stops_cons, isArrow, beq_eq_false_iff_ne]
  rintro rfl
  exact absurd hletter (by decide)

theorem partsOf_series (hne : phrases ≠ []) :
    partsOf (series phrases) = phrases.map fun phrase => .command phrase.command := by
  have hsplit : splitAtChar ';' (series phrases) = phrases.map Phrase.written := by
    refine splitAtChar_joinWith (by simpa using hne) fun piece hpiece hmem => ?_
    obtain ⟨phrase, -, rfl⟩ := List.mem_map.1 hpiece
    exact absurd (phrase.legal_written hmem).1 (by decide)
  rw [partsOf, hsplit, List.map_map]
  exact List.map_congr_left fun phrase _ => phrase.ofPiece_written

theorem breakOn_series (phrases : List Phrase) (after : List Char) :
    breakOn pause (series phrases ++ after) =
      (breakOn pause after).map fun cut => (series phrases ++ cut.1, cut.2) := by
  have hwritten : ∀ phrase : Phrase, ';' ∉ phrase.written := fun phrase hmem =>
    absurd (phrase.legal_written hmem).1 (by decide)
  unfold pause
  induction phrases with
  | nil => simp [series, joinWith]
  | cons first others ih =>
      cases others with
      | nil => exact breakOn_append_of_not_mem (hwritten first) [' '] after
      | cons next others =>
          -- the semicolon opens no pause, since the next phrase begins with a letter
          obtain ⟨c, cs, heq, hletter⟩ := exists_cons_series (List.cons_ne_nil next others)
          have hspace :
              ¬[';', ' '].isPrefixOf (';' :: (series (next :: others) ++ after)) = true := by
            have hne : ' ' ≠ c := by
              rintro rfl
              exact absurd hletter (by decide)
            simp [heq, List.isPrefixOf, hne]
          rw [series_cons first (List.cons_ne_nil next others), List.append_assoc, List.cons_append,
            breakOn_append_of_not_mem (hwritten first), breakOn, if_neg hspace, ih,
            Option.map_map, Option.map_map]
          refine congrArg (Option.map · _) (funext fun cut => ?_)
          simp

/-- What a series says, with so many characters of the text. -/
def bodyOf (phrases : List Phrase) (length : Nat) : Body :=
  { commands := phrases.map Phrase.command, prose := [], length := length }

theorem opensWithProse_series (phrases : List Phrase) :
    opensWithProse (phrases.map fun phrase => .command phrase.command) = false := by
  cases phrases <;> rfl

theorem leading_series (phrases : List Phrase) :
    leading (phrases.map fun phrase => .command phrase.command) = phrases.map Phrase.command := by
  induction phrases with
  | nil => rfl
  | cons phrase phrases ih => simp [leading, ih]

theorem readInner_series (hne : phrases ≠ []) :
    readInner (series phrases) = some (bodyOf phrases (series phrases).length) := by
  have hcommands : (phrases.map fun phrase => Part.command phrase.command).filterMap
      Part.command? = phrases.map Phrase.command := by
    rw [List.filterMap_map]
    exact congrFun (List.filterMap_eq_map (f := Phrase.command)) phrases
  have hprose : (phrases.map fun phrase => Part.command phrase.command).filterMap
      Part.prose? = [] := by
    rw [List.filterMap_map]
    exact List.filterMap_eq_nil_iff.2 fun phrase _ => rfl
  rw [readInner, partsOf_series hne]
  simp only [opensWithProse_series, hcommands, hprose]
  rfl

theorem bodyUpTo_series (hne : phrases ≠ []) (length : Nat) :
    bodyUpTo (series phrases) length = some (bodyOf phrases length) := by
  rw [bodyUpTo, partsOf_series hne, opensWithProse_series, leading_series,
    if_neg (by simpa using hne)]
  rfl

theorem readBody_series_line (hne : phrases ≠ []) (after : List Char) :
    readBody (series phrases ++ '\n' :: after) =
      some (bodyOf phrases (series phrases).length) := by
  rw [readBody_of_mem (by simp), takeWhile_append_of_stops (stops_cons.2 rfl),
    List.takeWhile_eq_self_iff.2 fun c => inLine_of_mem_series, readInner_series hne]

theorem newline_notMem_series (phrases : List Phrase) : '\n' ∉ series phrases := fun hmem =>
  absurd (inLine_of_mem_series hmem) (by decide)

theorem inSpeech_of_mem_series {c : Char} (h : c ∈ series phrases) : inSpeech c = true :=
  inSpeech_of_inLine (inLine_of_mem_series h)

theorem readBody_series (hne : phrases ≠ []) :
    readBody (series phrases) = some (bodyOf phrases (series phrases).length) := by
  have hpause : ¬pause <:+: series phrases := by
    have hbreak := breakOn_series phrases []
    rw [List.append_nil, show breakOn pause [] = none from rfl] at hbreak
    exact breakOn_eq_none_iff.1 hbreak
  rw [readBody_of_not_mem (newline_notMem_series phrases),
    List.takeWhile_eq_self_iff.2 fun c => inSpeech_of_mem_series, readLast_of_no_pause hpause,
    bodyUpTo_series hne]

/-- A quote in the text behind the pause does not matter. -/
theorem readBody_series_pause (hne : phrases ≠ []) {after : List Char} (hline : '\n' ∉ after) :
    readBody (series phrases ++ (pause ++ after)) =
      some (bodyOf phrases (series phrases ++ pause).length) := by
  have hlines : '\n' ∉ series phrases ++ (pause ++ after) := by
    simp [newline_notMem_series, pause, hline]
  have hspoken : (series phrases ++ (pause ++ after)).takeWhile inSpeech =
      series phrases ++ (pause ++ after.takeWhile inSpeech) := by
    rw [List.takeWhile_append_of_pos fun c => inSpeech_of_mem_series,
      List.takeWhile_append_of_pos (forall_mem_of_all (by decide))]
  have hbreak : breakOn pause (series phrases ++ (pause ++ after.takeWhile inSpeech)) =
      some (series phrases, after.takeWhile inSpeech) := by
    rw [breakOn_series, pause, List.cons_append, breakOn, if_pos (by simp [List.isPrefixOf])]
    simp
  rw [readBody_of_not_mem hlines, hspoken, readLast_of_breakOn hbreak, bodyUpTo_series hne,
    List.length_append]
  rfl

end Chain

end StoryAtlas
