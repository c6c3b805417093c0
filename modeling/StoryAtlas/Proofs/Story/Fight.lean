import Mathlib.Data.List.Infix
import StoryAtlas.Proofs.Chance.Range
import StoryAtlas.Proofs.Register
import StoryAtlas.Split.Segment
import StoryAtlas.Story.Play

/-!
# Where a fight comes from

A scene is a fight if its text mentions the command for one. What is read of a story is put together
from its lines, trimmed, with ranges for rolled amounts and line breaks between. Neither a range nor a
line break has a character of the command, so that a mention of it in what was read is a mention in a
line of the story.
-/

namespace StoryAtlas

namespace Text

variable {pattern cs : List Char}

theorem prefix_of_foreign {before between after : List Char} (hbetween : between ≠ [])
    (hforeign : ∀ c ∈ between, c ∉ pattern) (h : pattern <+: before ++ (between ++ after)) :
    pattern <+: before := by
  induction before generalizing pattern with
  | nil =>
      obtain ⟨c, between, rfl⟩ := List.exists_cons_of_ne_nil hbetween
      rcases List.prefix_cons_iff.1 h with rfl | ⟨rest, rfl, -⟩
      · exact List.nil_prefix
      · exact absurd List.mem_cons_self (hforeign c List.mem_cons_self)
  | cons c before ih =>
      rcases List.prefix_cons_iff.1 h with rfl | ⟨rest, rfl, hrest⟩
      · exact List.nil_prefix
      · rw [List.cons_prefix_cons]
        exact ⟨rfl, ih (fun d hd hmem => hforeign d hd (List.mem_cons_of_mem c hmem)) hrest⟩

theorem infix_of_foreign_append {between after : List Char} (hforeign : ∀ c ∈ between, c ∉ pattern)
    (h : pattern <:+: between ++ after) : pattern <:+: after := by
  induction between with
  | nil => exact h
  | cons c between ih =>
      have hrest := ih fun d hd => hforeign d (List.mem_cons_of_mem c hd)
      rcases List.infix_cons_iff.1 h with hfront | hlater
      · rcases List.prefix_cons_iff.1 hfront with rfl | ⟨rest, rfl, -⟩
        · exact List.nil_infix
        · exact absurd List.mem_cons_self (hforeign c List.mem_cons_self)
      · exact hrest hlater

/-- A pattern that has none of the characters in between stands before or after them. -/
theorem infix_of_foreign {before between after : List Char} (hbetween : between ≠ [])
    (hforeign : ∀ c ∈ between, c ∉ pattern) (h : pattern <:+: before ++ (between ++ after)) :
    pattern <:+: before ∨ pattern <:+: after := by
  induction before with
  | nil => exact .inr (infix_of_foreign_append hforeign h)
  | cons c before ih =>
      rcases List.infix_cons_iff.1 h with hfront | hlater
      · exact .inl (prefix_of_foreign hbetween hforeign hfront).isInfix
      · exact (ih hlater).imp_left fun hbefore => hbefore.trans (List.suffix_cons c before).isInfix

theorem isInfix_trimWhere (drops : Char → Bool) (cs : List Char) : trimWhere drops cs <:+: cs := by
  have hback : trimWhere drops cs <+: cs.dropWhile drops := by
    rw [trimWhere, ← List.reverse_suffix, List.reverse_reverse]
    exact List.dropWhile_suffix drops
  exact hback.isInfix.trans (List.dropWhile_suffix drops).isInfix

/-- A pattern without the separator stands in one of the pieces that were joined. -/
theorem infix_of_joinWith {separator : Char} {pieces : List (List Char)} (hpattern : pattern ≠ [])
    (hseparator : separator ∉ pattern) (h : pattern <:+: joinWith [separator] pieces) :
    ∃ piece ∈ pieces, pattern <:+: piece := by
  induction pieces with
  | nil => exact absurd (List.infix_nil.1 h) hpattern
  | cons piece pieces ih =>
      cases pieces with
      | nil => exact ⟨piece, List.mem_cons_self, h⟩
      | cons next others =>
          rw [joinWith_cons (List.cons_ne_nil next others)] at h
          rcases infix_of_foreign (by simp) (by simpa using hseparator) h with hfirst | hlater
          · exact ⟨piece, List.mem_cons_self, hfirst⟩
          · obtain ⟨found, hfound, hwithin⟩ := ih hlater
            exact ⟨found, List.mem_cons_of_mem piece hfound, hwithin⟩

end Text

/-! ### Ranges for rolled amounts -/

namespace Roll

open Text

variable {pattern line shown : List Char} {stake : Stake} {ranges : List RollRange}

theorem showCommand_cases {found : List Char × List Char} (h : showCommand ranges found = .ok shown) :
    shown = written found ∨
      ∃ range : RollRange, shown = found.1 ++ ':' :: range.label.toList := by
  obtain ⟨amount, -, h⟩ := bind_eq_ok.1 h
  split at h
  · next range _ => exact .inr ⟨range, (Except.ok.inj h).symm⟩
  · exact .inl (Except.ok.inj h).symm

/-- A pattern in what the pieces of a line are shown as, behind some other text, stands in the line
behind that text already. -/
theorem infix_of_mapM_showPiece (hforeign : ∀ range : RollRange, ∀ c ∈ range.label.toList,
      c ∉ pattern) {pieces : List (Piece (List Char × List Char))} {parts : List (List Char)}
    (hparts : pieces.mapM (showPiece ranges) = .ok parts) {front : List Char}
    (h : pattern <:+: front ++ parts.flatten) :
    pattern <:+: front ++ pieces.flatMap (Piece.shown written) := by
  induction pieces generalizing front parts with
  | nil =>
      cases hparts
      exact h
  | cons piece pieces ih =>
      rw [List.mapM_cons] at hparts
      obtain ⟨first, hfirst, hparts⟩ := bind_eq_ok.1 hparts
      obtain ⟨rest, hrest, hparts⟩ := bind_eq_ok.1 hparts
      cases hparts
      rw [List.flatten_cons] at h
      rw [List.flatMap_cons]
      have hsame : first = Piece.shown written piece → pattern <:+:
          front ++ (Piece.shown written piece ++ pieces.flatMap (Piece.shown written)) := by
        rintro rfl
        rw [← List.append_assoc] at h ⊢
        exact ih hrest h
      cases piece with
      | plain c => exact hsame (Except.ok.inj hfirst).symm
      | found finding =>
          rcases showCommand_cases hfirst with hwritten | ⟨range, rfl⟩
          · exact hsame hwritten
          · have hbehind : pattern <:+: front ++ (finding.1 ++ [':']) ++
                (range.label.toList ++ rest.flatten) := by
              simpa using h
            rcases infix_of_foreign range.label_ne_nil (hforeign range) hbehind with
              hbefore | hafter
            · refine hbefore.trans (List.prefix_append_right_inj front |>.2 ?_).isInfix
              rw [Piece.shown, written, List.append_assoc, List.prefix_append_right_inj]
              exact ⟨finding.2 ++ pieces.flatMap (Piece.shown written), rfl⟩
            · have hpieces : pattern <:+: [] ++ pieces.flatMap (Piece.shown written) :=
                ih hrest hafter
              exact hpieces.trans ((List.suffix_append _ _).trans (List.suffix_append _ _)).isInfix

end Roll

/-! ### Calm texts -/

def Text.Calm (cs : List Char) : Prop := ¬"COMBAT:".toList <:+: cs

instance : DecidablePred Text.Calm := fun cs =>
  inferInstanceAs (Decidable (¬"COMBAT:".toList <:+: cs))

def Script.Calm (script : Script) : Prop :=
  ∀ entry ∈ script.passages, ∀ line ∈ entry.2.lines, ∀ text ∈ line, Text.Calm text.toList

instance (script : Script) : Decidable script.Calm :=
  inferInstanceAs (Decidable (∀ entry ∈ script.passages, ∀ line ∈ entry.2.lines, ∀ text ∈ line,
    Text.Calm text.toList))

namespace Text

theorem calm_iff {text : String} : Calm text.toList ↔ mentions text "COMBAT:" = false := by
  rw [Calm, mentions, ← occursIn_iff, Bool.not_eq_true]

theorem Calm.of_infix {piece cs : List Char} (h : Calm cs) (hpiece : piece <:+: cs) : Calm piece :=
  fun hwithin => h (hwithin.trans hpiece)

theorem calm_append_newline {cs : List Char} (h : Calm cs) : Calm (cs ++ ['\n']) := by
  intro hwithin
  have hsplit : "COMBAT:".toList <:+: cs ++ (['\n'] ++ []) := hwithin
  rcases infix_of_foreign (by simp) (by simp) hsplit with hbefore | hafter
  · exact h hbefore
  · exact absurd (List.infix_nil.1 hafter) (by decide)

theorem calm_join {texts : List String} (h : ∀ text ∈ texts, Calm text.toList) :
    Calm (join "\n" texts).toList := by
  have hjoin : (join "\n" texts).toList = joinWith ['\n'] (texts.map String.toList) := by
    rw [join, String.toList_ofList]
    rfl
  rw [hjoin]
  intro hwithin
  obtain ⟨piece, hpiece, hwithin⟩ := infix_of_joinWith (by decide) (by decide) hwithin
  obtain ⟨text, htext, rfl⟩ := List.mem_map.1 hpiece
  exact h text htext hwithin

end Text

theorem RollRange.label_foreign (range : RollRange) :
    ∀ c ∈ range.label.toList, c ∉ "COMBAT:".toList := by
  intro c hc
  rcases range.mem_label hc with hmark | hdigit
  · have hmarks : ∀ d ∈ labelMarks, d ∉ "COMBAT:".toList := Text.forall_mem_of_all (by decide)
    exact hmarks c hmark
  · have hnone : ∀ d ∈ "COMBAT:".toList, d.isDigit = false := Text.forall_mem_of_all (by decide)
    intro hmem
    rw [hnone c hmem] at hdigit
    cases hdigit

namespace Roll

variable {rolls : RollTable} {line shown : List Char} {stake : Stake}

theorem calm_maskStake (h : maskStake rolls line stake = .ok shown) (hline : Text.Calm line) :
    Text.Calm shown := by
  unfold maskStake at h
  dsimp only at h
  split at h
  · cases h
    exact hline
  · obtain ⟨parts, hparts, hflatten⟩ := bind_eq_ok.1 h
    cases hflatten
    intro hwithin
    apply hline
    have hfront : "COMBAT:".toList <:+: [] ++ parts.flatten := hwithin
    have hwritten := infix_of_mapM_showPiece RollRange.label_foreign hparts hfront
    rwa [List.nil_append, Text.flatMap_scan fun _ _ _ _ h => (readCommand_eq_some h).1] at hwritten

theorem calm_maskLine (h : maskLine rolls line = .ok shown) (hline : Text.Calm line) :
    Text.Calm shown := by
  unfold maskLine at h
  split at h
  · cases h
    exact hline
  · rw [Stake.all, List.foldlM_cons] at h
    obtain ⟨gold, hgold, h⟩ := bind_eq_ok.1 h
    rw [List.foldlM_cons] at h
    obtain ⟨damage, hdamage, h⟩ := bind_eq_ok.1 h
    cases h
    exact calm_maskStake hdamage (calm_maskStake hgold hline)

end Roll

namespace Play

variable {script : Script} {rolls : RollTable}

theorem calm_readLine {line : Option String} {shown : List String}
    (h : readLine rolls line = .ok shown) (hline : ∀ text ∈ line, Text.Calm text.toList) :
    ∀ text ∈ shown, Text.Calm text.toList := by
  unfold readLine at h
  split at h
  · cases h
    simp
  · next text =>
    split at h
    · cases h
      simp
    · obtain ⟨masked, hmasked, h⟩ := bind_eq_ok.1 h
      cases h
      intro text htext
      rw [List.mem_singleton.1 htext, String.toList_ofList]
      have hcalm := Roll.calm_maskLine hmasked (Text.calm_append_newline (hline _ rfl))
      exact hcalm.of_infix (Text.isInfix_trimWhere _ _)

theorem calm_drainLines {lines : List (Option String)}
    (h : ∀ line ∈ lines, ∀ text ∈ line, Text.Calm text.toList) :
    ∀ text ∈ (drainLines rolls lines).stretch.lines, Text.Calm text.toList := by
  induction lines with
  | nil => simp [drainLines]
  | cons line lines ih =>
      have hrest := ih fun other hother => h other (List.mem_cons_of_mem line hother)
      rw [drainLines]
      split
      · simp
      split
      · next shown hshown =>
        have hfirst := calm_readLine hshown (h line List.mem_cons_self)
        intro text htext
        rcases List.mem_append.1 htext with htext | htext
        · exact hfirst text htext
        · exact hrest text htext
      · simp

/-- Whatever is read of a calm story is calm. -/
theorem calm_drain (h : script.Calm) (play : Play) :
    Text.Calm (play.drain script rolls).1.stretch.text.toList := by
  apply Text.calm_join
  unfold drain
  split
  · simp
  · next passage hpassage =>
    apply calm_drainLines
    intro line hline
    unfold passage? at hpassage
    split at hpassage
    · next found hfound =>
      cases hpassage
      exact h _ (Register.mem_of_get? hfound) line (List.mem_of_mem_drop hline)
    · cases hpassage

end Play

theorem Kind.ofText_ne_combat {text : String} (h : Text.Calm text.toList) (isLeaf : Bool) :
    Kind.ofText text isLeaf ≠ .combat := by
  rw [Text.calm_iff] at h
  unfold Kind.ofText
  rw [h]
  split
  · simp
  split
  · next hfight => cases hfight
  split <;> simp

end StoryAtlas
