import Mathlib.Data.List.Infix
import Mathlib.Data.List.TakeWhile
import StoryAtlas.Text.Scan
import StoryAtlas.Text.Trim

/-!
# Cutting a text that is put together

What the longest run of characters, the first occurrence of a pattern, the pieces between separators
and trimming make of a text that continues: where the cut falls into the first part, the second only
adds to the rest.
-/

namespace StoryAtlas.Text

/-- An induction over the ends of a list, for functions that skip more than one element at once. -/
theorem suffix_induction {α : Type} {motive : List α → Prop} (nil : motive [])
    (cons : ∀ c cs, (∀ rest, rest <:+ cs → motive rest) → motive (c :: cs)) (cs : List α) :
    motive cs := by
  have h : ∀ rest, rest <:+ cs → motive rest := by
    induction cs with
    | nil =>
        intro rest hrest
        rw [List.suffix_nil.1 hrest]
        exact nil
    | cons c cs ih =>
        intro rest hrest
        rcases List.suffix_cons_iff.1 hrest with rfl | hrest
        · exact cons c cs ih
        · exact ih rest hrest
  exact h cs List.suffix_rfl

/-- What is said of each character of a text is decided by going through the text. -/
theorem forall_mem_of_all {p : Char → Prop} [DecidablePred p] {cs : List Char}
    (h : cs.all (fun c => decide (p c)) = true) : ∀ c ∈ cs, p c := by
  simpa using h

/-! ### Runs -/

/-- No run of such characters goes on into the text. -/
def Stops (p : Char → Bool) (cs : List Char) : Prop := ∀ c ∈ cs.head?, p c = false

variable {p : Char → Bool} {cs before after pattern : List Char}

theorem stops_cons {c : Char} : Stops p (c :: cs) ↔ p c = false := by simp [Stops]

theorem stops_dropWhile (p : Char → Bool) (cs : List Char) : Stops p (cs.dropWhile p) := by
  intro c hc
  have hhead := List.head?_dropWhile_not p cs
  rw [Option.mem_def.1 hc] at hhead
  exact hhead

theorem takeWhile_of_stops (h : Stops p cs) : cs.takeWhile p = [] := by
  cases cs with
  | nil => rfl
  | cons c cs => rw [List.takeWhile_cons_of_neg (by simp [stops_cons.1 h])]

theorem dropWhile_of_stops (h : Stops p cs) : cs.dropWhile p = cs := by
  cases cs with
  | nil => rfl
  | cons c cs => rw [List.dropWhile_cons_of_neg (by simp [stops_cons.1 h])]

theorem takeWhile_append_of_stops (h : Stops p after) :
    (before ++ after).takeWhile p = before.takeWhile p := by
  rw [List.takeWhile_append]
  split
  · next hall =>
    rw [takeWhile_of_stops h, List.append_nil, (List.takeWhile_prefix p).eq_of_length hall]
  · rfl

theorem dropWhile_append_of_stops (h : Stops p after) :
    (before ++ after).dropWhile p = before.dropWhile p ++ after := by
  rw [List.dropWhile_append]
  split
  · next hall => rw [dropWhile_of_stops h, List.isEmpty_iff.1 hall, List.nil_append]
  · rfl

theorem takeWhile_append_of_exists (h : ∃ c ∈ before, p c = false) :
    (before ++ after).takeWhile p = before.takeWhile p := by
  obtain ⟨c, hc, hp⟩ := h
  rw [List.takeWhile_append, if_neg]
  intro hlength
  have hall := List.takeWhile_eq_self_iff.1 ((List.takeWhile_prefix p).eq_of_length hlength) c hc
  rw [hp] at hall
  cases hall

theorem dropWhile_append_of_exists (h : ∃ c ∈ before, p c = false) :
    (before ++ after).dropWhile p = before.dropWhile p ++ after := by
  obtain ⟨c, hc, hp⟩ := h
  rw [List.dropWhile_append, if_neg]
  intro hempty
  have hall := List.dropWhile_eq_nil_iff.1 (List.isEmpty_iff.1 hempty) c hc
  rw [hp] at hall
  cases hall

theorem takeWhile_congr {q : Char → Bool} (h : ∀ c ∈ cs, p c = q c) :
    cs.takeWhile p = cs.takeWhile q := by
  induction cs with
  | nil => rfl
  | cons c cs ih =>
      rw [List.takeWhile_cons, List.takeWhile_cons, h c List.mem_cons_self,
        ih fun d hd => h d (List.mem_cons_of_mem c hd)]

theorem drop_length_takeWhile (p : Char → Bool) (cs : List Char) :
    cs.drop (cs.takeWhile p).length = cs.dropWhile p := by
  conv => lhs; arg 2; rw [← @List.takeWhile_append_dropWhile _ p cs]
  exact List.drop_left

theorem take_length_takeWhile (p : Char → Bool) (cs : List Char) :
    cs.take (cs.takeWhile p).length = cs.takeWhile p := by
  conv => lhs; arg 2; rw [← @List.takeWhile_append_dropWhile _ p cs]
  exact List.take_left

theorem append_cons_inj {c : Char} {other rest : List Char} (hbefore : c ∉ before)
    (hother : c ∉ other) (h : before ++ c :: after = other ++ c :: rest) :
    before = other ∧ after = rest := by
  induction before generalizing other with
  | nil =>
      cases other with
      | nil => exact ⟨rfl, (List.cons.inj h).2⟩
      | cons d other =>
          rw [List.mem_cons, not_or] at hother
          exact absurd (List.cons.inj h).1 hother.1
  | cons d before ih =>
      rw [List.mem_cons, not_or] at hbefore
      cases other with
      | nil => exact absurd (List.cons.inj h).1.symm hbefore.1
      | cons e other =>
          rw [List.mem_cons, not_or] at hother
          obtain ⟨rfl, hrest⟩ := List.cons.inj h
          obtain ⟨rfl, rfl⟩ := ih hbefore.2 hother.2 hrest
          exact ⟨rfl, rfl⟩

/-! ### The first occurrence of a pattern -/

theorem occursIn_iff : occursIn pattern cs = true ↔ pattern <:+: cs := by
  unfold occursIn
  induction cs with
  | nil =>
      rw [breakOn, List.infix_nil]
      cases pattern <;> simp
  | cons c cs ih =>
      rw [breakOn, List.infix_cons_iff, ← List.isPrefixOf_iff_prefix]
      by_cases hfront : pattern.isPrefixOf (c :: cs) = true
      · simp [hfront]
      · rw [if_neg hfront, Option.isSome_map, ih]
        simp [hfront]

theorem breakOn_eq_none_iff : breakOn pattern cs = none ↔ ¬pattern <:+: cs := by
  rw [← occursIn_iff, occursIn, Bool.not_eq_true, Option.isSome_eq_false_iff,
    Option.isNone_iff_eq_none]

theorem breakOn_append {front back : List Char} (h : breakOn pattern before = some (front, back)) :
    breakOn pattern (before ++ after) = some (front, back ++ after) := by
  induction before generalizing front back with
  | nil =>
      have hpattern : pattern = [] := by
        by_contra hne
        simp [breakOn, hne] at h
      subst hpattern
      cases h
      cases after <;> simp [breakOn]
  | cons c before ih =>
      rw [breakOn] at h
      rw [List.cons_append, breakOn]
      by_cases hfront : pattern.isPrefixOf (c :: before) = true
      · rw [if_pos hfront] at h
        cases h
        have hprefix := List.isPrefixOf_iff_prefix.1 hfront
        have hlong : pattern <+: c :: (before ++ after) :=
          hprefix.trans (List.prefix_append (c :: before) after)
        rw [if_pos (List.isPrefixOf_iff_prefix.2 hlong), ← List.cons_append,
          List.drop_append_of_le_length hprefix.length_le]
      · rw [if_neg hfront] at h
        obtain ⟨⟨b, a⟩, hfound, hpair⟩ := Option.map_eq_some_iff.1 h
        cases hpair
        have hshort : pattern.length ≤ (c :: before).length := by
          rw [eq_append_of_breakOn hfound]
          simp only [List.length_cons, List.length_append]
          omega
        have hlater : ¬pattern.isPrefixOf (c :: (before ++ after)) = true := by
          rw [List.isPrefixOf_iff_prefix] at hfront ⊢
          intro hlong
          exact hfront (List.prefix_of_prefix_length_le hlong
            (List.prefix_append (c :: before) after) hshort)
        rw [if_neg hlater, ih hfound]
        rfl

theorem breakOn_append_of_not_mem {c : Char} (h : c ∉ before) (pattern cs : List Char) :
    breakOn (c :: pattern) (before ++ cs) =
      (breakOn (c :: pattern) cs).map fun cut => (before ++ cut.1, cut.2) := by
  induction before with
  | nil => simp
  | cons d before ih =>
      rw [List.mem_cons, not_or] at h
      rw [List.cons_append, breakOn, if_neg (by simp [List.isPrefixOf, h.1]), ih h.2,
        Option.map_map]
      rfl

/-- What is found in a text is recognised behind the text before it. -/
theorem eq_append_of_search {α : Type} {recognise : List Char → Option (α × List Char)}
    {finding : α} {rest : List Char} (h : search recognise cs = some (before, finding, rest)) :
    ∃ middle, cs = before ++ middle ∧ recognise middle = some (finding, rest) := by
  induction cs generalizing before with
  | nil => cases h
  | cons c cs ih =>
      rw [search] at h
      cases hfront : recognise (c :: cs) with
      | some found =>
          rw [hfront] at h
          cases h
          exact ⟨c :: cs, rfl, hfront⟩
      | none =>
          rw [hfront] at h
          obtain ⟨⟨front, found⟩, hfound, hpair⟩ := Option.map_eq_some_iff.1 h
          cases hpair
          obtain ⟨middle, rfl, hmiddle⟩ := ih hfound
          exact ⟨middle, rfl, hmiddle⟩

/-! ### Blanks at the end -/

theorem allBlank_append : allBlank (before ++ after) = (allBlank before && allBlank after) := by
  rw [allBlank, List.all_append, allBlank, allBlank]

theorem trimWhere_append (h : ∀ c ∈ after, p c = true) :
    trimWhere p (before ++ after) = trimWhere p before := by
  unfold trimWhere
  have hback : (after.reverse ++ (before.dropWhile p).reverse).dropWhile p =
      (before.dropWhile p).reverse.dropWhile p :=
    List.dropWhile_append_of_pos fun c hc => h c (List.mem_reverse.1 hc)
  rw [List.dropWhile_append]
  split
  · next hall =>
    rw [List.isEmpty_iff.1 hall, List.dropWhile_eq_nil_iff.2 h]
  · rw [List.reverse_append, hback]

theorem trim_append (h : allBlank after = true) : trim (before ++ after) = trim before :=
  trimWhere_append (List.all_eq_true.1 h)

theorem exists_trim (cs : List Char) :
    ∃ lead trail, allBlank lead = true ∧ allBlank trail = true ∧ cs = lead ++ trim cs ++ trail := by
  refine ⟨cs.takeWhile isBlank, ((cs.dropWhile isBlank).reverse.takeWhile isBlank).reverse,
    List.all_eq_true.2 fun c => List.mem_takeWhile_imp, List.all_eq_true.2 fun c hc =>
      List.mem_takeWhile_imp (List.mem_reverse.1 hc), ?_⟩
  rw [List.append_assoc, trim, trimWhere, ← List.reverse_append, List.takeWhile_append_dropWhile,
    List.reverse_reverse, List.takeWhile_append_dropWhile]

theorem trim_ne_nil (h : allBlank cs = false) : trim cs ≠ [] := by
  intro hnil
  obtain ⟨lead, trail, hlead, htrail, heq⟩ := exists_trim cs
  rw [heq, hnil, List.append_nil, allBlank_append, hlead, htrail] at h
  cases h

theorem trimWhere_of_stops (hfront : Stops p cs) (hback : Stops p cs.reverse) :
    trimWhere p cs = cs := by
  rw [trimWhere, dropWhile_of_stops hfront, dropWhile_of_stops hback, List.reverse_reverse]

theorem stops_reverse_trim (cs : List Char) : Stops isBlank (trim cs).reverse := by
  rw [trim, trimWhere, List.reverse_reverse]
  exact stops_dropWhile isBlank _

/-! ### Pieces -/

theorem splitAtChar_of_not_mem {separator : Char} (h : separator ∉ cs) :
    splitAtChar separator cs = [cs] := by
  induction cs with
  | nil => rfl
  | cons c cs ih =>
      rw [List.mem_cons, not_or] at h
      rw [splitAtChar, if_neg (Ne.symm h.1), ih h.2]

theorem forall₂_splitAtChar_append {separator : Char} (h : separator ∉ after) (before : List Char) :
    List.Forall₂ (fun long short => long = short ∨ long = short ++ after)
      (splitAtChar separator (before ++ after)) (splitAtChar separator before) := by
  induction before with
  | nil =>
      rw [List.nil_append, splitAtChar_of_not_mem h]
      exact .cons (.inr rfl) .nil
  | cons c before ih =>
      rw [List.cons_append, splitAtChar, splitAtChar]
      split
      · exact .cons (.inl rfl) ih
      · cases hlong : splitAtChar separator (before ++ after) with
        | nil => exact absurd hlong (splitAtChar_ne_nil _ _)
        | cons long longs =>
            cases hshort : splitAtChar separator before with
            | nil => exact absurd hshort (splitAtChar_ne_nil _ _)
            | cons short shorts =>
                rw [hlong, hshort] at ih
                obtain ⟨hfirst, hrest⟩ := List.forall₂_cons.1 ih
                refine .cons (hfirst.imp ?_ ?_) hrest
                · rintro rfl
                  rfl
                · rintro rfl
                  rfl

theorem splitAtChar_append_separator (separator : Char) (before after : List Char) :
    splitAtChar separator (before ++ separator :: after) =
      splitAtChar separator before ++ splitAtChar separator after := by
  induction before with
  | nil => simp [splitAtChar]
  | cons c before ih =>
      rw [List.cons_append, splitAtChar, splitAtChar, ih]
      split
      · rfl
      · cases hbefore : splitAtChar separator before with
        | nil => exact absurd hbefore (splitAtChar_ne_nil _ _)
        | cons piece pieces => rfl

/-- The pieces hold all characters but the separators. -/
theorem exists_piece_of_mem {c : Char} (separator : Char) (hc : c ∈ cs) (hne : c ≠ separator) :
    ∃ piece ∈ splitAtChar separator cs, c ∈ piece := by
  induction cs with
  | nil => cases hc
  | cons d cs ih =>
      rw [splitAtChar]
      split
      · next hd =>
        rcases List.mem_cons.1 hc with rfl | hc
        · exact absurd hd hne
        · obtain ⟨piece, hpiece, hmem⟩ := ih hc
          exact ⟨piece, List.mem_cons_of_mem _ hpiece, hmem⟩
      · cases hpieces : splitAtChar separator cs with
        | nil => exact absurd hpieces (splitAtChar_ne_nil _ _)
        | cons first pieces =>
            rcases List.mem_cons.1 hc with rfl | hc
            · exact ⟨_, List.mem_cons_self, List.mem_cons_self⟩
            · obtain ⟨piece, hpiece, hmem⟩ := ih hc
              rw [hpieces] at hpiece
              rcases List.mem_cons.1 hpiece with rfl | hpiece
              · exact ⟨_, List.mem_cons_self, List.mem_cons_of_mem _ hmem⟩
              · exact ⟨piece, List.mem_cons_of_mem _ hpiece, hmem⟩

theorem joinWith_eq_nil {separator : List Char} {pieces : List (List Char)}
    (h : ∀ piece ∈ pieces, piece ≠ []) (hjoin : joinWith separator pieces = []) : pieces = [] := by
  cases pieces with
  | nil => rfl
  | cons piece pieces =>
      cases pieces with
      | nil => exact absurd hjoin (h piece List.mem_cons_self)
      | cons next others =>
          rw [joinWith, List.append_assoc, List.append_eq_nil_iff] at hjoin
          · exact absurd hjoin.1 (h piece List.mem_cons_self)
          · simp

theorem joinWith_cons {separator piece : List Char} {pieces : List (List Char)}
    (h : pieces ≠ []) :
    joinWith separator (piece :: pieces) = piece ++ (separator ++ joinWith separator pieces) := by
  cases pieces with
  | nil => exact absurd rfl h
  | cons next others => simp [joinWith]

theorem mem_joinWith {separator : List Char} {pieces : List (List Char)} {c : Char}
    (h : c ∈ joinWith separator pieces) : c ∈ separator ∨ ∃ piece ∈ pieces, c ∈ piece := by
  induction pieces with
  | nil => cases h
  | cons piece pieces ih =>
      cases pieces with
      | nil => exact .inr ⟨piece, List.mem_cons_self, h⟩
      | cons next others =>
          rw [joinWith_cons (by simp), List.mem_append, List.mem_append] at h
          rcases h with h | h | h
          · exact .inr ⟨piece, List.mem_cons_self, h⟩
          · exact .inl h
          · exact (ih h).imp_right fun ⟨found, hfound, hc⟩ =>
              ⟨found, List.mem_cons_of_mem _ hfound, hc⟩

theorem splitAtChar_joinWith {separator : Char} {pieces : List (List Char)} (hne : pieces ≠ [])
    (h : ∀ piece ∈ pieces, separator ∉ piece) :
    splitAtChar separator (joinWith [separator] pieces) = pieces := by
  induction pieces with
  | nil => exact absurd rfl hne
  | cons piece pieces ih =>
      have hpiece := splitAtChar_of_not_mem (h piece List.mem_cons_self)
      cases pieces with
      | nil => exact hpiece
      | cons next others =>
          rw [joinWith_cons (by simp), List.singleton_append, splitAtChar_append_separator, hpiece,
            ih (by simp) fun other hother => h other (List.mem_cons_of_mem piece hother)]
          rfl

theorem infix_joinWith {separator piece : List Char} {pieces : List (List Char)}
    (h : piece ∈ pieces) : piece <:+: joinWith separator pieces := by
  induction pieces with
  | nil => cases h
  | cons first others ih =>
      cases others with
      | nil =>
          rw [List.mem_singleton.1 h]
          exact List.infix_rfl
      | cons next others =>
          rw [joinWith_cons (by simp)]
          rcases List.mem_cons.1 h with rfl | h
          · exact (List.prefix_append _ _).isInfix
          · exact ((ih h).trans (List.suffix_append _ _).isInfix).trans
              (List.suffix_append _ _).isInfix

end StoryAtlas.Text
