import StoryAtlas.Proofs.Attempt
import StoryAtlas.Proofs.Text.Cut
import StoryAtlas.Text.Fold

/-!
# Steps of a scan

One equation for each thing that a scan can do with the next character, and what a recogniser does
at a word that is put in front of a text.
-/

namespace StoryAtlas.Text

variable {α : Type} {recognise : Recogniser α} {before : Option Char} {c : Char}
  {cs rest : List Char} {finding : α}

theorem scan_plain (h : recognise before (c :: cs) = none) :
    scan recognise before (c :: cs) = .plain c :: scan recognise (some c) cs := by
  rw [scan, h]

theorem scan_found (h : recognise before (c :: cs) = some (finding, rest))
    (hrest : rest.length ≤ cs.length) :
    scan recognise before (c :: cs) =
      .found finding ::
        scan recognise (cs.take (cs.length - rest.length)).getLast? rest := by
  rw [scan, h]
  simp only [hrest, if_true]

/-- Written as they were found, the pieces of a scan make the text again. -/
theorem flatMap_scan {α : Type} {recognise : Recogniser α} {display : α → List Char}
    (hfound : ∀ before cs finding rest, recognise before cs = some (finding, rest) →
      cs = display finding ++ rest) (before : Option Char) (cs : List Char) :
    (scan recognise before cs).flatMap (Piece.shown display) = cs := by
  induction before, cs using scan.induct recognise with
  | case1 => rw [scan, List.flatMap_nil]
  | case2 before c cs finding rest hrecognise hle ih =>
      rw [scan, hrecognise]
      simp only [hle, if_true, List.flatMap_cons, Piece.shown]
      rw [ih, ← hfound _ _ _ _ hrecognise]
  | case3 before c cs finding rest hrecognise hle ih =>
      rw [scan, hrecognise]
      simp only [hle, if_false, List.flatMap_cons, Piece.shown, ih]
      rfl
  | case4 before c cs hrecognise ih =>
      rw [scan, hrecognise]
      simp only [List.flatMap_cons, Piece.shown, ih]
      rfl

/-- After a finding of more than one character the scan goes on behind the last of them. -/
theorem before_of_found {consumed : List Char} (h : c :: cs = consumed ++ rest)
    (hlong : 1 < consumed.length) :
    rest.length ≤ cs.length ∧ consumed.getLast? = (cs.take (cs.length - rest.length)).getLast? ∧
      consumed.getLast?.isSome = true := by
  rcases consumed with - | ⟨d, tail⟩
  · simp at hlong
  · obtain ⟨rfl, hcs⟩ := List.cons.inj h
    obtain ⟨e, back, rfl⟩ := List.exists_cons_of_length_pos (Nat.lt_of_succ_lt_succ hlong)
    have hrest : cs = e :: back ++ rest := hcs
    have htake : cs.take (cs.length - rest.length) = e :: back := by
      rw [hrest, List.length_append, Nat.add_sub_cancel, List.take_left]
    refine ⟨?_, by rw [htake, List.getLast?_cons_cons], by simp⟩
    rw [hrest, List.length_append]
    omega

theorem exists_changed {ε : Type} {display : Piece α → Except ε (List Char)} {shown : List Char}
    (hplain : ∀ c, display (.plain c) = .ok [c])
    (hfound : ∀ before cs finding rest, recognise before cs = some (finding, rest) →
      ∃ consumed, cs = consumed ++ rest ∧ 1 < consumed.length)
    (h : ((scan recognise before cs).mapM display).map List.flatten = .ok shown)
    (hne : shown ≠ cs) :
    ∃ front consumed rest finding other, cs = front ++ (consumed ++ rest) ∧
      recognise (front.getLast?.or before) (consumed ++ rest) = some (finding, rest) ∧
      display (.found finding) = .ok other ∧ other ≠ consumed := by
  induction before, cs using scan.induct recognise generalizing shown with
  | case1 before =>
      rw [scan] at h
      cases h
      exact absurd rfl hne
  | case2 before c cs finding rest hrecognise hle ih =>
      obtain ⟨consumed, hconsumed, hlong⟩ := hfound _ _ _ _ hrecognise
      obtain ⟨-, hlast, hsome⟩ := before_of_found hconsumed hlong
      rw [scan_found hrecognise hle, List.mapM_cons] at h
      obtain ⟨pieces, hpieces, rfl⟩ := map_eq_ok.1 h
      obtain ⟨first, hfirst, hpieces⟩ := bind_eq_ok.1 hpieces
      obtain ⟨others, hothers, hpieces⟩ := bind_eq_ok.1 hpieces
      cases hpieces
      rw [hconsumed]
      by_cases hsame : first = consumed
      · have hlater : others.flatten ≠ rest := fun heq => hne (by
          rw [List.flatten_cons, heq, hsame, hconsumed])
        obtain ⟨front, taken, after, later, other, rfl, hrec, hother, hdiff⟩ :=
          ih (map_eq_ok.2 ⟨others, hothers, rfl⟩) hlater
        refine ⟨consumed ++ front, taken, after, later, other, by simp, ?_, hother, hdiff⟩
        rwa [List.getLast?_append, Option.or_assoc, Option.or_of_isSome hsome, hlast]
      · exact ⟨[], consumed, rest, finding, first, rfl, hconsumed ▸ hrecognise, hfirst, hsame⟩
  | case3 before c cs finding rest hrecognise hle ih =>
      obtain ⟨consumed, hconsumed, hlong⟩ := hfound _ _ _ _ hrecognise
      exact absurd (before_of_found hconsumed hlong).1 hle
  | case4 before c cs hrecognise ih =>
      rw [scan_plain hrecognise, List.mapM_cons, hplain] at h
      obtain ⟨pieces, hpieces, rfl⟩ := map_eq_ok.1 h
      obtain ⟨first, hfirst, hpieces⟩ := bind_eq_ok.1 hpieces
      obtain ⟨others, hothers, hpieces⟩ := bind_eq_ok.1 hpieces
      cases hfirst
      cases hpieces
      have hlater : others.flatten ≠ cs := fun heq => hne (by rw [List.flatten_cons, heq]; rfl)
      obtain ⟨front, taken, after, later, other, rfl, hrec, hother, hdiff⟩ :=
        ih (map_eq_ok.2 ⟨others, hothers, rfl⟩) hlater
      refine ⟨c :: front, taken, after, later, other, rfl, ?_, hother, hdiff⟩
      rw [List.getLast?_cons, Option.some_or]
      cases hfront : front.getLast? with
      | none => simpa [hfront] using hrec
      | some d => simpa [hfront] using hrec

theorem dropFolded?_append {word shown : List Char} (h : shown.map foldLetter = word)
    (cs : List Char) : dropFolded? word (shown ++ cs) = some cs := by
  induction shown generalizing word with
  | nil =>
      rw [← h]
      rfl
  | cons d shown ih =>
      rw [← h, List.map_cons, List.cons_append, dropFolded?, if_pos rfl, ih rfl]

end StoryAtlas.Text
