import StoryAtlas.Choice.Gate
import StoryAtlas.Proofs.Text.Ascii
import StoryAtlas.Proofs.Text.Cut

/-!
# Gates read back

A gate as an author writes it is a name in small letters, negated or not, with a value or without.
A value may hold anything but a semicolon, so the first semicolon closes the gate, and a text begins
with a gate in one way at most. Gates are taken off the front one after the other, each with the
white space behind it, until none is left. This ends, since each gate is at least a letter and a
semicolon, and what was written comes out of it: the gates in order and the label behind them.
-/

namespace StoryAtlas

open Text

/-- What stands behind the colon of a gate. -/
structure GateValue where
  chars : List Char
  ne_nil : chars ≠ []
  noSemicolon : ';' ∉ chars

/-- A condition as it is written before a label. -/
structure Gate where
  negated : Bool := false
  name : List Char
  value : Option GateValue := none
  name_ne_nil : name ≠ []
  letters : ∀ c ∈ name, 'a' ≤ c ∧ c ≤ 'z'

namespace Gate

def condition (gate : Gate) : List Char :=
  match gate.value with
  | none => gate.name
  | some value => gate.name ++ ':' :: value.chars

def written (gate : Gate) : List Char :=
  if gate.negated then '!' :: gate.condition else gate.condition

def requirement (gate : Gate) : String :=
  if gate.negated then "NOT " ++ String.ofList gate.condition else String.ofList gate.condition

end Gate

/-- A gate with its semicolon and the white space behind it. -/
structure ClosedGate where
  gate : Gate
  gap : List Char := []
  blank : allBlank gap = true

def ClosedGate.written (closed : ClosedGate) : List Char :=
  closed.gate.written ++ ';' :: closed.gap

/-- A gate stands at the front of the text. -/
def Gated (cs : List Char) : Prop :=
  ∃ (gate : Gate) (rest : List Char), cs = gate.written ++ ';' :: rest

/-- Gates are taken off the front of a text, one after the other, until none is left. -/
inductive Strips : List Char → List Gate → List Char → Prop
  | done {cs : List Char} (h : ¬Gated cs) : Strips cs [] cs
  | gate {rest label : List Char} {gates : List Gate} (gate : Gate)
      (later : Strips (trim rest) gates label) :
      Strips (gate.written ++ ';' :: rest) (gate :: gates) label

/-! ### One gate -/

section Letters

variable {c : Char}

theorem isGateLetter_iff : ChoiceLabel.isGateLetter c = true ↔ 'a' ≤ c ∧ c ≤ 'z' := by
  rw [ChoiceLabel.isGateLetter, Bool.and_eq_true, decide_eq_true_eq, decide_eq_true_eq]

theorem letters_of_all {name : List Char} (h : name.all ChoiceLabel.isGateLetter = true) :
    ∀ c ∈ name, 'a' ≤ c ∧ c ≤ 'z' :=
  fun c hc => isGateLetter_iff.1 (List.all_eq_true.1 h c hc)

theorem isBlank_of_isGateLetter (h : ChoiceLabel.isGateLetter c = true) : isBlank c = false := by
  have hlt : c.toNat < 128 := isLower_lt h
  exact of_ascii (p := fun c => ChoiceLabel.isGateLetter c = true → isBlank c = false) (by decide)
    hlt h

end Letters

namespace Gate

variable {gate : Gate} {rest found : List Char}

theorem exists_cons_condition (gate : Gate) :
    ∃ c cs, gate.condition = c :: cs ∧ ChoiceLabel.isGateLetter c = true := by
  obtain ⟨c, name, hname⟩ := List.exists_cons_of_ne_nil gate.name_ne_nil
  have hletter := isGateLetter_iff.2 (gate.letters c (by simp [hname]))
  cases hvalue : gate.value with
  | none => exact ⟨c, name, by simp [condition, hvalue, hname], hletter⟩
  | some value => exact ⟨c, name ++ ':' :: value.chars, by simp [condition, hvalue, hname], hletter⟩

theorem exists_cons_written (gate : Gate) :
    ∃ c cs, gate.written = c :: cs ∧ isBlank c = false := by
  obtain ⟨c, cs, hcondition, hletter⟩ := gate.exists_cons_condition
  unfold written
  split
  · exact ⟨'!', gate.condition, rfl, by decide⟩
  · exact ⟨c, cs, hcondition, isBlank_of_isGateLetter hletter⟩

theorem showGate_written (gate : Gate) : ChoiceLabel.showGate gate.written = gate.requirement := by
  obtain ⟨c, cs, hcondition, hletter⟩ := gate.exists_cons_condition
  unfold written requirement
  split
  · rfl
  · rw [hcondition]
    unfold ChoiceLabel.showGate
    split
    · next heq =>
      rw [(List.cons.inj heq).1] at hletter
      exact absurd hletter (by decide)
    · rfl

theorem readCondition_append (gate : Gate) (rest : List Char) :
    ChoiceLabel.readCondition (gate.condition ++ ';' :: rest) = some (gate.condition, rest) := by
  have hname : ∀ c ∈ gate.name, ChoiceLabel.isGateLetter c = true := fun c hc =>
    isGateLetter_iff.2 (gate.letters c hc)
  have htake := List.takeWhile_eq_self_iff.2 hname
  have hdrop := List.dropWhile_eq_nil_iff.2 hname
  have hempty : gate.name.isEmpty = false := by simpa using gate.name_ne_nil
  unfold ChoiceLabel.readCondition condition
  cases gate.value with
  | none =>
      have hstops : Stops ChoiceLabel.isGateLetter (';' :: rest) := stops_cons.2 (by decide)
      simp [takeWhile_append_of_stops hstops, dropWhile_append_of_stops hstops, htake, hdrop,
        hempty]
  | some value =>
      have hstops : Stops ChoiceLabel.isGateLetter (':' :: (value.chars ++ ';' :: rest)) :=
        stops_cons.2 (by decide)
      have hclosed : Stops (· != ';') (';' :: rest) := stops_cons.2 (by decide)
      have hall : ∀ c ∈ value.chars, (c != ';') = true := fun c hc =>
        bne_iff_ne.2 fun heq => value.noSemicolon (heq ▸ hc)
      have hvalue : (value.chars ++ ';' :: rest).takeWhile (· != ';') = value.chars :=
        (takeWhile_append_of_stops hclosed).trans (List.takeWhile_eq_self_iff.2 hall)
      have hrest : (value.chars ++ ';' :: rest).dropWhile (· != ';') = ';' :: rest := by
        rw [dropWhile_append_of_stops hclosed, List.dropWhile_eq_nil_iff.2 hall, List.nil_append]
      obtain ⟨c, cs, hcs⟩ := List.exists_cons_of_ne_nil value.ne_nil
      simp only [List.append_assoc, List.cons_append, takeWhile_append_of_stops hstops,
        dropWhile_append_of_stops hstops, htake, hdrop, hempty, List.nil_append, hvalue, hrest]
      simp [hcs]

theorem readGate_append (gate : Gate) (rest : List Char) :
    ChoiceLabel.readGate (gate.written ++ ';' :: rest) = some (gate.written, rest) := by
  have hread := gate.readCondition_append rest
  unfold written
  split
  · rw [List.cons_append, ChoiceLabel.readGate, hread]
    rfl
  · obtain ⟨c, cs, hcondition, hletter⟩ := gate.exists_cons_condition
    rw [← hread, hcondition]
    unfold ChoiceLabel.readGate
    split
    · next heq =>
      rw [(List.cons.inj heq).1] at hletter
      exact absurd hletter (by decide)
    · rfl

theorem exists_of_readCondition {cs : List Char}
    (h : ChoiceLabel.readCondition cs = some (found, rest)) :
    ∃ gate : Gate, gate.negated = false ∧ gate.condition = found ∧ cs = found ++ ';' :: rest := by
  have hcs := List.takeWhile_append_dropWhile (p := ChoiceLabel.isGateLetter) (l := cs)
  have hletters : ∀ c ∈ cs.takeWhile ChoiceLabel.isGateLetter, 'a' ≤ c ∧ c ≤ 'z' := fun c hc =>
    isGateLetter_iff.1 (List.mem_takeWhile_imp hc)
  unfold ChoiceLabel.readCondition at h
  simp only at h
  split at h
  · cases h
  next hname =>
  rw [List.isEmpty_iff] at hname
  generalize cs.takeWhile ChoiceLabel.isGateLetter = front at h hcs hletters hname
  split at h
  · next after hdrop =>
    cases h
    exact ⟨⟨false, found, none, hname, hletters⟩, rfl, rfl, by rw [← hcs, hdrop]⟩
  · next tail hdrop =>
    have htail := List.takeWhile_append_dropWhile (p := (· != ';')) (l := tail)
    have hstops := stops_dropWhile (· != ';') tail
    have hsemicolon : ';' ∉ tail.takeWhile (· != ';') := fun hmem =>
      absurd (List.mem_takeWhile_imp hmem) (by decide)
    split at h
    · next c value d after hvalue hrest =>
      cases h
      rw [hvalue] at hsemicolon htail
      rw [hrest] at htail hstops
      have hd : d = ';' := by simpa using stops_cons.1 hstops
      refine ⟨⟨false, front, some ⟨c :: value, List.cons_ne_nil _ _, hsemicolon⟩, hname, hletters⟩,
        rfl, rfl, ?_⟩
      rw [← hcs, hdrop, ← htail, hd, List.append_assoc]
      rfl
    · cases h
  · cases h

theorem exists_of_readGate {cs : List Char} (h : ChoiceLabel.readGate cs = some (found, rest)) :
    ∃ gate : Gate, gate.written = found ∧ cs = gate.written ++ ';' :: rest := by
  unfold ChoiceLabel.readGate at h
  split at h
  · next after =>
    obtain ⟨⟨inner, behind⟩, hread, hpair⟩ := Option.map_eq_some_iff.1 h
    cases hpair
    obtain ⟨gate, -, hcondition, hcs⟩ := exists_of_readCondition hread
    refine ⟨{ gate with negated := true }, ?_, ?_⟩
    · rw [← hcondition]
      rfl
    · rw [hcs, ← hcondition]
      rfl
  · obtain ⟨gate, hplain, hcondition, hcs⟩ := exists_of_readCondition h
    have hwritten : gate.written = found := by
      rw [written, hplain, ← hcondition]
      rfl
    exact ⟨gate, hwritten, by rw [hcs, hwritten]⟩

end Gate

theorem readGate_eq_none_iff {cs : List Char} : ChoiceLabel.readGate cs = none ↔ ¬Gated cs := by
  constructor
  · rintro hnone ⟨gate, rest, rfl⟩
    rw [gate.readGate_append] at hnone
    cases hnone
  · intro hfree
    cases hread : ChoiceLabel.readGate cs with
    | none => rfl
    | some found =>
        obtain ⟨gate, -, hcs⟩ := Gate.exists_of_readGate hread
        exact absurd ⟨gate, found.2, hcs⟩ hfree

instance (cs : List Char) : Decidable (Gated cs) :=
  match h : ChoiceLabel.readGate cs with
  | none => .isFalse (readGate_eq_none_iff.1 h)
  | some _ => .isTrue (Classical.not_not.1 fun hfree => by
      rw [readGate_eq_none_iff.2 hfree] at h
      cases h)

/-! ### All gates -/

variable {cs label before after : List Char} {gates : List Gate}

/-- What is taken off is what is read. -/
theorem Strips.split_eq (h : Strips cs gates label) :
    ChoiceLabel.split cs = (gates.map Gate.written, label) := by
  induction h with
  | done hfree =>
      rw [ChoiceLabel.split]
      split
      · next hread =>
        rw [readGate_eq_none_iff.2 hfree] at hread
        cases hread
      · rfl
  | gate gate later ih =>
      rw [ChoiceLabel.split]
      split
      · next hread =>
        rw [gate.readGate_append] at hread
        cases hread
        rw [ih]
        rfl
      · next hread =>
        rw [gate.readGate_append] at hread
        cases hread

/-- Whatever the text, the gates at its front are all taken off at some time. -/
theorem exists_strips (cs : List Char) :
    ∃ gates label, Strips cs gates label ∧ 2 * gates.length + label.length ≤ cs.length := by
  induction hlength : cs.length using Nat.strongRecOn generalizing cs with
  | _ length ih =>
      by_cases hgated : Gated cs
      · obtain ⟨gate, rest, rfl⟩ := hgated
        obtain ⟨c, tail, hwritten, -⟩ := gate.exists_cons_written
        have htrim := ChoiceLabel.length_trim_le rest
        rw [hwritten, List.length_append, List.length_cons, List.length_cons] at hlength
        obtain ⟨gates, label, hstrips, hbound⟩ := ih (trim rest).length (by omega) (trim rest) rfl
        refine ⟨gate :: gates, label, .gate gate hstrips, ?_⟩
        rw [List.length_cons]
        omega
      · exact ⟨[], cs, .done hgated, by simp [hlength]⟩

theorem Strips.ofText_eq {text : String} (h : Strips text.toList gates label) :
    ChoiceLabel.ofText text =
      { requirements := gates.map Gate.requirement
        text := Markup.clean (String.ofList label) } := by
  rw [ChoiceLabel.ofText, h.split_eq, Markup.clean, String.toList_ofList]
  dsimp only
  rw [List.map_map]
  congr 1
  exact List.map_congr_left fun gate _ => gate.showGate_written

/-! ### Written gates -/

theorem trim_blank_append (h : allBlank before = true) : trim (before ++ after) = trim after := by
  rw [trim, trimWhere, List.dropWhile_append_of_pos fun c hc => List.all_eq_true.1 h c hc]
  rfl

/-- Trimming a text that begins and ends with something else than blanks only trims what is behind
it. -/
theorem exists_trim_append (hfront : Stops isBlank (before ++ after))
    (hback : Stops isBlank before.reverse) :
    ∃ tail, trim (before ++ after) = before ++ tail ∧ trim tail = trim after := by
  have hends := stops_dropWhile isBlank after.reverse
  have hcut : after = (after.reverse.dropWhile isBlank).reverse ++
      (after.reverse.takeWhile isBlank).reverse := by
    rw [← List.reverse_append, List.takeWhile_append_dropWhile, List.reverse_reverse]
  have hblank : allBlank (after.reverse.takeWhile isBlank).reverse = true :=
    List.all_eq_true.2 fun c hc => List.mem_takeWhile_imp (List.mem_reverse.1 hc)
  refine ⟨(after.reverse.dropWhile isBlank).reverse, ?_, ?_⟩
  · rw [trim, trimWhere, dropWhile_of_stops hfront, List.reverse_append,
      dropWhile_append_of_stops hback, List.reverse_append, List.reverse_reverse]
  · conv => rhs; rw [hcut, trim_append hblank]

/-- What stands behind written gates can be trimmed without loss of a gate. -/
theorem strips_flatMap_written (hlabel : trim label = label) (hfree : ¬Gated label)
    (gates : List ClosedGate) :
    Strips (gates.flatMap ClosedGate.written ++ label) (gates.map ClosedGate.gate) label ∧
      Strips (trim (gates.flatMap ClosedGate.written ++ label)) (gates.map ClosedGate.gate)
        label := by
  induction gates with
  | nil =>
      rw [List.flatMap_nil, List.nil_append, List.map_nil, hlabel]
      exact ⟨.done hfree, .done hfree⟩
  | cons closed gates ih =>
      obtain ⟨gate, gap, hblank⟩ := closed
      have htext : (⟨gate, gap, hblank⟩ :: gates).flatMap ClosedGate.written ++ label =
          gate.written ++ ';' :: (gap ++ (gates.flatMap ClosedGate.written ++ label)) := by
        simp [ClosedGate.written]
      have hrest : Strips (trim (gap ++ (gates.flatMap ClosedGate.written ++ label)))
          (gates.map ClosedGate.gate) label := by
        rw [trim_blank_append hblank]
        exact ih.2
      rw [htext, List.map_cons]
      refine ⟨.gate gate hrest, ?_⟩
      -- the semicolon keeps the gate from being trimmed, so only the last gap may be lost
      obtain ⟨c, cs, hwritten, hc⟩ := gate.exists_cons_written
      have hfront : Stops isBlank
          (gate.written ++ [';'] ++ (gap ++ (gates.flatMap ClosedGate.written ++ label))) := by
        rw [hwritten]
        exact stops_cons.2 hc
      have hback : Stops isBlank (gate.written ++ [';']).reverse := by
        rw [List.reverse_append]
        exact stops_cons.2 (by decide)
      obtain ⟨tail, htrim, htail⟩ := exists_trim_append hfront hback
      rw [List.append_cons, htrim, List.append_assoc]
      rw [← htail] at hrest
      exact .gate gate hrest

/-- Gates in front of a label that is trimmed and begins with no gate are read back in order, and
the label is cleaned. Of any other text the gates at the front are taken off one by one, and two
characters are used up for each at least. -/
theorem ofText_gated :
    (∀ (gates : List ClosedGate) (label : List Char), trim label = label → ¬Gated label →
      ChoiceLabel.ofText (String.ofList (gates.flatMap ClosedGate.written ++ label)) =
        { requirements := gates.map fun closed => closed.gate.requirement
          text := Markup.clean (String.ofList label) }) ∧
    ∀ text : String, ∃ gates label, Strips text.toList gates label ∧
      2 * gates.length + label.length ≤ text.toList.length ∧
      ChoiceLabel.ofText text =
        { requirements := gates.map Gate.requirement
          text := Markup.clean (String.ofList label) } := by
  refine ⟨fun gates label hlabel hfree => ?_, fun text => ?_⟩
  · have hstrips := (strips_flatMap_written hlabel hfree gates).1
    rw [← String.toList_ofList (l := gates.flatMap ClosedGate.written ++ label)] at hstrips
    rw [hstrips.ofText_eq, List.map_map]
    rfl
  · obtain ⟨gates, label, hstrips, hbound⟩ := exists_strips text.toList
    exact ⟨gates, label, hstrips, hbound, hstrips.ofText_eq⟩

/-- A toll that is asked for, with a line break after it, and a curse that is not. -/
theorem ofText_gated_toll :
    trim "Pay: now!".toList = "Pay: now!".toList ∧ ¬Gated "Pay: now!".toList ∧
      ChoiceLabel.ofText "gold: 20:!;\n!cursed;Pay: now!" =
        { requirements := ["gold: 20:!", "NOT cursed"], text := "Pay: now!" } := by
  have htrim : trim "Pay: now!".toList = "Pay: now!".toList := by decide +kernel
  have hfree : ¬Gated "Pay: now!".toList := by decide +kernel
  let toll : ClosedGate :=
    { gate :=
        { name := "gold".toList
          value := some { chars := " 20:!".toList, ne_nil := by decide, noSemicolon := by decide }
          name_ne_nil := by decide
          letters := letters_of_all (by decide) }
      gap := ['\n']
      blank := by decide }
  let curse : ClosedGate :=
    { gate :=
        { negated := true
          name := "cursed".toList
          name_ne_nil := by decide
          letters := letters_of_all (by decide) }
      blank := by decide }
  refine ⟨htrim, hfree, ?_⟩
  have hread := ofText_gated.1 [toll, curse] "Pay: now!".toList htrim hfree
  have htext : String.ofList ([toll, curse].flatMap ClosedGate.written ++ "Pay: now!".toList) =
      "gold: 20:!;\n!cursed;Pay: now!" := by decide +kernel
  rw [← htext, hread]
  decide +kernel

end StoryAtlas
