import Mathlib.Data.List.Perm.Subperm
import StoryAtlas.Proofs.Command.Ending
import StoryAtlas.Split.Segment

/-!
# The effects of a split segment

A segment is cut in two, and each part is read anew. The cut is a seam, so the whole text says what
its first part says, with a line break where a line follows, and then what the rest says. Read anew,
the parts have lost a line break: the first part that which followed its chain, the second the one
that was trimmed off its end. Without it a last line is read otherwise, unless it is plain. Where
the lines at both ends are, a split dialogue has the effects of the segment, in order.

A split fight keeps only the effects that tell of a fight. What else the segment said up to the end
of the fight's line is given up, and what it said after stands on the node that follows.
-/

namespace StoryAtlas

open Chain (said lineEnd PlainBefore)
open Text (allBlank trim)

namespace Extract

variable {lexicon : Lexicon} {before after cs : List Char}

theorem effects_ofChars (lexicon : Lexicon) (cs : List Char) :
    (ofChars lexicon cs).effects = (said cs).flatMap (Command.effects lexicon) :=
  rfl

theorem effects_seam (h : Chain.Seam before after) :
    (ofChars lexicon (before ++ after)).effects =
      (ofChars lexicon (before ++ lineEnd after)).effects ++ (ofChars lexicon after).effects := by
  simp only [effects_ofChars, Chain.said_eq, Chain.contents_seam h, List.flatMap_append]

theorem effects_plainBefore (h : PlainBefore before after) :
    (ofChars lexicon (before ++ lineEnd after)).effects = (ofChars lexicon before).effects := by
  rw [effects_ofChars, h.said_append, effects_ofChars]

end Extract

namespace Segment

/-- A text that is cut in two: its effects are those of the first part with a line break where a
line follows, and those of the rest without the blanks around it, but with the line break that these
may hold. -/
structure Cut (lexicon : Lexicon) (raw head rest trail : List Char) : Prop where
  text : raw = head ++ rest
  blanks : ∃ lead, allBlank lead = true ∧ allBlank trail = true ∧ rest = lead ++ trim rest ++ trail
  effects : (Extract.ofChars lexicon raw).effects =
    (Extract.ofChars lexicon (head ++ lineEnd rest)).effects ++
      (Extract.ofChars lexicon (trim rest ++ lineEnd trail)).effects

theorem exists_cut (lexicon : Lexicon) {head rest : List Char} (h : Chain.Joint head rest) :
    ∃ trail, Cut lexicon (head ++ rest) head rest trail := by
  obtain ⟨lead, trail, hlead, htrail, hrest⟩ := Text.exists_trim rest
  refine ⟨trail, rfl, ⟨lead, hlead, htrail, hrest⟩, ?_⟩
  rw [Extract.effects_seam h.seam]
  congr 1
  conv => lhs; rw [hrest]
  simp only [Extract.effects_ofChars, Chain.said_eq, Chain.contents_between hlead htrail]

variable {lexicon : Lexicon} {raw clean : String} {effects : List String} {count nextId : Int}
  {children : List Node} {parts : Parts} {created : Node}

/-! ### Dialogues -/

theorem of_divide {cs before after : List Char} {chain : Chain}
    (h : divide cs = some (chain, before, after)) :
    Chain.firstUnless Command.combatNames cs = some chain ∧ after = trim (cs.drop chain.stop) := by
  obtain ⟨found, hfound, h⟩ := Option.bind_eq_some_iff.1 h
  dsimp only at h
  split at h
  · cases h
  · cases h
    exact ⟨hfound, rfl⟩

theorem divide_of_created
    (h : splitDialogue lexicon raw clean effects count children nextId = parts)
    (hcreated : parts.created = some created) :
    ∃ chain before after, divide raw.toList = some (chain, before, after) ∧
      parts.effects = (Extract.ofChars lexicon (raw.toList.take chain.stop)).effects ∧
      created.value.effects = (Extract.ofChars lexicon after).effects := by
  subst h
  unfold splitDialogue at hcreated ⊢
  dsimp only at hcreated ⊢
  split at hcreated
  · cases hcreated
  · next hsplit =>
    rw [if_neg hsplit]
    cases hdivide : divide raw.toList with
    | none =>
        rw [hdivide] at hcreated
        cases hcreated
    | some cut =>
        obtain ⟨chain, before, after⟩ := cut
        rw [hdivide] at hcreated
        dsimp only at hcreated ⊢
        split at hcreated
        · cases hcreated
        · next hblank =>
          cases hcreated
          rw [if_neg hblank]
          exact ⟨chain, before, after, rfl, rfl, rfl⟩

/-- **A split dialogue reads its two parts anew.** The segment is cut where the chain of its first
command ends, so that its effects are those of the two parts, each with the line break that followed
it. The nodes have the effects of the parts without it. These are the same, in order, if the line on
which a part ends is plain wherever a line follows. -/
theorem splitDialogue_reads_parts
    (h : splitDialogue lexicon raw clean (Extract.ofText lexicon raw).effects count children
      nextId = parts)
    (hcreated : parts.created = some created) :
    ∃ chain head rest trail, Chain.firstUnless Command.combatNames raw.toList = some chain ∧
      chain.stop = head.length ∧ Cut lexicon raw.toList head rest trail ∧
      parts.effects = (Extract.ofChars lexicon head).effects ∧
      created.value.effects = (Extract.ofChars lexicon (trim rest)).effects ∧
      (PlainBefore head rest → PlainBefore (trim rest) trail →
        parts.effects ++ created.value.effects = (Extract.ofText lexicon raw).effects) := by
  obtain ⟨chain, before, after, hdivide, hhead, htail⟩ := divide_of_created h hcreated
  obtain ⟨hchain, hafter⟩ := of_divide hdivide
  obtain ⟨head, rest, hraw, hstop, hjoint⟩ :=
    Chain.joint_of_mem_scanFrom (List.mem_of_find?_eq_some hchain)
  rw [Nat.zero_add] at hstop
  rw [hraw, hstop, List.take_left] at hhead
  rw [hafter, hraw, hstop, List.drop_left] at htail
  obtain ⟨trail, hcut⟩ := exists_cut lexicon hjoint
  rw [← hraw] at hcut
  refine ⟨chain, head, rest, trail, hchain, hstop, hcut, hhead, htail, fun hplain hplain' => ?_⟩
  rw [Extract.ofText, hcut.effects, Extract.effects_plainBefore hplain,
    Extract.effects_plainBefore hplain', hhead, htail]

/-- Behind gold and a loss of health on one line the story goes on. -/
theorem splitDialogue_reads_parts_chest :
    let raw := "You find a chest.\n>>>>GOLD:10;HEALTH:2\nInside is a map."
    let parts := splitDialogue {} raw "You find a chest. Inside is a map."
      (Extract.ofText {} raw).effects 3 [] 100
    ∃ created, parts.created = some created ∧
      parts.effects ++ created.value.effects = ["GOLD: 10", "HEALTH: 2"] := by
  intro raw parts
  obtain ⟨created, hcreated⟩ : ∃ created, parts.created = some created :=
    Option.isSome_iff_exists.1 (by decide +kernel)
  obtain ⟨chain, head, rest, trail, hchain, hstop, hcut, -, -, hsame⟩ :=
    splitDialogue_reads_parts rfl hcreated
  have hchain' : Chain.firstUnless Command.combatNames raw.toList =
      some ⟨18, 38, [⟨"GOLD", some "10"⟩, ⟨"HEALTH", some "2"⟩], []⟩ := by decide +kernel
  obtain rfl := Option.some.inj (hchain.symm.trans hchain')
  have hraw : raw.toList =
      "You find a chest.\n>>>>GOLD:10;HEALTH:2".toList ++ "\nInside is a map.".toList := by decide
  obtain ⟨rfl, rfl⟩ := List.append_inj (hraw.symm.trans hcut.text)
    ((by decide : _ = 38).trans hstop)
  refine ⟨created, hcreated, (hsame (fun _ => ⟨by decide, by decide +kernel⟩)
    (fun _ => ⟨by decide, by decide +kernel⟩)).trans ?_⟩
  decide +kernel

/-- With a space behind the semicolon the loss of health is not read a second time. -/
theorem not_splitDialogue_conserves_chest :
    let raw := "You find a chest.\n>>>>GOLD:10; HEALTH:2\nInside is a map."
    let parts := splitDialogue {} raw "You find a chest. Inside is a map."
      (Extract.ofText {} raw).effects 3 [] 100
    ∃ created, parts.created = some created ∧
      parts.effects ++ created.value.effects ≠ (Extract.ofText {} raw).effects := by
  intro raw parts
  have heffects : parts.created.map (fun created => created.value.effects) = some [] := by
    decide +kernel
  obtain ⟨created, hcreated, hnone⟩ := Option.map_eq_some_iff.1 heffects
  refine ⟨created, hcreated, ?_⟩
  rw [hnone]
  decide +kernel

/-! ### Fights -/

def isFight (effect : String) : Bool := Text.mentions effect "COMBAT:"

theorem suffix_of_dropFolded? {word cs rest : List Char}
    (h : Text.dropFolded? word cs = some rest) : rest <:+ cs := by
  obtain ⟨shown, rfl, -⟩ := Text.exists_append_of_dropFolded? h
  exact List.suffix_append shown rest

theorem eq_append_of_readFight {cs : List Char} {found : Unit × List Char}
    (h : readFight cs = some found) :
    ∃ fight, cs = fight ++ found.2 ∧ Text.Stops (· != '\n') found.2 := by
  obtain ⟨tail, htail, h⟩ := Option.bind_eq_some_iff.1 h
  cases h
  generalize hnamed : (if (Text.dropPattern? ['>', '>', '>'] cs).isSome then
    cs.dropWhile (· == '>') else cs) = named at htail
  have hnamed : named <:+ cs := by
    rw [← hnamed]
    split
    · exact List.dropWhile_suffix _
    · exact List.suffix_rfl
  have hdirect : (Text.dropFolded? "direct".toList named).getD named <:+ named := by
    cases hword : Text.dropFolded? "direct".toList named with
    | none => exact List.suffix_rfl
    | some rest => exact suffix_of_dropFolded? hword
  obtain ⟨fight, hfight⟩ := (List.dropWhile_suffix (· != '\n') (l := tail)).trans
    ((suffix_of_dropFolded? htail).trans (hdirect.trans hnamed))
  exact ⟨fight, hfight.symm, Text.stops_dropWhile _ _⟩

theorem search_of_created
    (h : splitFight lexicon raw effects children nextId = parts)
    (hcreated : parts.created = some created) :
    ∃ before found, Text.search readFight raw.toList = some (before, found) ∧
      parts.effects = effects.filter isFight ∧
      created.value.effects = (Extract.ofChars lexicon (trim found.2)).effects := by
  subst h
  unfold splitFight at hcreated ⊢
  cases hsearch : Text.search readFight raw.toList with
  | none =>
      rw [hsearch] at hcreated
      cases hcreated
  | some cut =>
      obtain ⟨before, found⟩ := cut
      rw [hsearch] at hcreated
      dsimp only at hcreated ⊢
      split at hcreated
      · cases hcreated
      · next hblank =>
        cases hcreated
        rw [if_neg hblank]
        exact ⟨before, found, rfl, rfl, rfl⟩

theorem effects_of_not_created
    (h : splitFight lexicon raw effects children nextId = parts) (hnone : parts.created = none) :
    parts.effects = effects := by
  subst h
  unfold splitFight at hnone ⊢
  split
  · rfl
  · next hsearch =>
    rw [hsearch] at hnone
    dsimp only at hnone ⊢
    split
    · rfl
    · next hblank =>
      rw [if_neg hblank] at hnone
      cases hnone

theorem filter_append_perm_append (keeps : String → Bool) (first later : List String) :
    (first.filter keeps ++ later ++ first.filter (!keeps ·)).Perm (first ++ later) := by
  have hswap : (later ++ first.filter (!keeps ·)).Perm (first.filter (!keeps ·) ++ later) :=
    List.perm_append_comm
  rw [List.append_assoc]
  refine (hswap.append_left _).trans ?_
  rw [← List.append_assoc]
  exact (List.filter_append_perm keeps first).append_right later

/-- **A split fight gives up only what else was said up to its line.** If no node is split off, the
effects stay. Otherwise the segment is cut at the end of the fight's line. The fight keeps the
effects of the segment that tell of a fight, in order, and the node split off has those of the rest,
read anew. If the last line of the rest is plain wherever a line break followed it, no effect is
lost but those up to the end of the fight's line that tell of no fight; and together with these the
two nodes have just the effects of the segment if the rest tells of no fight. -/
theorem splitFight_gives_up (lexicon : Lexicon) (raw : String) (children : List Node) (nextId : Int)
    (parts : Parts)
    (h : splitFight lexicon raw (Extract.ofText lexicon raw).effects children nextId = parts) :
    (parts.created = none → parts.effects = (Extract.ofText lexicon raw).effects) ∧
    ∀ created, parts.created = some created →
      ∃ before fight rest trail, Text.search readFight raw.toList = some (before, (), rest) ∧
        Cut lexicon raw.toList (before ++ fight) rest trail ∧
        parts.effects = (Extract.ofText lexicon raw).effects.filter isFight ∧
        created.value.effects = (Extract.ofChars lexicon (trim rest)).effects ∧
        (PlainBefore (trim rest) trail →
          let lost := (Extract.ofChars lexicon (before ++ fight ++ lineEnd rest)).effects.filter
            (!isFight ·)
          (Extract.ofText lexicon raw).effects.Subperm
              (parts.effects ++ created.value.effects ++ lost) ∧
            ((∀ effect ∈ created.value.effects, isFight effect = false) →
              (parts.effects ++ created.value.effects ++ lost).Perm
                (Extract.ofText lexicon raw).effects)) := by
  refine ⟨effects_of_not_created h, fun created hcreated => ?_⟩
  obtain ⟨before, ⟨⟨⟩, rest⟩, hsearch, heffects, hrest⟩ := search_of_created h hcreated
  obtain ⟨middle, hmiddle, hfight⟩ := Text.eq_append_of_search hsearch
  obtain ⟨fight, rfl, hstop⟩ := eq_append_of_readFight hfight
  dsimp only at hrest hstop hmiddle
  have hjoint : Chain.Joint (before ++ fight) rest :=
    .inl fun c hc => by
      have hc := hstop c hc
      simp only [bne_eq_false_iff_eq] at hc
      rw [hc]
      rfl
  obtain ⟨trail, hcut⟩ := exists_cut lexicon hjoint
  rw [List.append_assoc before fight rest, ← hmiddle] at hcut
  refine ⟨before, fight, rest, trail, hsearch, hcut, heffects, hrest, fun hplain => ?_⟩
  have htext := hcut.effects
  rw [Extract.effects_plainBefore hplain, ← hrest] at htext
  rw [heffects, Extract.ofText, htext]
  generalize (Extract.ofChars lexicon (before ++ fight ++ lineEnd rest)).effects = first
  generalize created.value.effects = later
  rw [List.filter_append]
  have hperm := filter_append_perm_append isFight first later
  refine ⟨hperm.symm.subperm.trans (List.Sublist.subperm ?_), fun hcalm => ?_⟩
  · exact ((List.sublist_append_left _ _).append_right later).append_right _
  · have hnone : later.filter isFight = [] :=
      List.filter_eq_nil_iff.2 fun effect heffect => by simp [hcalm effect heffect]
    rw [hnone, List.append_nil]
    exact hperm

/-- Gold that is found before a wolf attacks, and a pelt after it. -/
theorem splitFight_gives_up_wolf :
    let raw := ">>>>GOLD:5\n>>>>COMBAT:Wolf\n>>>>ITEM:Pelt\nYou survive."
    let parts := splitFight {} raw (Extract.ofText {} raw).effects [] 100
    ∃ created, parts.created = some created ∧
      (parts.effects ++ created.value.effects ++ ["GOLD: 5"]).Perm
        (Extract.ofText {} raw).effects := by
  intro raw parts
  obtain ⟨created, hcreated⟩ : ∃ created, parts.created = some created :=
    Option.isSome_iff_exists.1 (by decide +kernel)
  obtain ⟨before, fight, rest, trail, hsearch, hcut, -, hrest, hlast⟩ :=
    (splitFight_gives_up {} raw [] 100 parts rfl).2 created hcreated
  have hsearch' : Text.search readFight raw.toList =
      some (">>>>GOLD:5\n".toList, (), "\n>>>>ITEM:Pelt\nYou survive.".toList) := by decide +kernel
  cases hsearch.symm.trans hsearch'
  have hraw : raw.toList = ">>>>GOLD:5\n".toList ++ ">>>>COMBAT:Wolf".toList ++
      "\n>>>>ITEM:Pelt\nYou survive.".toList := by decide
  have htext := hcut.text.symm.trans hraw
  obtain rfl := List.append_cancel_left (List.append_cancel_right htext)
  have hlost : (Extract.ofChars {} (">>>>GOLD:5\n".toList ++ ">>>>COMBAT:Wolf".toList ++
      lineEnd "\n>>>>ITEM:Pelt\nYou survive.".toList)).effects.filter (!isFight ·) =
        ["GOLD: 5"] := by decide +kernel
  have hcalm : ∀ effect ∈ created.value.effects, isFight effect = false := by
    rw [hrest]
    decide +kernel
  have hperm := (hlast fun _ => ⟨by decide, by decide +kernel⟩).2 hcalm
  rw [hlost] at hperm
  exact ⟨created, hcreated, hperm⟩

/-- The gold is on neither node. -/
theorem not_splitFight_conserves_wolf :
    let raw := ">>>>GOLD:5\n>>>>COMBAT:Wolf\nYou survive."
    let parts := splitFight {} raw (Extract.ofText {} raw).effects [] 100
    ∃ created, parts.created = some created ∧
      ¬(parts.effects ++ created.value.effects).Perm (Extract.ofText {} raw).effects := by
  intro raw parts
  have heffects : parts.created.map (fun created => created.value.effects) = some [] := by
    decide +kernel
  obtain ⟨created, hcreated, hnone⟩ := Option.map_eq_some_iff.1 heffects
  refine ⟨created, hcreated, ?_⟩
  rw [hnone]
  decide +kernel

end Segment

end StoryAtlas
