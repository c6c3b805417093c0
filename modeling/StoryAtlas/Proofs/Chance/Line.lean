import StoryAtlas.Proofs.Chance.Gift

/-!
# Lines that keep their effects

The effects of a tree are the same after the masking if no line of single children grants twice
alike and each grant is spelled as the masking spells it: then a giver has one copy of each grant,
and its child receives that one. If moreover a line rolls for one stake, and amounts are written
with a single space, a child receives a grant only if it names an amount of that range.
-/

namespace StoryAtlas.Roll

open Text

def isRoll (effect : String) : Bool :=
  Stake.all.any fun stake => (readBounds stake effect.toList).isSome

/-- The effect is spelled as the masking spells what it grants. -/
def Plain (effect : String) : Prop := ∀ found, Grants effect found → grant found = effect

theorem grants_iff {effect : String} {found : Stake × RollRange} :
    Grants effect found ↔ grantedRange [effect] found.1 = .ok (some found) := by
  constructor
  · rintro ⟨least, most, hbounds, hleast, hmost⟩
    simp only [grantedRange, List.findSome?_cons, hbounds, hleast, hmost]
    rfl
  · intro h
    obtain ⟨-, effect, heffect, hgrants⟩ := exists_of_grantedRange h
    obtain rfl := List.mem_singleton.1 heffect
    exact hgrants

theorem plain_iff {effect : String} :
    Plain effect ↔ ∀ stake ∈ Stake.all, ∀ found ∈ (grantedRange [effect] stake).toOption.join,
      grant found = effect := by
  constructor
  · intro h stake hstake found hfound
    have hgranted : grantedRange [effect] stake = .ok (some found) :=
      eq_ok_of_toOption (Option.join_eq_some_iff.1 hfound)
    obtain ⟨rfl, -⟩ := exists_of_grantedRange hgranted
    exact h found (grants_iff.2 hgranted)
  · intro h found hgrants
    refine h found.1 (by cases found.1 <;> decide) found ?_
    rw [grants_iff.1 hgrants]
    rfl

instance (effect : String) : Decidable (Plain effect) := decidable_of_iff _ plain_iff.symm

/-- The effects below a node on its line of single dialogue children. -/
def below : Node → List String
  | .node _ [only] =>
    if only.value.kind = .dialogue then only.value.effects ++ below only else []
  | .node _ _ => []

/-- The effects of a node are plain, and no rolled one is there twice with those below. -/
structure Sparing (effects : List String) (node : Node) : Prop where
  plain : ∀ effect ∈ effects, Plain effect
  once : ((effects ++ below node).filter isRoll).Nodup

/-- The text names its amounts with a single space. -/
def Spaced (node : Node) : Prop :=
  ∀ text ∈ node.value.text, ∀ stake digits blanks, Names text.toList stake digits blanks →
    blanks = [' ']

/-- The effects of the line roll for one stake, and the children name amounts with a single space. -/
structure Clear (effects : List String) (node : Node) : Prop extends Sparing effects node where
  alike : ∃ stake, ∀ effect ∈ effects ++ below node, ∀ other,
    (readBounds other effect.toList).isSome = true → other = stake
  spaced : ∀ child ∈ node.children, Spaced child

theorem spaced_of_cuts {node : Node}
    (h : ∀ text ∈ node.value.text, ∀ stake ∈ Stake.all, ∀ back ∈ text.toList.tails,
      back.takeWhile isDigit ≠ [] →
      (dropFolded? stake.word.toList ((back.dropWhile isDigit).dropWhile isBlank)).isSome = true →
      (back.dropWhile isDigit).takeWhile isBlank = [' ']) : Spaced node := by
  intro text htext stake digits blanks hnames
  obtain ⟨back, hback, rfl, hne, rfl, hword⟩ := cut_of_names hnames
  exact h text htext stake (by cases stake <;> decide) back hback hne hword

/-- The child's text names an amount of the range. -/
def Shows (child : Node) (found : Stake × RollRange) : Prop :=
  ∃ text digits amount, child.value.text = some text ∧ Names text.toList found.1 digits [' '] ∧
    wholeOfRun digits = .ok amount ∧ found.2.holds amount = true

section Sparing

variable {effect : String} {found other : Stake × RollRange}

theorem isRoll_of_grants (h : Grants effect found) : isRoll effect = true := by
  obtain ⟨least, most, hbounds, -⟩ := h
  have hstake : found.1 ∈ Stake.all := by cases found.1 <;> decide
  exact List.any_eq_true.2 ⟨found.1, hstake, by rw [hbounds]; rfl⟩

theorem eq_of_grant_eq (h : grant found = grant other) : found.1 = other.1 := by
  have hhead : ∀ found : Stake × RollRange,
      (grant found).toList.head? = found.1.command.toList.head? := by
    rintro ⟨stake, range⟩
    cases stake <;> simp [grant, Stake.command, String.toList_append]
  have hsame := hhead found
  rw [h, hhead other] at hsame
  revert hsame
  cases found.1 <;> cases other.1 <;> decide

section Give

variable {gift : Gift} {old : Beat}

theorem mem_of_mem_grants (hdue : gift.Due)
    (h : Sparing gift.giver.beat.effects (.node old [gift.only]))
    (heffect : effect ∈ gift.giver.grants) :
    effect ∈ gift.giver.beat.effects ∧ isRoll effect = true := by
  obtain ⟨found, hfound, rfl⟩ := List.mem_map.1 heffect
  obtain ⟨effect, hmem, hgrants⟩ := hdue.ranges found hfound
  rw [h.plain effect hmem found hgrants]
  exact ⟨hmem, isRoll_of_grants hgrants⟩

/-- Among plain effects that are there once, a node gives exactly what its child receives. -/
theorem perm_grants (hdue : gift.Due)
    (h : Sparing gift.giver.beat.effects (.node old [gift.only])) :
    gift.giver.taken.Perm gift.giver.grants := by
  have hgrants : ∀ effect ∈ gift.giver.grants,
      effect ∈ gift.giver.beat.effects ∧ isRoll effect = true := fun effect heffect =>
    mem_of_mem_grants hdue h heffect
  have hnodup : gift.giver.grants.Nodup :=
    List.pairwise_map.2 ((List.pairwise_map.1 hdue.stakes).imp fun hne heq =>
      hne (eq_of_grant_eq heq))
  have hown : (gift.giver.beat.effects.filter isRoll).Nodup :=
    h.once.sublist ((List.sublist_append_left _ _).filter isRoll)
  have htaken : gift.giver.taken.Nodup := by
    refine hown.sublist (List.monotone_filter_right gift.giver.beat.effects fun effect heffect => ?_)
    exact (hgrants effect (by simpa using heffect)).2
  refine (List.perm_ext_iff_of_nodup htaken hnodup).2 fun effect => ?_
  rw [Revealed.taken, List.mem_filter, List.contains_iff_mem]
  exact ⟨And.right, fun heffect => ⟨(hgrants effect heffect).1, heffect⟩⟩

theorem below_of_dialogue (h : gift.only.value.kind = .dialogue) :
    below (.node old [gift.only]) = gift.only.value.effects ++ below gift.only := by
  rw [below, if_pos h]

theorem Sparing.give (hdue : gift.Due)
    (h : Sparing gift.giver.beat.effects (.node old [gift.only]))
    (hself : Sparing gift.only.value.effects gift.only) :
    Sparing (gift.only.value.effects ++ gift.giver.grants) gift.only where
  plain effect heffect := (List.mem_append.1 heffect).elim (hself.plain effect) fun hgranted =>
    h.plain effect (mem_of_mem_grants hdue h hgranted).1
  once := by
    have honce := h.once
    rw [below_of_dialogue hdue.due.dialogue] at honce
    have htaken : gift.giver.taken.Sublist gift.giver.beat.effects := List.filter_sublist
    have hmoved : (gift.giver.taken ++ (gift.only.value.effects ++ below gift.only)).Perm
        (gift.only.value.effects ++ gift.giver.grants ++ below gift.only) := by
      refine ((perm_grants hdue h).append_right _).trans ?_
      rw [← List.append_assoc]
      exact List.perm_append_comm.append_right _
    refine (hmoved.filter isRoll).nodup_iff.1 (honce.sublist ?_)
    exact (htaken.append_right _).filter isRoll

theorem Clear.give (hdue : gift.Due)
    (h : Clear gift.giver.beat.effects (.node old [gift.only]))
    (hself : Clear gift.only.value.effects gift.only) :
    Clear (gift.only.value.effects ++ gift.giver.grants) gift.only where
  toSparing := h.toSparing.give hdue hself.toSparing
  alike := by
    obtain ⟨stake, halike⟩ := h.alike
    rw [below_of_dialogue hdue.due.dialogue] at halike
    refine ⟨stake, fun effect heffect => halike effect ?_⟩
    simp only [List.mem_append] at heffect ⊢
    rcases heffect with (hown | hgranted) | hlater
    · exact .inr (.inl hown)
    · exact .inl (mem_of_mem_grants hdue h.toSparing hgranted).1
    · exact .inr (.inr hlater)
  spaced := hself.spaced

/-- On a clear line the text of the child names an amount of each range that it receives. -/
theorem Clear.shows (hdue : gift.Due)
    (h : Clear gift.giver.beat.effects (.node old [gift.only])) {found : Stake × RollRange}
    (hfound : found ∈ gift.giver.ranges) : Shows gift.only found := by
  obtain ⟨text, htext, touching, htouching, digits, blanks, amount, hnames, hamount, hholds⟩ :=
    hdue.due.text
  obtain ⟨stake, halike⟩ := h.alike
  have hstake : ∀ other ∈ gift.giver.ranges, other.1 = stake := by
    intro other hother
    obtain ⟨effect, heffect, least, most, hbounds, -⟩ := hdue.ranges other hother
    exact halike effect (List.mem_append_left _ heffect) other.1 (by rw [hbounds]; rfl)
  -- one range for a stake, and one stake
  have hsame : touching = found :=
    List.inj_on_of_nodup_map hdue.stakes htouching hfound
      ((hstake touching htouching).trans (hstake found hfound).symm)
  have hspace := h.spaced gift.only List.mem_cons_self text (present_eq_some htext) _ _ _ hnames
  subst hsame hspace
  exact ⟨text, digits, amount, present_eq_some htext, hnames, hamount,
    hholds.resolve_right fun hne => hne rfl⟩

end Give

end Sparing

/-! ### The whole tree -/

/-- What a clear node loses it hands over to a dialogue child that names an amount of its range. -/
def Releases (node shown : Node) : Prop :=
  ∀ effect ∈ node.value.effects, effect ∉ shown.value.effects →
    ∃ only found, node.children = [only] ∧ only.value.kind = .dialogue ∧ effect = grant found ∧
      Shows only found

section Reveal

variable {root shown : Node} {count : Nat}

theorem of_mem_gifts_root {invariant : List String → Node → Prop}
    (hgive : ∀ (gift : Gift) (old : Beat), gift.Due →
      invariant gift.giver.beat.effects (.node old [gift.only]) →
      invariant gift.only.value.effects gift.only →
      invariant (gift.only.value.effects ++ gift.giver.grants) gift.only)
    (h : reveal root = .ok (shown, count))
    (hnodes : ∀ node ∈ root.walk, invariant node.value.effects node) {gift : Gift}
    (hgift : gift ∈ gifts root.value root) :
    ∃ old, invariant gift.giver.beat.effects (.node old [gift.only]) :=
  of_mem_gifts hgive root h (hnodes root (Rose.self_mem_walk root))
    (fun sub hsub => hnodes sub (Rose.mem_walk.2 (.inr hsub))) hgift

theorem walkForest_singleton (node : Node) : Rose.walkForest [node] = node.walk := by
  rw [Rose.walkForest_eq_flatMap, List.flatMap_singleton]

/-- The hand-overs account for the effects of a tree. On sparing lines they move effects and neither
lose nor copy any; on clear ones an effect goes only to a child that names an amount of its range. -/
theorem reveal_moves (h : reveal root = .ok (shown, count)) :
    Accounts [root] [shown] (gifts root.value root) ∧
      ((∀ node ∈ root.walk, Sparing node.value.effects node) →
        (effectsOf [shown]).Perm (effectsOf [root])) ∧
      ((∀ node ∈ root.walk, Clear node.value.effects node) →
        List.Forall₂ Releases root.walk shown.walk) := by
  have haccounts : Accounts [root] [shown] (gifts root.value root) := by
    have hroot := accounts_revealNode root h
    rwa [Rose.withValue, Rose.node_value_children] at hroot
  refine ⟨haccounts, fun hsparing => ?_, fun hclear => ?_⟩
  · have hsame : ((gifts root.value root).flatMap fun gift => gift.giver.taken).Perm
        ((gifts root.value root).flatMap fun gift => gift.giver.grants) := by
      refine List.Perm.flatMap_left _ fun gift hgift => ?_
      obtain ⟨old, hold⟩ := of_mem_gifts_root (fun _ _ hdue h hself => h.give hdue hself) h
        hsparing hgift
      exact perm_grants (haccounts.due gift hgift) hold
    exact (List.perm_append_right_iff _).1 (haccounts.balance.trans (hsame.symm.append_left _))
  · have hkept := haccounts.kept
    rw [walkForest_singleton, walkForest_singleton] at hkept
    refine hkept.imp fun node after hnode effect heffect hgone => ?_
    obtain ⟨gift, hgift, hchildren, hgranted⟩ := hnode effect heffect hgone
    obtain ⟨found, hfound, rfl⟩ := List.mem_map.1 hgranted
    obtain ⟨old, hold⟩ := of_mem_gifts_root (fun _ _ hdue h hself => h.give hdue hself) h
      hclear hgift
    have hdue := haccounts.due gift hgift
    exact ⟨gift.only, found, hchildren, hdue.due.dialogue, rfl, hold.shows hdue hfound⟩

end Reveal

/-! ### A chest -/

def chest (effects : List String) : Node :=
  .node { id := 0, kind := .dialogue, text := some "A chest.", effects := effects }
    [.node { id := 1, kind := .dialogue, text := some "You get 30 gold." } []]

theorem clear_chest : ∀ node ∈ (chest ["GOLD: random [10 - 50]"]).walk,
    Clear node.value.effects node := by
  have hread : ∀ other, (readBounds other "GOLD: random [10 - 50]".toList).isSome = true →
      other = .gold := by
    intro other
    cases other <;> decide +kernel
  intro node hnode
  rcases List.mem_cons.1 hnode with rfl | hnode
  · refine ⟨⟨by decide +kernel, by decide +kernel⟩, ⟨.gold, fun effect heffect => ?_⟩, ?_⟩
    · obtain rfl := List.mem_singleton.1 heffect
      exact hread
    · intro child hchild
      obtain rfl := List.mem_singleton.1 hchild
      exact spaced_of_cuts (by decide +kernel)
  · obtain rfl := List.mem_singleton.1 hnode
    exact ⟨⟨by decide +kernel, by decide +kernel⟩, ⟨.gold, nofun⟩, nofun⟩

theorem reveal_moves_chest :
    (∀ node ∈ (chest ["GOLD: random [10 - 50]"]).walk, Clear node.value.effects node) ∧
      ∃ shown count, reveal (chest ["GOLD: random [10 - 50]"]) = .ok (shown, count) ∧
        (shown.walk.map fun node => node.value.effects) = [[], ["GOLD: random [10 - 50]"]] ∧
        Accounts [chest ["GOLD: random [10 - 50]"]] [shown]
          (gifts (chest ["GOLD: random [10 - 50]"]).value (chest ["GOLD: random [10 - 50]"])) ∧
        ((∀ node ∈ (chest ["GOLD: random [10 - 50]"]).walk, Sparing node.value.effects node) →
          (effectsOf [shown]).Perm (effectsOf [chest ["GOLD: random [10 - 50]"]])) ∧
        ((∀ node ∈ (chest ["GOLD: random [10 - 50]"]).walk, Clear node.value.effects node) →
          List.Forall₂ Releases (chest ["GOLD: random [10 - 50]"]).walk shown.walk) := by
  have hrun : (reveal (chest ["GOLD: random [10 - 50]"])).toOption.map
      (fun done => done.1.walk.map fun node => node.value.effects) =
        some [[], ["GOLD: random [10 - 50]"]] := by decide +kernel
  obtain ⟨⟨shown, count⟩, hshown, heffects⟩ := exists_ok_of_map_toOption hrun
  exact ⟨clear_chest, shown, count, hshown, heffects, reveal_moves hshown⟩

theorem reveal_loses_twins :
    ∃ shown count, reveal (chest ["GOLD: random [10 - 50]", "GOLD: random [10 - 50]"]) =
        .ok (shown, count) ∧
      effectsOf [shown] = ["GOLD: random [10 - 50]"] ∧
      ¬(effectsOf [shown]).Perm
        (effectsOf [chest ["GOLD: random [10 - 50]", "GOLD: random [10 - 50]"]]) := by
  have hrun : (reveal (chest ["GOLD: random [10 - 50]", "GOLD: random [10 - 50]"])).toOption.map
      (fun done => effectsOf [done.1]) = some ["GOLD: random [10 - 50]"] := by decide +kernel
  obtain ⟨⟨shown, count⟩, hshown, heffects⟩ := exists_ok_of_map_toOption hrun
  refine ⟨shown, count, hshown, heffects, fun hperm => ?_⟩
  have hlength := hperm.length_eq
  rw [show effectsOf [shown] = _ from heffects] at hlength
  exact absurd hlength (by decide)

end StoryAtlas.Roll
