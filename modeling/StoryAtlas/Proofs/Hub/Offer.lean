import Mathlib.Data.Finset.Card
import StoryAtlas.Proofs.Hub.Fold
import StoryAtlas.Proofs.Hub.Order

/-!
# Who offers a menu again

A group consists of a hub and of nodes that offer its menu again: all of the menu, or all but one
choice. That is meant of the choices as a set. What is counted when a node is met is the list of its
labels, though, and a label may stand in it more than once. So a node that repeats labels can pass
for one that has the whole menu. How much of a menu is really offered is settled by how many labels
the node repeats and how many the hub does.

Groups are kept under the id of the hub. Where ids are distinct, the menu of a group is that of its
hub; otherwise it may be that of another node with the hub's id.
-/

namespace StoryAtlas.Hub

/-! ### Menus as lists and as sets -/

/-- How many entries of a list repeat an earlier one. -/
def repeats (labels : List String) : Nat := labels.length - labels.toFinset.card

theorem card_add_repeats (labels : List String) :
    labels.toFinset.card + repeats labels = labels.length :=
  Nat.add_sub_cancel' (List.toFinset_card_le labels)

theorem repeats_of_perm {labels others : List String} (h : labels.Perm others) :
    repeats labels = repeats others := by
  rw [repeats, repeats, h.length_eq, List.toFinset_eq_of_perm _ _ h]

/-- The choices are among the menu, and there are as many of them or one less. -/
structure Offers (menu choices : List String) : Prop where
  among : choices ⊆ menu
  count : menu.length = choices.length ∨ menu.length = choices.length + 1

/-- The same for the sets of labels. -/
structure Reoffers (menu choices : List String) : Prop where
  among : choices ⊆ menu
  count : menu.toFinset.card = choices.toFinset.card ∨
    menu.toFinset.card = choices.toFinset.card + 1

theorem offersAgain_iff {menu choices : List String} :
    offersAgain menu choices = true ↔ Offers menu choices := by
  simp only [offersAgain, Bool.and_eq_true, decide_eq_true_eq, List.all_eq_true,
    List.contains_iff_mem]
  constructor
  · rintro ⟨⟨hle, hlt⟩, hamong⟩
    exact ⟨hamong, by omega⟩
  · rintro ⟨hamong, hcount⟩
    exact ⟨⟨by omega, by omega⟩, hamong⟩

theorem Offers.of_perm {menu other choices : List String} (h : Offers menu choices)
    (hperm : menu.Perm other) : Offers other choices where
  among := fun _ hlabel => hperm.mem_iff.1 (h.among hlabel)
  count := hperm.length_eq ▸ h.count

/-- A menu that is offered again as a list is so as a set unless too many labels are repeated. -/
theorem Offers.reoffers_iff {menu choices : List String} (h : Offers menu choices) :
    Reoffers menu choices ↔
      repeats choices + menu.length ≤ repeats menu + choices.length + 1 := by
  have hmenu := card_add_repeats menu
  have hchoices := card_add_repeats choices
  have hle : choices.toFinset.card ≤ menu.toFinset.card :=
    Finset.card_le_card fun _ hlabel =>
      List.mem_toFinset.2 (h.among (List.mem_toFinset.1 hlabel))
  constructor
  · rintro ⟨-, hcount⟩
    omega
  · intro hrepeats
    exact ⟨h.among, by omega⟩

/-! ### Members of a group -/

/-- The member offers the menu of a hub again, and the labels are the menu of a node with the hub's
id. -/
def Rejoins (root : Placed) (labels : List String) (member : Member) : Prop :=
  ∃ opener ∈ root.walk, ∃ hub ∈ root.walk, Placed.id opener = Placed.id hub ∧
    labels = sortTexts (choiceLabels opener) ∧ Offers (choiceLabels hub) (choiceLabels member.node)

/-- The first member is a hub with the menu, and the others offer it again. -/
def Offered (root : Placed) (id : Int) (group : Group) : Prop :=
  ∃ hub others, group.members = hub :: others ∧ hub.node ∈ root.walk ∧ hub.node.id = id ∧
    group.labels = sortTexts (choiceLabels hub.node) ∧
    ∀ member ∈ others, Rejoins root group.labels member

variable {root : Placed} {confirmed : Register Int Group} {candidate : Member × List String}
  {member : Member} {id : Int}

def AllOffered (root : Placed) (confirmed : Register Int Group) : Prop :=
  ∀ entry ∈ confirmed, Offered root entry.1 entry.2

/-- A candidate is a node of the tree together with its menu. -/
def Candidate (root : Placed) (candidate : Member × List String) : Prop :=
  candidate.1.node ∈ root.walk ∧ candidate.2 = choiceLabels candidate.1.node

theorem rejoins_self {hub : Member} (hhub : hub.node ∈ root.walk) :
    Rejoins root (sortTexts (choiceLabels hub.node)) hub :=
  ⟨hub.node, hhub, hub.node, hhub, rfl, rfl, List.Subset.refl _, .inl rfl⟩

theorem offered_confirm (hcandidate : Candidate root candidate)
    (hjoins : Joins member (choiceLabels member.node) candidate)
    (h : AllOffered root confirmed) :
    AllOffered root (confirm confirmed candidate.1 candidate.2 member) := by
  intro entry hentry
  rcases Register.mem_put hentry with rfl | hold
  swap
  · exact h entry hold
  obtain ⟨hub, labels⟩ := candidate
  obtain ⟨hwalk, rfl⟩ : hub.node ∈ root.walk ∧ labels = choiceLabels hub.node := hcandidate
  have hoffers : Offers (choiceLabels hub.node) (choiceLabels member.node) :=
    offersAgain_iff.1 hjoins.2
  cases hget : Register.get? hub.node.id confirmed with
  | none =>
      refine ⟨hub, [member], rfl, hwalk, rfl, rfl, fun other hother => ?_⟩
      rw [List.mem_singleton.1 hother]
      exact ⟨hub.node, hwalk, hub.node, hwalk, rfl, rfl, hoffers⟩
  | some group =>
      obtain ⟨opener, others, hmembers, hopener, hid, hlabels, hothers⟩ :=
        h _ (Register.mem_of_get? hget)
      refine ⟨opener, others ++ [member], ?_, hopener, hid, hlabels, fun other hother => ?_⟩
      · rw [Option.getD_some, hmembers, List.cons_append]
      · rcases List.mem_append.1 hother with hother | hother
        · exact hothers other hother
        · rw [List.mem_singleton.1 hother]
          exact ⟨opener.node, hopener, hub.node, hwalk, hid, hlabels, hoffers⟩

theorem offered_offer (hcandidate : Candidate root candidate) (h : AllOffered root confirmed) :
    AllOffered root (offer member (choiceLabels member.node) confirmed candidate) := by
  by_cases hjoins : Joins member (choiceLabels member.node) candidate
  · rw [offer_of_joins confirmed hjoins]
    exact offered_confirm hcandidate hjoins h
  · rw [offer_of_not_joins confirmed hjoins]
    exact h

/-- Candidates are nodes of the tree, and the groups offer the menus of their hubs. -/
structure Offering (root : Placed) (survey : Survey) : Prop where
  candidates : ∀ candidate ∈ survey.candidates, Candidate root candidate
  confirmed : AllOffered root survey.confirmed

theorem offering_meet {minChoices : Int} {survey : Survey} {found : Placed × Nat}
    (hfound : found ∈ root.breadthWithDepth) (h : Offering root survey) :
    Offering root (meet minChoices survey found) := by
  cases hmay : mayBelong found.1 with
  | false =>
      rw [meet_of_not_mayBelong hmay]
      exact h
  | true =>
      rw [meet_of_mayBelong hmay]
      dsimp only
      have hcandidates : ∀ candidate ∈ (if minChoices ≤ (choiceLabels found.1).length then
          survey.candidates ++ [((⟨found.1, found.2⟩ : Member), choiceLabels found.1)]
          else survey.candidates), Candidate root candidate := by
        intro candidate hcandidate
        split at hcandidate
        · rcases List.mem_append.1 hcandidate with hold | hnew
          · exact h.candidates candidate hold
          · rw [List.mem_singleton.1 hnew]
            exact ⟨Rose.mem_breadthWithDepth hfound, rfl⟩
        · exact h.candidates candidate hcandidate
      refine ⟨hcandidates, ?_⟩
      dsimp only
      split
      · exact h.confirmed
      · apply List.foldlRecOn _ _ h.confirmed
        intro confirmed hconfirmed candidate hmem
        have hoffered : AllOffered root
            (offer ⟨found.1, found.2⟩ (choiceLabels found.1) confirmed candidate) :=
          offered_offer (hcandidates candidate hmem) hconfirmed
        exact hoffered

theorem offering_survey (root : Placed) (minChoices : Int) :
    Offering root (root.breadthWithDepth.foldl (meet minChoices) {}) :=
  List.foldlRecOn root.breadthWithDepth _ ⟨nofun, nofun⟩ fun _ h _ hfound => offering_meet hfound h

/-! ### Merged groups -/

def AllMerged (root : Placed) (merged : Register (List String) Group) : Prop :=
  ∀ entry ∈ merged, entry.2.labels = entry.1 ∧ ∃ id, Offered root id entry.2

/-- Joining groups with the same labels joins members that offer the same menu. -/
theorem offered_merge {merged : Register (List String) Group} {group : Group}
    (hgroup : Offered root id group) (h : AllMerged root merged) :
    AllMerged root (merge merged group) := by
  intro entry hentry
  cases hget : Register.get? group.labels merged with
  | none =>
      rw [merge_of_none hget] at hentry
      rcases List.mem_append.1 hentry with hold | hnew
      · exact h entry hold
      · rw [List.mem_singleton.1 hnew]
        exact ⟨rfl, id, hgroup⟩
  | some existing =>
      obtain ⟨hsame, first, opener, others, hmembers, hopener, hid, hlabels, hothers⟩ :=
        h _ (Register.mem_of_get? hget)
      obtain ⟨added, hadded, hmerge⟩ := merge_of_some hget
      rw [hmerge] at hentry
      rcases Register.mem_put hentry with rfl | hold
      swap
      · exact h entry hold
      refine ⟨hsame, first, opener, others ++ added, ?_, hopener, hid, hlabels, ?_⟩
      · rw [Group.joined, hmembers, List.cons_append]
      · intro other hother
        rcases List.mem_append.1 hother with hother | hother
        · exact hothers other hother
        -- the hub of the group that is joined counts as one who offers the menu
        obtain ⟨hub, rest, hrest, hwalk, -, hmenu, hrejoin⟩ := hgroup
        have hlabelled : existing.labels = group.labels := hsame
        have hin := hadded hother
        rw [hrest] at hin
        change Rejoins root existing.labels other
        rw [hlabelled]
        rcases List.mem_cons.1 hin with rfl | hin
        · rw [hmenu]
          exact rejoins_self hwalk
        · exact hrejoin other hin

theorem offered_groups {minChoices : Int} {group : Group}
    (hgroup : group ∈ groups minChoices root) :
    ∃ id, Offered root id group := by
  have hmerged : AllMerged root
      ((root.breadthWithDepth.foldl (meet minChoices) {}).confirmed.foldl
        (fun merged entry => merge merged entry.2) []) := by
    apply List.foldlRecOn _ _ nofun
    intro merged hmerged entry hentry
    exact offered_merge ((offering_survey root minChoices).confirmed entry hentry) hmerged
  obtain ⟨entry, hentry, rfl⟩ := List.mem_map.1 hgroup
  exact (hmerged entry hentry).2

theorem Rejoins.offers (distinct : (Placed.ids root).Nodup) {labels : List String}
    (h : Rejoins root labels member) : Offers labels (choiceLabels member.node) := by
  obtain ⟨opener, hopener, hub, hhub, hid, rfl, hoffers⟩ := h
  obtain rfl := Placed.eq_of_id_eq distinct hopener hhub hid
  exact hoffers.of_perm (List.mergeSort_perm _ _).symm

/-- The members of a group are dialogue nodes with a text and without a reference, and all but the
first offer the menu of a hub again, label by label. As a set the menu is offered again exactly
where not too many labels are repeated. Where ids are distinct, that menu is the menu of the
group. -/
theorem offers_of_mem_groups (minChoices : Int) (root : Placed) {group : Group}
    (hgroup : group ∈ groups minChoices root) :
    (∀ member ∈ group.members, member.node ∈ root.walk ∧ member.node.beat.kind = .dialogue ∧
      member.node.beat.ref = none ∧ (present member.node.beat.text).isSome) ∧
    ∀ member ∈ group.members.tail,
      Rejoins root group.labels member ∧
      ((Placed.ids root).Nodup →
        Offers group.labels (choiceLabels member.node) ∧
        (Reoffers group.labels (choiceLabels member.node) ↔
          repeats (choiceLabels member.node) + group.labels.length ≤
            repeats group.labels + (choiceLabels member.node).length + 1)) := by
  have hbelongs := belongs_of_mem_groups hgroup
  constructor
  · intro member hmember
    have hbelong := hbelongs member hmember
    have hmay := hbelong.2
    rw [mayBelong, Bool.and_eq_true] at hmay
    exact ⟨hbelong.mem_walk, hbelong.kind, hbelong.ref, hmay.2⟩
  · intro member hmember
    obtain ⟨id, hub, others, hmembers, -, -, -, hrejoin⟩ := offered_groups hgroup
    rw [hmembers, List.tail_cons] at hmember
    have hrejoins := hrejoin member hmember
    refine ⟨hrejoins, fun distinct => ?_⟩
    have hoffers := hrejoins.offers distinct
    exact ⟨hoffers, hoffers.reoffers_iff⟩

/-- A chapel with a menu of three, and an altar that offers one choice of it twice. -/
def chapel : Node :=
  .node { id := 0, kind := .dialogue, text := some "A chapel." } [
    .node { id := 1, kind := .dialogue, text := some "The altar.", label := some "Pray" } [
      .node { id := 4, kind := .ending, text := some "A hymn.", label := some "Pray" } [],
      .node { id := 5, kind := .ending, text := some "A psalm.", label := some "Pray" } []],
    .node { id := 2, kind := .ending, text := some "A flame.", label := some "Light a candle" } [],
    .node { id := 3, kind := .ending, text := some "A door.", label := some "Leave" } []]

def altar : Member := ⟨(chapel.placed.children.head?).getD default, 1⟩

def prayers : Group :=
  ⟨sortTexts ["Pray", "Light a candle", "Leave"], [⟨chapel.placed, 0⟩, altar]⟩

theorem groups_chapel : groups 3 chapel.placed = [prayers] := rfl

theorem prayers_mem_groups : prayers ∈ groups 3 chapel.placed := by
  rw [groups_chapel]
  exact List.mem_singleton_self prayers

theorem repeats_labels_prayers :
    repeats prayers.labels = 0 ∧ prayers.labels.length = 3 := by
  have hperm : prayers.labels.Perm ["Pray", "Light a candle", "Leave"] := List.mergeSort_perm _ _
  exact ⟨(repeats_of_perm hperm).trans (by decide), hperm.length_eq⟩

/-- The altar is counted among those who offer the menu of the chapel again. -/
theorem offers_prayers :
    prayers ∈ groups 3 chapel.placed ∧ (Placed.ids chapel.placed).Nodup ∧
      Offers prayers.labels (choiceLabels altar.node) := by
  have hdistinct : (Placed.ids chapel.placed).Nodup := by decide
  have hgroup := prayers_mem_groups
  have haltar : altar ∈ prayers.members.tail := List.mem_singleton_self altar
  exact ⟨hgroup, hdistinct,
    (((offers_of_mem_groups 3 chapel.placed hgroup).2 altar haltar).2 hdistinct).1⟩

/-- As a set its menu lacks two choices of the chapel's. -/
theorem not_reoffers_prayers :
    prayers ∈ groups 3 chapel.placed ∧ altar ∈ prayers.members.tail ∧
      ¬Reoffers prayers.labels (choiceLabels altar.node) := by
  refine ⟨prayers_mem_groups, List.mem_singleton_self altar, fun h => ?_⟩
  have hmenu := card_add_repeats prayers.labels
  obtain ⟨hnone, hlength⟩ := repeats_labels_prayers
  have hchoices : (choiceLabels altar.node).toFinset.card = 1 := by decide
  have hcount := h.count
  omega

end StoryAtlas.Hub
