import StoryAtlas.Hub.Group
import StoryAtlas.Proofs.Event.Place

/-!
# The order of hub groups

A group opens when a second node offers the menu of its hub. Nodes are met level by level, so a hub is
no deeper than the node that opens its group, and all who join later are no shallower than that node.
For the same reason groups come in the order of the depths at which they open. Where two hubs have the
same menu, the one met second is a member of the group of the first, so joining their groups leaves
the depth at which the first opened.
-/

namespace StoryAtlas.Hub

namespace Group

def hubDepth (group : Group) : Nat := (group.members[0]?.map Member.depth).getD 0

/-- The depth at which a second member was met. -/
def opening (group : Group) : Nat := (group.members[1]?.map Member.depth).getD 0

/-- There is a second member, no shallower than the hub, and all others are no shallower than it. -/
structure Opened (group : Group) : Prop where
  two : 2 ≤ group.members.length
  hub : group.hubDepth ≤ group.opening
  later : ∀ member ∈ group.members.tail, group.opening ≤ member.depth

def joined (group : Group) (added : List Member) : Group :=
  { group with members := group.members ++ added }

variable {group : Group} {added : List Member}

theorem hubDepth_joined (h : 2 ≤ group.members.length) :
    (group.joined added).hubDepth = group.hubDepth := by
  rw [hubDepth, hubDepth, joined, List.getElem?_append_left (by omega)]

theorem opening_joined (h : 2 ≤ group.members.length) :
    (group.joined added).opening = group.opening := by
  rw [opening, opening, joined, List.getElem?_append_left (by omega)]

theorem Opened.join (h : group.Opened) (hadded : ∀ member ∈ added, group.opening ≤ member.depth) :
    (group.joined added).Opened where
  two := by
    rw [joined, List.length_append]
    have := h.two
    omega
  hub := by
    rw [hubDepth_joined h.two, opening_joined h.two]
    exact h.hub
  later := by
    intro member hmember
    rw [opening_joined h.two]
    have hne : group.members ≠ [] := List.ne_nil_of_length_pos (by have := h.two; omega)
    rw [joined, List.tail_append_of_ne_nil hne] at hmember
    rcases List.mem_append.1 hmember with hmember | hmember
    · exact h.later member hmember
    · exact hadded member hmember

end Group

/-- When a group opened: the sorted menu, and the depths of the hub and of the second member. -/
structure Opening where
  labels : List String
  hub : Nat
  second : Nat

def Group.summary (group : Group) : Opening := ⟨group.labels, group.hubDepth, group.opening⟩

/-- An earlier group opens no deeper than a later one, and no deeper than the hub of a later one with
the same menu. -/
def Opening.Precedes (first second : Opening) : Prop :=
  first.second ≤ second.second ∧ (first.labels = second.labels → first.second ≤ second.hub)

/-- Menus that are the same when sorted have the same labels. -/
theorem perm_of_sortTexts_eq {first second : List String} (h : sortTexts first = sortTexts second) :
    first.Perm second := by
  have hfirst : (sortTexts first).Perm first := List.mergeSort_perm first _
  have hsecond : (sortTexts second).Perm second := List.mergeSort_perm second _
  rw [h] at hfirst
  exact hfirst.symm.trans hsecond

theorem offersAgain_of_perm {hub choices : List String} (h : hub.Perm choices) :
    offersAgain hub choices = true := by
  have hlength := h.length_eq
  simp only [offersAgain, Bool.and_eq_true, decide_eq_true_eq, List.all_eq_true,
    List.contains_iff_mem]
  exact ⟨⟨by omega, by omega⟩, fun label hlabel => h.mem_iff.2 hlabel⟩

theorem ne_nil_of_offersAgain {hub choices : List String} (hchoices : choices ≠ [])
    (h : offersAgain hub choices = true) : hub ≠ [] := by
  rintro rfl
  obtain ⟨first, rest, rfl⟩ := List.exists_cons_of_ne_nil hchoices
  simp [offersAgain] at h

theorem rel_or_rel_of_pairwise {α : Type} {R : α → α → Prop} {items : List α} (h : items.Pairwise R)
    {first second : α} (hfirst : first ∈ items) (hsecond : second ∈ items) (hne : first ≠ second) :
    R first second ∨ R second first := by
  induction h with
  | nil => cases hfirst
  | cons hhead _ ih =>
      rcases List.mem_cons.1 hfirst with rfl | hlater
      · exact .inl (hhead second ((List.mem_cons.1 hsecond).resolve_left hne.symm))
      · rcases List.mem_cons.1 hsecond with rfl | hrest
        · exact .inr (hhead first hlater)
        · exact ih hlater hrest

/-! ### The survey -/

/-- The group of a hub has opened by the time another hub with the same menu is met. -/
def Knows (confirmed : Register Int Group) (first second : Member × List String) : Prop :=
  sortTexts first.2 = sortTexts second.2 → second.2 ≠ [] →
    ∃ group, Register.get? first.1.node.id confirmed = some group ∧
      group.opening ≤ second.1.depth

/-- What is known of a survey of the levels down to a depth. -/
structure Ordered (depth : Nat) (survey : Survey) : Prop where
  shallow : ∀ candidate ∈ survey.candidates, candidate.1.depth ≤ depth
  keys : (survey.confirmed.map Prod.fst).Nodup
  opened : ∀ entry ∈ survey.confirmed, entry.2.Opened ∧ entry.2.opening ≤ depth
  hubs : ∀ entry ∈ survey.confirmed, ∃ candidate ∈ survey.candidates,
    entry.1 = candidate.1.node.id ∧ entry.2.labels = sortTexts candidate.2 ∧
      entry.2.hubDepth = candidate.1.depth
  order : (survey.confirmed.map fun entry => entry.2.summary).Pairwise Opening.Precedes
  known : survey.candidates.Pairwise (Knows survey.confirmed)

/-- No group is lost, and each stays opened as it was. -/
def Grows (confirmed later : Register Int Group) : Prop :=
  ∀ key group, Register.get? key confirmed = some group →
    ∃ grown, Register.get? key later = some grown ∧ grown.opening = group.opening

theorem Grows.refl (confirmed : Register Int Group) : Grows confirmed confirmed :=
  fun _ group h => ⟨group, h, rfl⟩

theorem Grows.trans {first second third : Register Int Group} (h : Grows first second)
    (hlater : Grows second third) : Grows first third := by
  intro key group hgroup
  obtain ⟨middle, hmiddle, hsame⟩ := h key group hgroup
  obtain ⟨grown, hgrown, hsame'⟩ := hlater key middle hmiddle
  exact ⟨grown, hgrown, hsame'.trans hsame⟩

theorem grows_put {confirmed : Register Int Group} {key : Int} {group : Group}
    (h : ∀ old, Register.get? key confirmed = some old → group.opening = old.opening) :
    Grows confirmed (Register.put key group confirmed) := by
  intro other old hold
  rw [Register.get?_put]
  split
  · next hsame =>
    subst hsame
    exact ⟨group, rfl, h old hold⟩
  · exact ⟨old, hold, rfl⟩

def Joins (member : Member) (choices : List String) (candidate : Member × List String) : Prop :=
  candidate.1.node.place ≠ member.node.place ∧ offersAgain candidate.2 choices = true

def offer (member : Member) (choices : List String) (confirmed : Register Int Group)
    (candidate : Member × List String) : Register Int Group :=
  if candidate.1.node.place = member.node.place ∨ !offersAgain candidate.2 choices then confirmed
  else confirm confirmed candidate.1 candidate.2 member

section Joins

variable {member : Member} {choices : List String} {candidate : Member × List String}

theorem offer_of_joins (confirmed : Register Int Group) (h : Joins member choices candidate) :
    offer member choices confirmed candidate = confirm confirmed candidate.1 candidate.2 member :=
  if_neg fun hskip => hskip.elim h.1 fun hnot => by simp [h.2] at hnot

theorem offer_of_not_joins (confirmed : Register Int Group) (h : ¬Joins member choices candidate) :
    offer member choices confirmed candidate = confirmed := by
  refine if_pos (Classical.or_iff_not_imp_left.2 fun hplace => ?_)
  cases hoffers : offersAgain candidate.2 choices with
  | false => rfl
  | true => exact absurd ⟨hplace, hoffers⟩ h

theorem exists_group_confirm (confirmed : Register Int Group) (hub : Member) (labels : List String)
    (member : Member) :
    ∃ group, Register.get? hub.node.id (confirm confirmed hub labels member) = some group :=
  ⟨_, by rw [confirm, Register.get?_put, if_pos rfl]⟩

end Joins

namespace Ordered

variable {depth : Nat} {candidates : List (Member × List String)} {confirmed : Register Int Group}
  {candidate : Member × List String} {member : Member}

theorem mono {survey : Survey} {deeper : Nat} (h : Ordered depth survey) (hle : depth ≤ deeper) :
    Ordered deeper survey :=
  { h with
    shallow := fun candidate hcandidate => (h.shallow candidate hcandidate).trans hle
    opened := fun entry hentry => ⟨(h.opened entry hentry).1, (h.opened entry hentry).2.trans hle⟩ }

theorem known_of_grows {later : Register Int Group} (h : Ordered depth ⟨candidates, confirmed⟩)
    (hgrows : Grows confirmed later) : candidates.Pairwise (Knows later) := by
  refine h.known.imp fun hknows hmenus hne => ?_
  obtain ⟨group, hgroup, hle⟩ := hknows hmenus hne
  obtain ⟨grown, hgrown, hsame⟩ := hgrows _ group hgroup
  exact ⟨grown, hgrown, hsame ▸ hle⟩

/-- A group that opens anew opens no earlier than the others, and those with its menu opened no deeper
than its hub. -/
theorem precedes_new (h : Ordered depth ⟨candidates, confirmed⟩) (hcandidate : candidate ∈ candidates)
    (hlabels : candidate.2 ≠ []) (hnew : Register.get? candidate.1.node.id confirmed = none)
    {entry : Int × Group} (hentry : entry ∈ confirmed) :
    entry.2.summary.Precedes ⟨sortTexts candidate.2, candidate.1.depth, depth⟩ := by
  refine ⟨(h.opened entry hentry).2, fun hsame => ?_⟩
  obtain ⟨other, hother, hid, hmenu, -⟩ := h.hubs entry hentry
  have hget : Register.get? other.1.node.id confirmed = some entry.2 :=
    Register.get?_of_mem h.keys (by rw [← hid]; exact hentry)
  have hne : other ≠ candidate := by
    rintro rfl
    rw [hget] at hnew
    cases hnew
  have hmenus : sortTexts other.2 = sortTexts candidate.2 := hmenu.symm.trans hsame
  -- of two hubs with one menu, the one met first has its group when the other is met
  rcases rel_or_rel_of_pairwise h.known hother hcandidate hne with hknows | hknows
  · obtain ⟨group, hgroup, hle⟩ := hknows hmenus hlabels
    rw [hget] at hgroup
    cases hgroup
    exact hle
  · have hother : other.2 ≠ [] := by
      intro hnil
      rw [hnil] at hmenus
      exact hlabels (List.nil_perm.1 (perm_of_sortTexts_eq hmenus))
    obtain ⟨group, hgroup, -⟩ := hknows hmenus.symm hother
    rw [hnew] at hgroup
    cases hgroup

theorem put {group : Group} (h : Ordered depth ⟨candidates, confirmed⟩)
    (hopened : group.Opened) (hle : group.opening ≤ depth)
    (hhub : ∃ other ∈ candidates, candidate.1.node.id = other.1.node.id ∧
      group.labels = sortTexts other.2 ∧ group.hubDepth = other.1.depth)
    (horder : ((Register.put candidate.1.node.id group confirmed).map
      fun entry => entry.2.summary).Pairwise Opening.Precedes)
    (hsame : ∀ old, Register.get? candidate.1.node.id confirmed = some old →
      group.opening = old.opening) :
    Ordered depth ⟨candidates, Register.put candidate.1.node.id group confirmed⟩ ∧
      Grows confirmed (Register.put candidate.1.node.id group confirmed) := by
  have hgrows := grows_put hsame
  refine ⟨⟨h.shallow, Register.nodup_keys_put h.keys, fun entry hentry => ?_, fun entry hentry => ?_,
    horder, h.known_of_grows hgrows⟩, hgrows⟩
  · rcases Register.mem_put hentry with rfl | hold
    · exact ⟨hopened, hle⟩
    · exact h.opened entry hold
  · rcases Register.mem_put hentry with rfl | hold
    · exact hhub
    · exact h.hubs entry hold

theorem confirm_old {group : Group} (h : Ordered depth ⟨candidates, confirmed⟩)
    (hget : Register.get? candidate.1.node.id confirmed = some group) (hmember : member.depth = depth) :
    Ordered depth ⟨candidates, Register.put candidate.1.node.id (group.joined [member]) confirmed⟩ ∧
      Grows confirmed (Register.put candidate.1.node.id (group.joined [member]) confirmed) := by
  have hentry := Register.mem_of_get? hget
  obtain ⟨hopened, hle⟩ : group.Opened ∧ group.opening ≤ depth := h.opened _ hentry
  have hopening : (group.joined [member]).opening = group.opening :=
    Group.opening_joined hopened.two
  have hhub : (group.joined [member]).hubDepth = group.hubDepth := Group.hubDepth_joined hopened.two
  refine h.put (hopened.join fun other hother => ?_) (hopening ▸ hle) ?_ ?_ fun old hold => ?_
  · rw [List.mem_singleton.1 hother, hmember]
    exact hle
  · obtain ⟨other, hother, hid, hmenu, hdepth⟩ := h.hubs _ hentry
    exact ⟨other, hother, hid, hmenu, hhub.trans hdepth⟩
  · have hsummary : (group.joined [member]).summary = group.summary := by
      rw [Group.summary, Group.summary, hhub, hopening]
      rfl
    rw [Register.map_put_of_get? hget hsummary]
    exact h.order
  · rw [hget] at hold
    cases hold
    exact hopening

theorem confirm_new (h : Ordered depth ⟨candidates, confirmed⟩) (hcandidate : candidate ∈ candidates)
    (hlabels : candidate.2 ≠ []) (hnew : Register.get? candidate.1.node.id confirmed = none)
    (hmember : member.depth = depth) :
    Ordered depth ⟨candidates, Register.put candidate.1.node.id
      ⟨sortTexts candidate.2, [candidate.1, member]⟩ confirmed⟩ ∧
      Grows confirmed (Register.put candidate.1.node.id
        ⟨sortTexts candidate.2, [candidate.1, member]⟩ confirmed) := by
  have hle : candidate.1.depth ≤ member.depth := hmember ▸ h.shallow candidate hcandidate
  have hopened : Group.Opened ⟨sortTexts candidate.2, [candidate.1, member]⟩ :=
    ⟨Nat.le_refl 2, hle, fun other hother => by
      rw [List.mem_singleton.1 hother]
      exact Nat.le_refl _⟩
  refine h.put hopened (Nat.le_of_eq hmember) ⟨candidate, hcandidate, rfl, rfl, rfl⟩ ?_ fun old hold => ?_
  · have hsummary : Group.summary ⟨sortTexts candidate.2, [candidate.1, member]⟩ =
        ⟨sortTexts candidate.2, candidate.1.depth, depth⟩ := by
      rw [← hmember]
      rfl
    rw [Register.put_eq_append (Register.notMem_keys_of_get?_eq_none hnew), List.map_append,
      List.pairwise_append]
    refine ⟨h.order, List.pairwise_singleton _ _, fun first hfirst second hsecond => ?_⟩
    obtain ⟨entry, hentry, rfl⟩ := List.mem_map.1 hfirst
    rw [List.map_singleton, List.mem_singleton, hsummary] at hsecond
    rw [hsecond]
    exact h.precedes_new hcandidate hlabels hnew hentry
  · rw [hnew] at hold
    cases hold

/-- One more member of a group, met at the present depth. -/
theorem confirm (h : Ordered depth ⟨candidates, confirmed⟩) (hcandidate : candidate ∈ candidates)
    (hlabels : candidate.2 ≠ []) (hmember : member.depth = depth) :
    Ordered depth ⟨candidates, Hub.confirm confirmed candidate.1 candidate.2 member⟩ ∧
      Grows confirmed (Hub.confirm confirmed candidate.1 candidate.2 member) := by
  unfold Hub.confirm
  cases hget : Register.get? candidate.1.node.id confirmed with
  | none => exact h.confirm_new hcandidate hlabels hget hmember
  | some group => exact h.confirm_old hget hmember

/-- A node that is met joins the group of every candidate whose menu it offers again. -/
theorem foldl_offer {choices : List String} (hchoices : choices ≠ [])
    {met : List (Member × List String)} (hmet : met ⊆ candidates) (hmember : member.depth = depth)
    (h : Ordered depth ⟨candidates, confirmed⟩) :
    Ordered depth ⟨candidates, met.foldl (offer member choices) confirmed⟩ ∧
      Grows confirmed (met.foldl (offer member choices) confirmed) ∧
      ∀ candidate ∈ met, Joins member choices candidate → ∃ group, Register.get? candidate.1.node.id
        (met.foldl (offer member choices) confirmed) = some group := by
  induction met generalizing confirmed with
  | nil => exact ⟨h, .refl _, nofun⟩
  | cons first met ih =>
      obtain ⟨hfirst, hrest⟩ := List.cons_subset.1 hmet
      rw [List.foldl_cons]
      by_cases hjoins : Joins member choices first
      · obtain ⟨hstep, hgrowsFirst⟩ :=
          h.confirm hfirst (ne_nil_of_offersAgain hchoices hjoins.2) hmember
        rw [offer_of_joins confirmed hjoins]
        obtain ⟨hordered, hgrows, hknown⟩ := ih hrest hstep
        refine ⟨hordered, hgrowsFirst.trans hgrows, fun candidate hcandidate hoffers => ?_⟩
        rcases List.mem_cons.1 hcandidate with rfl | hlater
        · obtain ⟨group, hgroup⟩ := exists_group_confirm confirmed candidate.1 candidate.2 member
          obtain ⟨grown, hgrown, -⟩ := hgrows _ group hgroup
          exact ⟨grown, hgrown⟩
        · exact hknown candidate hlater hoffers
      · rw [offer_of_not_joins confirmed hjoins]
        obtain ⟨hordered, hgrows, hknown⟩ := ih hrest h
        refine ⟨hordered, hgrows, fun candidate hcandidate hoffers => ?_⟩
        rcases List.mem_cons.1 hcandidate with rfl | hlater
        · exact absurd hoffers hjoins
        · exact hknown candidate hlater hoffers

theorem add_candidate {choices : List String} (h : Ordered depth ⟨candidates, confirmed⟩)
    (hmember : member.depth = depth)
    (hknown : ∀ candidate ∈ candidates, Knows confirmed candidate (member, choices)) :
    Ordered depth ⟨candidates ++ [(member, choices)], confirmed⟩ where
  shallow candidate hcandidate := by
    rcases List.mem_append.1 hcandidate with hcandidate | hcandidate
    · exact h.shallow candidate hcandidate
    · rw [List.mem_singleton.1 hcandidate]
      exact Nat.le_of_eq hmember
  keys := h.keys
  opened := h.opened
  hubs entry hentry := by
    obtain ⟨candidate, hcandidate, hhub⟩ := h.hubs entry hentry
    exact ⟨candidate, List.mem_append_left _ hcandidate, hhub⟩
  order := h.order
  known := by
    refine List.pairwise_append.2 ⟨h.known, List.pairwise_singleton _ _, ?_⟩
    intro first hfirst second hsecond
    rw [List.mem_singleton.1 hsecond]
    exact hknown first hfirst

end Ordered

variable {minChoices : Int}

theorem meet_of_mayBelong {found : Placed × Nat} (h : mayBelong found.1 = true) (survey : Survey) :
    meet minChoices survey found =
      let candidates := if minChoices ≤ (choiceLabels found.1).length then
          survey.candidates ++ [((⟨found.1, found.2⟩ : Member), choiceLabels found.1)]
        else survey.candidates
      ⟨candidates, if (choiceLabels found.1).isEmpty then survey.confirmed
        else candidates.foldl (offer ⟨found.1, found.2⟩ (choiceLabels found.1)) survey.confirmed⟩ :=
  if_pos h

theorem meet_of_not_mayBelong {found : Placed × Nat} (h : mayBelong found.1 = false)
    (survey : Survey) : meet minChoices survey found = survey :=
  if_neg (by rw [h]; exact Bool.false_ne_true)

theorem mem_candidates_meet {survey : Survey} {found : Placed × Nat} {candidate : Member × List String}
    (h : candidate ∈ (meet minChoices survey found).candidates) :
    candidate ∈ survey.candidates ∨ candidate.1 = ⟨found.1, found.2⟩ := by
  cases hmay : mayBelong found.1 with
  | false =>
      rw [meet_of_not_mayBelong hmay] at h
      exact .inl h
  | true =>
      rw [meet_of_mayBelong hmay] at h
      dsimp only at h
      split at h
      · rcases List.mem_append.1 h with h | h
        · exact .inl h
        · exact .inr (congrArg Prod.fst (List.mem_singleton.1 h))
      · exact .inl h

theorem foldl_offer_self {member : Member} {choices labels : List String}
    (candidates : List (Member × List String)) (confirmed : Register Int Group) :
    (candidates ++ [(member, labels)]).foldl (offer member choices) confirmed =
      candidates.foldl (offer member choices) confirmed := by
  rw [List.foldl_append, List.foldl_cons, List.foldl_nil, offer_of_not_joins]
  exact fun h => h.1 rfl

theorem ordered_meet {depth : Nat} {survey : Survey} {found : Placed × Nat} (hdepth : depth ≤ found.2)
    (hnew : ∀ candidate ∈ survey.candidates, candidate.1.node.place ≠ found.1.place)
    (h : Ordered depth survey) : Ordered found.2 (meet minChoices survey found) := by
  have hlevel : Ordered found.2 ⟨survey.candidates, survey.confirmed⟩ := h.mono hdepth
  cases hmay : mayBelong found.1 with
  | false =>
      rw [meet_of_not_mayBelong hmay]
      exact hlevel
  | true =>
      rw [meet_of_mayBelong hmay]
      dsimp only
      -- the node has joined all groups before it is a candidate itself
      have hjoined : ∃ later : Register Int Group, Ordered found.2 ⟨survey.candidates, later⟩ ∧
          (∀ candidate ∈ survey.candidates,
            Knows later candidate (⟨found.1, found.2⟩, choiceLabels found.1)) ∧
          (if (choiceLabels found.1).isEmpty then survey.confirmed else survey.candidates.foldl
            (offer ⟨found.1, found.2⟩ (choiceLabels found.1)) survey.confirmed) = later := by
        by_cases hempty : choiceLabels found.1 = []
        · exact ⟨survey.confirmed, hlevel, fun _ _ _ hne => absurd hempty hne, by rw [hempty]; rfl⟩
        · obtain ⟨hordered, -, hgroups⟩ := hlevel.foldl_offer hempty (List.Subset.refl _)
            (show (⟨found.1, found.2⟩ : Member).depth = found.2 from rfl)
          refine ⟨_, hordered, fun candidate hcandidate hmenus _ => ?_, if_neg (by simpa using hempty)⟩
          obtain ⟨group, hgroup⟩ := hgroups candidate hcandidate
            ⟨hnew candidate hcandidate, offersAgain_of_perm (perm_of_sortTexts_eq hmenus)⟩
          exact ⟨group, hgroup, (hordered.opened _ (Register.mem_of_get? hgroup)).2⟩
      obtain ⟨later, hordered, hknown, hlater⟩ := hjoined
      split
      · rw [foldl_offer_self, hlater]
        exact hordered.add_candidate rfl hknown
      · rw [hlater]
        exact hordered

theorem ordered_foldl_meet {met : List (Placed × Nat)} {depth : Nat} {survey : Survey}
    (hdepths : met.Pairwise fun found later => found.2 ≤ later.2)
    (hplaces : (met.map fun found => found.1.place).Nodup) (hdepth : ∀ found ∈ met, depth ≤ found.2)
    (hnew : ∀ candidate ∈ survey.candidates, ∀ found ∈ met,
      candidate.1.node.place ≠ Placed.place found.1)
    (h : Ordered depth survey) : ∃ last, Ordered last (met.foldl (meet minChoices) survey) := by
  induction met generalizing depth survey with
  | nil => exact ⟨depth, h⟩
  | cons found met ih =>
      rw [List.pairwise_cons] at hdepths
      rw [List.map_cons, List.nodup_cons] at hplaces
      have hstep : Ordered found.2 (meet minChoices survey found) :=
        ordered_meet (hdepth found List.mem_cons_self)
          (fun candidate hcandidate => hnew candidate hcandidate found List.mem_cons_self) h
      refine ih hdepths.2 hplaces.2 hdepths.1 (fun candidate hcandidate later hlater => ?_) hstep
      rcases mem_candidates_meet hcandidate with hold | hsame
      · exact hnew candidate hold later (List.mem_cons_of_mem _ hlater)
      · rw [hsame]
        exact fun hplace => hplaces.1 (List.mem_map.2 ⟨later, hlater, hplace.symm⟩)

theorem ordered_survey {root : Placed} (distinct : root.places.Nodup) (minChoices : Int) :
    ∃ last, Ordered last (root.breadthWithDepth.foldl (meet minChoices) {}) := by
  refine ordered_foldl_meet (Rose.pairwise_depth root) ?_ (fun _ _ => Nat.zero_le _) nofun
    ⟨nofun, List.nodup_nil, nofun, nofun, .nil, .nil⟩
  have hperm := (Rose.breadth_perm_walk root).map Placed.place
  rw [← Rose.map_fst_breadthWithDepth, List.map_map] at hperm
  exact hperm.nodup_iff.2 distinct

/-! ### Groups with the same menu are one -/

/-- What is known of the groups that were joined when others are still to come. -/
structure Merged (rest : List Group) (merged : Register (List String) Group) : Prop where
  opened : ∀ entry ∈ merged, entry.2.Opened ∧ entry.1 = entry.2.labels
  order : (merged.map fun entry => entry.2.summary).Pairwise fun first second =>
    first.second ≤ second.second
  precedes : ∀ entry ∈ merged, ∀ group ∈ rest, entry.2.summary.Precedes group.summary

namespace Group

variable {group existing : Group}

/-- All members are as deep as the hub or as the second member, at least. -/
theorem Opened.le_depth {bound : Nat} (h : group.Opened) (hhub : bound ≤ group.hubDepth)
    (hopening : bound ≤ group.opening) : ∀ member ∈ group.members, bound ≤ member.depth := by
  intro member hmember
  cases hmembers : group.members with
  | nil => rw [hmembers] at hmember; cases hmember
  | cons hub later =>
      rw [hmembers] at hmember
      rcases List.mem_cons.1 hmember with rfl | hlater
      · rwa [hubDepth, hmembers] at hhub
      · exact hopening.trans (h.later member (by rwa [hmembers]))

theorem summary_joined {added : List Member} (h : group.Opened) :
    (group.joined added).summary = group.summary := by
  rw [summary, summary, hubDepth_joined h.two, opening_joined h.two]
  rfl

end Group

theorem merge_of_some {merged : Register (List String) Group} {group existing : Group}
    (h : Register.get? group.labels merged = some existing) :
    ∃ added ⊆ group.members,
      merge merged group = Register.put group.labels (existing.joined added) merged := by
  refine ⟨group.members.filter fun member =>
    !(existing.members.map fun other => other.node.id).contains member.node.id,
    List.filter_sublist.subset, ?_⟩
  rw [merge, h]
  rfl

theorem merge_of_none {merged : Register (List String) Group} {group : Group}
    (h : Register.get? group.labels merged = none) :
    merge merged group = merged ++ [(group.labels, group)] := by
  rw [merge, h]
  exact Register.put_eq_append (Register.notMem_keys_of_get?_eq_none h)

namespace Merged

variable {rest : List Group} {merged : Register (List String) Group} {group : Group}

theorem merge_new (hopened : group.Opened)
    (hrest : ∀ later ∈ rest, group.summary.Precedes later.summary)
    (hnew : Register.get? group.labels merged = none) (h : Merged (group :: rest) merged) :
    Merged rest (merge merged group) := by
  rw [merge_of_none hnew]
  refine ⟨fun entry hentry => ?_, ?_, fun entry hentry later hlater => ?_⟩
  · rcases List.mem_append.1 hentry with hold | hsame
    · exact h.opened entry hold
    · rw [List.mem_singleton.1 hsame]
      exact ⟨hopened, rfl⟩
  · rw [List.map_append, List.pairwise_append]
    refine ⟨h.order, List.pairwise_singleton _ _, fun first hfirst second hsecond => ?_⟩
    obtain ⟨entry, hentry, rfl⟩ := List.mem_map.1 hfirst
    rw [List.map_singleton, List.mem_singleton] at hsecond
    rw [hsecond]
    exact (h.precedes entry hentry group List.mem_cons_self).1
  · rcases List.mem_append.1 hentry with hold | hsame
    · exact h.precedes entry hold later (List.mem_cons_of_mem _ hlater)
    · rw [List.mem_singleton.1 hsame]
      exact hrest later hlater

/-- A group with a known menu has no member that is shallower than where the menu's group opened. -/
theorem merge_old {existing : Group} (hopened : group.Opened)
    (hexisting : Register.get? group.labels merged = some existing)
    (h : Merged (group :: rest) merged) : Merged rest (merge merged group) := by
  have hentry := Register.mem_of_get? hexisting
  obtain ⟨hold, hlabels⟩ : existing.Opened ∧ group.labels = existing.labels := h.opened _ hentry
  obtain ⟨hopening, hhub⟩ : existing.summary.Precedes group.summary :=
    h.precedes _ hentry group List.mem_cons_self
  obtain ⟨added, hadded, hmerge⟩ := merge_of_some hexisting
  rw [hmerge]
  have hsummary : (existing.joined added).summary = existing.summary := Group.summary_joined hold
  have hjoined : (existing.joined added).Opened := hold.join fun member hmember =>
    hopened.le_depth (hhub hlabels.symm) hopening member (hadded hmember)
  refine ⟨fun entry hmem => ?_, ?_, fun entry hmem later hlater => ?_⟩
  · rcases Register.mem_put hmem with rfl | hmem
    · exact ⟨hjoined, hlabels⟩
    · exact h.opened entry hmem
  · rw [Register.map_put_of_get? hexisting hsummary]
    exact h.order
  · have hlater : later ∈ group :: rest := List.mem_cons_of_mem _ hlater
    rcases Register.mem_put hmem with rfl | hmem
    · rw [hsummary]
      exact h.precedes _ hentry later hlater
    · exact h.precedes entry hmem later hlater

theorem merge (hopened : group.Opened) (hrest : ∀ later ∈ rest, group.summary.Precedes later.summary)
    (h : Merged (group :: rest) merged) : Merged rest (Hub.merge merged group) := by
  cases hget : Register.get? group.labels merged with
  | none => exact h.merge_new hopened hrest hget
  | some existing => exact h.merge_old hopened hget

end Merged

theorem merged_foldl {rest : List Group} {merged : Register (List String) Group}
    (hopened : ∀ group ∈ rest, group.Opened)
    (horder : (rest.map Group.summary).Pairwise Opening.Precedes) (h : Merged rest merged) :
    Merged [] (rest.foldl merge merged) := by
  induction rest generalizing merged with
  | nil => exact h
  | cons group rest ih =>
      rw [List.map_cons, List.pairwise_cons] at horder
      refine ih (fun later hlater => hopened later (List.mem_cons_of_mem _ hlater)) horder.2 ?_
      refine h.merge (hopened group List.mem_cons_self) fun later hlater => ?_
      exact horder.1 _ (List.mem_map_of_mem hlater)

/-- Groups come in the order in which they opened, and each is opened by its second member. -/
theorem opened_groups {root : Placed} (distinct : root.places.Nodup) (minChoices : Int) :
    (∀ group ∈ groups minChoices root, group.Opened) ∧
      (groups minChoices root).Pairwise fun first second => first.opening ≤ second.opening := by
  obtain ⟨last, hsurvey⟩ := ordered_survey distinct minChoices
  have hmerged : Merged [] (((root.breadthWithDepth.foldl (meet minChoices) {}).confirmed.map
      Prod.snd).foldl merge []) := by
    refine merged_foldl (fun group hgroup => ?_) ?_ ⟨nofun, .nil, nofun⟩
    · obtain ⟨entry, hentry, rfl⟩ := List.mem_map.1 hgroup
      exact (hsurvey.opened entry hentry).1
    · rw [List.map_map]
      exact hsurvey.order
  rw [List.foldl_map] at hmerged
  refine ⟨fun group hgroup => ?_, ?_⟩
  · obtain ⟨entry, hentry, rfl⟩ := List.mem_map.1 hgroup
    exact (hmerged.opened entry hentry).1
  · have horder := hmerged.order
    rw [List.pairwise_map] at horder
    exact List.pairwise_map.2 horder

end StoryAtlas.Hub
