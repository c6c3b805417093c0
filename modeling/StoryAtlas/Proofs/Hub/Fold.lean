import StoryAtlas.Hub.Fold
import StoryAtlas.Proofs.Reference.Chase

/-!
# Folding hubs keeps the shape

Only dialogue is ever a member of a hub group, so folding collapses no wrapper. Following the
references afterwards moves references and makes none.
-/

namespace StoryAtlas.Hub

variable {root : Placed} {minChoices : Int}

/-- The member is a node of the tree at its depth, and one that hubs are made of. -/
def Belongs (root : Placed) (member : Member) : Prop :=
  (member.node, member.depth) ∈ root.breadthWithDepth ∧ mayBelong member.node = true

theorem Belongs.mem_walk {member : Member} (h : Belongs root member) : member.node ∈ root.walk :=
  Rose.mem_breadthWithDepth h.1

theorem Belongs.ref {member : Member} (h : Belongs root member) : member.node.beat.ref = none := by
  have hmay := h.2
  rw [mayBelong, Bool.and_eq_true, Bool.and_eq_true] at hmay
  exact Option.isNone_iff_eq_none.1 hmay.1.1

theorem Belongs.kind {member : Member} (h : Belongs root member) :
    member.node.beat.kind = .dialogue := by
  have hmay := h.2
  rw [mayBelong, Bool.and_eq_true, Bool.and_eq_true] at hmay
  exact eq_of_beq hmay.1.2

def AllBelong {κ : Type} (root : Placed) (found : Register κ Group) : Prop :=
  ∀ entry ∈ found, ∀ member ∈ entry.2.members, Belongs root member

/-- Candidates and members of groups belong to the tree. -/
structure Surveyed (root : Placed) (survey : Survey) : Prop where
  candidates : ∀ candidate ∈ survey.candidates, Belongs root candidate.1
  confirmed : AllBelong root survey.confirmed

theorem allBelong_put {κ : Type} [DecidableEq κ] {found : Register κ Group} {key : κ} {group : Group}
    (hgroup : ∀ member ∈ group.members, Belongs root member) (h : AllBelong root found) :
    AllBelong root (Register.put key group found) := by
  intro entry hentry
  rcases Register.mem_put hentry with rfl | hentry
  · exact hgroup
  · exact h entry hentry

theorem allBelong_confirm {confirmed : Register Int Group} {hub member : Member}
    {labels : List String} (hhub : Belongs root hub) (hmember : Belongs root member)
    (h : AllBelong root confirmed) : AllBelong root (confirm confirmed hub labels member) := by
  refine allBelong_put (fun found hfound => ?_) h
  rcases List.mem_append.1 hfound with hfound | hfound
  · cases hget : Register.get? hub.node.id confirmed with
    | none =>
        rw [hget, Option.getD_none, List.mem_singleton] at hfound
        exact hfound ▸ hhub
    | some group =>
        rw [hget, Option.getD_some] at hfound
        exact h _ (Register.mem_of_get? hget) found hfound
  · exact List.mem_singleton.1 hfound ▸ hmember

theorem surveyed_meet {survey : Survey} {found : Placed × Nat} (hfound : found ∈ root.breadthWithDepth)
    (h : Surveyed root survey) : Surveyed root (meet minChoices survey found) := by
  unfold meet
  dsimp only
  split
  · next hmay =>
    have hmember : Belongs root ⟨found.1, found.2⟩ := ⟨hfound, hmay⟩
    have hbelong : ∀ candidate ∈ (if minChoices ≤ (choiceLabels found.1).length then
        survey.candidates ++ [((⟨found.1, found.2⟩ : Member), choiceLabels found.1)]
        else survey.candidates), Belongs root candidate.1 := by
      intro candidate hcandidate
      split at hcandidate
      · rcases List.mem_append.1 hcandidate with hcandidate | hcandidate
        · exact h.candidates candidate hcandidate
        · exact List.mem_singleton.1 hcandidate ▸ hmember
      · exact h.candidates candidate hcandidate
    refine ⟨hbelong, ?_⟩
    dsimp only
    split
    · exact h.confirmed
    · apply List.foldlRecOn _ _ h.confirmed
      intro confirmed hconfirmed candidate hmem
      split
      · exact hconfirmed
      · exact allBelong_confirm (hbelong candidate hmem) hmember hconfirmed
  · exact h

theorem allBelong_merge {merged : Register (List String) Group} {group : Group}
    (hgroup : ∀ member ∈ group.members, Belongs root member) (h : AllBelong root merged) :
    AllBelong root (merge merged group) := by
  unfold merge
  split
  · exact allBelong_put hgroup h
  · next existing hexisting =>
    refine allBelong_put (fun member hmember => ?_) h
    rcases List.mem_append.1 hmember with hmember | hmember
    · exact h _ (Register.mem_of_get? hexisting) member hmember
    · exact hgroup member (List.mem_filter.1 hmember).1

theorem belongs_of_mem_groups {group : Group} (hgroup : group ∈ groups minChoices root) :
    ∀ member ∈ group.members, Belongs root member := by
  have hsurvey : Surveyed root (root.breadthWithDepth.foldl (meet minChoices) {}) := by
    refine List.foldlRecOn root.breadthWithDepth _ ⟨nofun, nofun⟩ fun survey h found hfound => ?_
    exact surveyed_meet hfound h
  have hmerged : AllBelong root
      ((root.breadthWithDepth.foldl (meet minChoices) {}).confirmed.foldl
        (fun merged entry => merge merged entry.2) []) := by
    apply List.foldlRecOn _ _ nofun
    intro merged hmerged found hfound
    exact allBelong_merge (hsurvey.confirmed found hfound) hmerged
  obtain ⟨entry, hentry, rfl⟩ := List.mem_map.1 hgroup
  exact hmerged entry hentry

/-! ### What is collapsed -/

/-- Only nodes that hubs are made of are collapsed. -/
def CollapsesMembers (root : Placed) (state : State) : Prop :=
  ∀ entry ∈ state.collapsed, ∃ member, Belongs root member ∧ member.node.place = entry.1

theorem collapsesMembers_fold {canonical : Int} {state : State} {member : Member}
    (hmember : Belongs root member) (h : CollapsesMembers root state) :
    CollapsesMembers root (state.fold canonical member) := by
  unfold State.fold
  dsimp only
  split
  · exact h
  · split
    · exact h
    · intro entry hentry
      rcases Register.mem_put hentry with rfl | hentry
      · exact ⟨member, hmember, rfl⟩
      · exact h entry hentry

theorem collapsesMembers_foldGroup {state : State} {group : Group}
    (hgroup : ∀ member ∈ group.members, Belongs root member) (h : CollapsesMembers root state) :
    CollapsesMembers root (state.foldGroup group) := by
  unfold State.foldGroup
  split
  · next canonical others hsorted =>
    have hothers : ∀ member ∈ others, Belongs root member := fun member hmember => by
      refine hgroup member ((List.mergeSort_perm _ state.before).mem_iff.1 ?_)
      rw [hsorted]
      exact List.mem_cons_of_mem _ hmember
    split
    · exact h
    · apply List.foldlRecOn others _ h
      intro state hstate member hmember
      exact collapsesMembers_fold (hothers member hmember) hstate
  · exact h

/-- A node that is collapsed is dialogue. -/
theorem kind_of_collapsed {state : State} {node : Placed} (hplaces : root.places.Nodup)
    (h : CollapsesMembers root state) (hnode : node ∈ root.walk)
    (hholds : Register.holds node.place state.collapsed) : node.beat.kind = .dialogue := by
  obtain ⟨target, htarget⟩ := Option.isSome_iff_exists.1 hholds
  obtain ⟨member, hmember, hplace⟩ := h _ (Register.mem_of_get? htarget)
  rw [← Placed.eq_of_place_eq hplaces hmember.mem_walk hnode hplace]
  exact hmember.kind

/-! ### The pass -/

section Pass

variable {enabled : Bool} {unit : String} {root : Node}

def folded (minChoices : Int) (root : Node) : State :=
  ((groups minChoices root.placed).filter fun group => 2 ≤ group.members.length).foldl
    State.foldGroup {}

theorem root_run (minChoices : Int) (unit : String) (root : Node) :
    (run minChoices true unit root).1.root =
      if (folded minChoices root).redirects.isEmpty then root
      else (Reference.resolvePlaced (folded minChoices root).redirects
        (root.placed.collapse (folded minChoices root).collapsed)).1.forget := by
  unfold run
  dsimp only
  rw [if_pos rfl]
  exact apply_ite (fun result : Outcome × Journal => result.1.root) _ _ _

theorem collapsesMembers_folded (minChoices : Int) (root : Node) :
    CollapsesMembers root.placed (folded minChoices root) := by
  apply List.foldlRecOn _ _ nofun
  intro state h group hgroup
  exact collapsesMembers_foldGroup (belongs_of_mem_groups (List.mem_filter.1 hgroup).1) h

theorem run_disabled (minChoices : Int) (unit : String) (root : Node) :
    (run minChoices false unit root).1.root = root := rfl

/-- Folding leaves the tree alone, or collapses members of groups and then follows references. -/
theorem run_cases (minChoices : Int) (enabled : Bool) (unit : String) (root : Node) :
    (run minChoices enabled unit root).1.root = root ∨
      ∃ state, CollapsesMembers root.placed state ∧ (run minChoices enabled unit root).1.root =
        (Reference.resolvePlaced state.redirects (root.placed.collapse state.collapsed)).1.forget := by
  cases enabled with
  | false => exact .inl (run_disabled minChoices unit root)
  | true =>
      rw [root_run]
      split
      · exact .inl rfl
      · exact .inr ⟨_, collapsesMembers_folded minChoices root, rfl⟩

theorem sound_run {bound : Int} (h : root.Sound bound) :
    (run minChoices enabled unit root).1.root.Sound bound := by
  rcases run_cases minChoices enabled unit root with hroot | ⟨state, -, hroot⟩
  · rw [hroot]
    exact h
  · rw [hroot]
    have hcollapsed : ((root.placed.collapse state.collapsed).forget).Sound bound := by
      apply Placed.sound_collapse
      rw [Node.forget_placed]
      exact h
    refine hcollapsed.of_retold (Reference.retold_resolvePlaced ?_ _)
    rw [← Placed.ids_forget]
    exact hcollapsed.distinct

theorem wrapsOne_run (distinct : root.ids.Nodup) (h : root.WrapsOne) :
    (run minChoices enabled unit root).1.root.WrapsOne := by
  rcases run_cases minChoices enabled unit root with hroot | ⟨state, hstate, hroot⟩
  · rw [hroot]
    exact h
  · rw [hroot]
    have hcollapsed : ((root.placed.collapse state.collapsed).forget).WrapsOne := by
      refine Placed.wrapsOne_collapse ?_ fun node hnode hholds hkind => ?_
      · rw [Node.forget_placed]
        exact h
      · rw [kind_of_collapsed (Placed.nodup_places_placed root) hstate hnode hholds] at hkind
        cases hkind
    refine hcollapsed.of_retold (Reference.retold_resolvePlaced ?_ _)
    rw [← Placed.ids_placed] at distinct
    exact distinct.sublist (Placed.ids_collapse_sublist _ _)

end Pass

end StoryAtlas.Hub
