import StoryAtlas.Proofs.Explore.Visit
import StoryAtlas.Proofs.Split.Contract

/-!
# Which choices are pure wrappers

Separation leaves a wrapper wherever it splits, and what it puts below a wrapper is never of type
choice. A node of type choice that it does not split has no label to be chosen by. The last look at
the types takes the type from such a node, unless the node has exactly one child: it goes by the
number of children, not by the label. So only pure wrappers are left of type choice if the tree has
no unlabelled node of type choice with one child, and otherwise exactly these are left as well.

A story makes such a node where it offers a single choice and says nothing before, be it at its
start, which no choice leads to, or behind a choice whose label is blank.
-/

namespace StoryAtlas

namespace Split

open Explore (run Setting)

/-- There is something to read on the choice that leads to the node. -/
def Labelled (beat : Beat) : Prop := Text.isBlankText (beat.label.getD "") = false

/-- The node says nothing but what was chosen, and has one outcome. -/
structure PureWrapper (beat : Beat) (children : List Node) : Prop where
  labelled : Labelled beat
  text : beat.text = none
  effects : beat.effects = []
  ref : beat.ref = none
  outcome : ∃ outcome : Node, children = [outcome] ∧ outcome.value.kind ≠ .choice

def Lone (node : Node) : Prop := node.value.kind = .choice ∧ node.children.length = 1

variable {unit : String} {state : State} {node after : Node} {nodes : List Node}

theorem forall₂_wrapAll (unit : String) (state : State) (nodes : List Node) :
    List.Forall₂ (fun node after => ∃ before, after = (wrap unit before node).1) nodes
      (wrapAll unit state nodes).1 := by
  induction nodes generalizing state with
  | nil => exact .nil
  | cons node nodes ih => exact .cons ⟨state, rfl⟩ (ih (wrap unit state node).2)

theorem forall₂_splitForest (unit : String) (state : State) (nodes : List Node) :
    List.Forall₂ (fun node after => ∃ before, after = (splitBelow unit before node).1) nodes
      (splitForest unit state nodes).1 := by
  induction nodes generalizing state with
  | nil => exact .nil
  | cons node nodes ih => exact .cons ⟨state, rfl⟩ (ih (splitBelow unit state node).2)

theorem forall₂_children_splitBelow (unit : String) (state : State) (node : Node) :
    List.Forall₂
      (fun child after => ∃ before between,
        after = (wrap unit between (splitBelow unit before child).1).1)
      node.children (splitBelow unit state node).1.children := by
  obtain ⟨beat, children⟩ := node
  have hsplit := forall₂_splitForest unit state children
  have hwrapped := forall₂_wrapAll unit (splitForest unit state children).2
    (splitForest unit state children).1
  rw [splitBelow, Rose.children_node, Rose.children_node]
  generalize (wrapAll unit _ _).1 = last at hwrapped ⊢
  generalize (splitForest unit state children).1 = middle at hsplit hwrapped
  induction hsplit generalizing last with
  | nil =>
      cases hwrapped
      exact .nil
  | cons hfirst _ ih =>
      obtain ⟨before, rfl⟩ := hfirst
      cases hwrapped with
      | cons hwrap hrest =>
          obtain ⟨between, rfl⟩ := hwrap
          exact .cons ⟨before, between, rfl⟩ (ih _ hrest)

theorem value_splitBelow (unit : String) (state : State) (node : Node) :
    (splitBelow unit state node).1.value = node.value := by
  obtain ⟨beat, children⟩ := node
  rfl

theorem length_children_splitBelow (unit : String) (state : State) (node : Node) :
    (splitBelow unit state node).1.children.length = node.children.length :=
  (forall₂_children_splitBelow unit state node).length_eq.symm

theorem lone_splitBelow : Lone (splitBelow unit state node).1 ↔ Lone node := by
  rw [Lone, value_splitBelow, length_children_splitBelow, Lone]

theorem needsSplit_iff_of_lone (h : Lone node) : needsSplit node = true ↔ Labelled node.value := by
  have hchildren : node.children.isEmpty = false := by
    obtain ⟨child, hchild⟩ := List.length_eq_one_iff.1 h.2
    rw [hchild]
    rfl
  simp [needsSplit, Labelled, h.1, hchildren]

theorem labelled_of_needsSplit (h : needsSplit node = true) : Labelled node.value := by
  simp only [needsSplit, Bool.and_eq_true, Bool.not_eq_true'] at h
  exact h.1.1

theorem pureWrapper_wrap (h : needsSplit node = true) :
    ∃ outcome : Node, (wrap unit state node).1 = .node (wrapperBeat node.value) [outcome] ∧
      outcome.children = node.children ∧ outcome.value.kind ≠ .choice ∧
      PureWrapper (wrapperBeat node.value) [outcome] := by
  have hkind := outcomeKind_ne_choice node
  unfold wrap
  rw [if_pos h]
  exact ⟨_, rfl, rfl, hkind, labelled_of_needsSplit h, rfl, rfl, rfl, _, rfl, hkind⟩

theorem wrap_eq_self (h : needsSplit node = false) : (wrap unit state node).1 = node := by
  unfold wrap
  rw [if_neg (by simp [h])]

theorem mem_walk_wrap_of_mem_below (h : after ∈ Rose.walkForest node.children) :
    after ∈ (wrap unit state node).1.walk := by
  cases hneeds : needsSplit node with
  | true =>
      obtain ⟨outcome, hwrap, hchildren, -⟩ := @pureWrapper_wrap unit state node hneeds
      rw [hwrap]
      rw [← hchildren] at h
      exact Rose.mem_walk_of_mem (List.mem_singleton_self outcome) (Rose.mem_walk.2 (.inr h))
  | false =>
      rw [wrap_eq_self hneeds]
      exact Rose.mem_walk.2 (.inr h)

/-- Below a split node, a lone choice is a pure wrapper or was an unlabelled lone choice before. -/
theorem pure_or_unlabelled
    (hafter : after ∈ Rose.walkForest (splitBelow unit state node).1.children)
    (hlone : Lone after) :
    PureWrapper after.value after.children ∨ ∃ old ∈ Rose.walkForest node.children,
      Lone old ∧ ¬Labelled (Rose.value old) ∧ after.value = Rose.value old := by
  induction node using Rose.induction_on generalizing state with
  | node beat children ih =>
      obtain ⟨wrapped, hwrapped, hmem⟩ := Rose.mem_walkForest.1 hafter
      obtain ⟨child, hchild, before, between, rfl⟩ := Rose.exists_of_mem_right
        (forall₂_children_splitBelow unit state (.node beat children)) hwrapped
      have hbelow : after ∈ Rose.walkForest (splitBelow unit before child).1.children →
          PureWrapper after.value after.children ∨ ∃ old ∈ Rose.walkForest children,
            Lone old ∧ ¬Labelled (Rose.value old) ∧ after.value = Rose.value old := by
        intro hmem
        refine (ih child hchild hmem).imp_right fun ⟨old, hold, hrest⟩ => ⟨old, ?_, hrest⟩
        exact Rose.mem_walkForest.2 ⟨child, hchild, Rose.mem_walk.2 (.inr hold)⟩
      cases hneeds : needsSplit (splitBelow unit before child).1 with
      | true =>
          obtain ⟨outcome, hwrap, hchildren, hkind, hpure⟩ :=
            @pureWrapper_wrap unit between _ hneeds
          rw [hwrap] at hmem
          rcases Rose.mem_walk.1 hmem with rfl | hmem
          · exact .inl hpure
          obtain ⟨only, honly, hmem⟩ := Rose.mem_walkForest.1 hmem
          rw [Rose.children_node, List.mem_singleton] at honly
          rw [honly] at hmem
          rcases Rose.mem_walk.1 hmem with rfl | hmem
          · exact absurd hlone.1 hkind
          · exact hbelow (hchildren ▸ hmem)
      | false =>
          rw [wrap_eq_self hneeds] at hmem
          rcases Rose.mem_walk.1 hmem with rfl | hmem
          · refine .inr ⟨child, Rose.mem_walkForest.2 ⟨child, hchild, Rose.self_mem_walk child⟩,
              lone_splitBelow.1 hlone, ?_, value_splitBelow unit before child⟩
            rw [← value_splitBelow unit before child, ← needsSplit_iff_of_lone hlone, hneeds]
            exact Bool.false_ne_true
          · exact hbelow hmem

theorem exists_unlabelled {old : Node} (hold : old ∈ Rose.walkForest node.children)
    (hlone : Lone old) (hlabel : ¬Labelled old.value) :
    ∃ after ∈ Rose.walkForest (splitBelow unit state node).1.children,
      Lone after ∧ Rose.value after = old.value := by
  induction node using Rose.induction_on generalizing state with
  | node beat children ih =>
      obtain ⟨child, hchild, hmem⟩ := Rose.mem_walkForest.1 hold
      obtain ⟨wrapped, hwrapped, before, between, rfl⟩ := Rose.exists_of_mem_right
        (forall₂_children_splitBelow unit state (.node beat children)).flip hchild
      rcases Rose.mem_walk.1 hmem with rfl | hbelow
      · have hsplit : Lone (splitBelow unit before old).1 := lone_splitBelow.2 hlone
        have hneeds : needsSplit (splitBelow unit before old).1 = false := by
          rw [← Bool.not_eq_true, needsSplit_iff_of_lone hsplit, value_splitBelow]
          exact hlabel
        rw [wrap_eq_self hneeds] at hwrapped
        exact ⟨_, Rose.mem_walkForest.2 ⟨_, hwrapped, Rose.self_mem_walk _⟩, hsplit,
          value_splitBelow unit before old⟩
      · obtain ⟨after, hafter, hrest⟩ := ih child hchild hbelow
        exact ⟨after, Rose.mem_walkForest.2 ⟨_, hwrapped, mem_walk_wrap_of_mem_below hafter⟩, hrest⟩

/-! ### The last look -/

/-- Of type choice is in the end what was a lone choice before the last look. -/
theorem exists_lone_of_choice {root final : Node}
    (hfinal : final ∈ (root.annotate settleKind).walk) (hkind : final.value.kind = .choice) :
    ∃ before ∈ root.walk, Lone before ∧ final.value = Rose.value before ∧
      final.children = (Rose.children before).map (Rose.annotate settleKind) := by
  rw [Rose.walk_annotate] at hfinal
  obtain ⟨before, hbefore, rfl⟩ := List.mem_map.1 hfinal
  have hvalue : (before.annotate settleKind).value = settleKind before := by
    cases before
    rfl
  have hchildren : (before.annotate settleKind).children =
      before.children.map (Rose.annotate settleKind) := by
    cases before
    rw [Rose.annotate, Rose.annotateForest_eq_map]
    rfl
  rw [hvalue] at hkind ⊢
  have hone := wraps_of_settleKind hkind
  rw [settleKind_eq_self (.inr hone)] at hkind ⊢
  exact ⟨before, hbefore, ⟨hkind, hone⟩, rfl, hchildren⟩

theorem mem_walk_annotate_of_lone {root before : Node} (hbefore : before ∈ root.walk)
    (hlone : Lone before) :
    ∃ final ∈ (root.annotate settleKind).walk, Rose.value final = before.value := by
  refine ⟨before.annotate settleKind, ?_, ?_⟩
  · rw [Rose.walk_annotate]
    exact List.mem_map_of_mem hbefore
  · rw [← settleKind_eq_self (.inr hlone.2)]
    cases before
    rfl

theorem PureWrapper.annotate {beat : Beat} {children : List Node} (h : PureWrapper beat children) :
    PureWrapper beat (children.map (Rose.annotate settleKind)) := by
  obtain ⟨outcome, rfl, hkind⟩ := h.outcome
  refine ⟨h.labelled, h.text, h.effects, h.ref, _, rfl, ?_⟩
  have hvalue : (outcome.annotate settleKind).value = settleKind outcome := by
    cases outcome
    rfl
  rw [hvalue, settleKind_eq_self (.inl hkind)]
  exact hkind

/-! ### Explored trees -/

section Explored

open Explore

variable {setting : Setting} {next : Visitor} {visit : Visit} {scene : Scene} {world : World}
  {root : Node}

theorem label_expand {command : String} {effects : List String} {ledger later : Ledger}
    (h : expand setting command effects ledger = (.ok root, later)) : root.value.label = none := by
  unfold expand at h
  split at h
  · cases h
  · cases h
    rfl

theorem label_settleScene
    (h : (settleScene setting next visit scene world).1 = .ok (some root)) :
    root.value.label = none := by
  have hsettles := settles setting next visit scene world
  generalize settleScene setting next visit scene world = result at h hsettles
  cases hsettles with
  | textLoop | repeatedState | bare | leaf | converged =>
      cases h
      rfl
  | dropped => cases h
  | expanded command node ledger found made =>
      cases h
      exact label_expand made
  | unexpanded => cases h
  | opened noLoop noState budget children after found =>
      obtain rfl := Option.some.inj (Except.ok.inj h)
      unfold finish
      dsimp only
      split <;> rfl

/-- No choice leads to the root of a story. -/
theorem label_run (h : (run setting).1 = .ok (some root)) : root.value.label = none := by
  unfold run at h
  generalize (setting.limits.maxDepth + 1).toNat = levels at h
  cases levels with
  | zero =>
      cases h
      rfl
  | succ levels =>
      unfold visitLevels visitWith at h
      split at h
      · exact label_settleScene h
      · cases h

end Explored

/-- In what an exploration makes, separation leaves a pure wrapper at every node of type choice if
and only if the explored tree has no unlabelled node of type choice with exactly one child. Any
other node of type choice in the result is such a node. -/
theorem pure_separate_iff {setting : Setting} {root : Node}
    (h : (run setting).1 = .ok (some root)) (unit : String) (nextId : Int) :
    ((separate unit nextId root).root.Everywhere
        (fun beat children => beat.kind = .choice → PureWrapper beat children) ↔
      root.Everywhere
        fun beat children => beat.kind = .choice → children.length = 1 → Labelled beat) ∧
    ∀ final ∈ (separate unit nextId root).root.walk, (Rose.value final).kind = .choice →
      PureWrapper (Rose.value final) (Rose.children final) ∨
        ∃ old ∈ root.walk, Lone old ∧ ¬Labelled (Rose.value old) ∧
          Rose.value final = Rose.value old := by
  have hdone : (separate unit nextId root).root =
      (splitBelow unit { nextId := nextId } root).1.annotate settleKind := rfl
  rw [hdone]
  have hcases : ∀ final ∈ ((splitBelow unit { nextId := nextId } root).1.annotate settleKind).walk,
      (Rose.value final).kind = .choice →
      PureWrapper (Rose.value final) (Rose.children final) ∨
        ∃ old ∈ root.walk, Lone old ∧ ¬Labelled (Rose.value old) ∧
          Rose.value final = Rose.value old := by
    intro final hfinal hkind
    obtain ⟨before, hbefore, hlone, hvalue, hchildren⟩ := exists_lone_of_choice hfinal hkind
    rw [hvalue, hchildren]
    rcases Rose.mem_walk.1 hbefore with rfl | hbelow
    · refine .inr ⟨root, Rose.self_mem_walk root, lone_splitBelow.1 hlone, ?_,
        value_splitBelow _ _ root⟩
      rw [Labelled, label_run h]
      decide
    · refine (pure_or_unlabelled hbelow hlone).imp PureWrapper.annotate ?_
      rintro ⟨old, hold, hrest⟩
      exact ⟨old, Rose.mem_walk.2 (.inr hold), hrest⟩
  refine ⟨⟨fun hpure old hold hkind hone => ?_, fun hlabelled final hfinal hkind => ?_⟩, hcases⟩
  · by_contra hlabel
    obtain ⟨before, hbefore, hlone, hvalue⟩ : ∃ before ∈
        (splitBelow unit { nextId := nextId } root).1.walk,
        Lone before ∧ Rose.value before = Rose.value old := by
      rcases Rose.mem_walk.1 hold with rfl | hbelow
      · exact ⟨_, Rose.self_mem_walk _, lone_splitBelow.2 ⟨hkind, hone⟩, value_splitBelow _ _ _⟩
      · obtain ⟨after, hafter, hrest⟩ := exists_unlabelled hbelow ⟨hkind, hone⟩ hlabel
        exact ⟨after, Rose.mem_walk.2 (.inr hafter), hrest⟩
    obtain ⟨final, hfinal, hsame⟩ := mem_walk_annotate_of_lone hbefore hlone
    rw [hvalue] at hsame
    have hwrapper := hpure final hfinal (hsame ▸ hkind)
    exact hlabel (hsame ▸ hwrapper.labelled)
  · rcases hcases final hfinal hkind with hpure | ⟨old, hold, hlone, hlabel, -⟩
    · exact hpure
    · exact absurd (hlabelled old hold hlone.1 hlone.2) hlabel

/-- A lane that opens without a word on a single choice. Of the two choices in the yard one has a
blank label, and behind it is a single choice again. -/
def lane : Setting where
  unit := "Lane"
  script := {
    passages := [
      ("start", { choices := [⟨"Go", "yard", false⟩] }),
      ("yard", {
        lines := [some "A yard."]
        choices := [⟨"In", "hall", false⟩, ⟨"", "cellar", false⟩] }),
      ("hall", { choices := [⟨"East", "well", false⟩, ⟨"West", "mill", false⟩] }),
      ("cellar", { choices := [⟨"Up", "well", false⟩] }),
      ("well", { lines := [some "A well."] }),
      ("mill", { lines := [some "A mill."] })] }
  limits := { detectRepeatedStates := false }

def speakingChoices (root : Node) : List (Int × String) :=
  root.walk.filterMap fun node =>
    if (Rose.value node).kind = .choice then (Rose.value node).text.map (Node.id node, ·)
    else none

theorem exists_run_lane : ∃ root, (run lane).1 = .ok (some root) ∧
    speakingChoices (separate "Lane" 7 root).root =
      [(0, "[Choice point]"), (5, "[Choice point]")] :=
  Explore.exists_root_of_map (by decide +kernel)

/-- The opening of the lane stays of type choice, and it is not a wrapper. -/
theorem not_pure_separate_lane : ∃ root, (run lane).1 = .ok (some root) ∧
    ¬(separate "Lane" 7 root).root.Everywhere
      fun beat children => beat.kind = .choice → PureWrapper beat children := by
  obtain ⟨root, hrun, hspeaking⟩ := exists_run_lane
  refine ⟨root, hrun, fun hpure => ?_⟩
  have hfirst : (0, "[Choice point]") ∈ speakingChoices (separate "Lane" 7 root).root := by
    rw [hspeaking]
    exact List.mem_cons_self
  obtain ⟨node, hnode, hshown⟩ := List.mem_filterMap.1 hfirst
  split at hshown
  · next hkind =>
    rw [(hpure node hnode hkind).text] at hshown
    cases hshown
  · cases hshown

theorem pure_separate_iff_lane : ∃ root, (run lane).1 = .ok (some root) ∧
    speakingChoices (separate "Lane" 7 root).root =
      [(0, "[Choice point]"), (5, "[Choice point]")] ∧
    ∀ final ∈ (separate "Lane" 7 root).root.walk, (Rose.value final).kind = .choice →
      PureWrapper (Rose.value final) (Rose.children final) ∨
        ∃ old ∈ root.walk, Lone old ∧ ¬Labelled (Rose.value old) ∧
          Rose.value final = Rose.value old := by
  obtain ⟨root, hrun, hspeaking⟩ := exists_run_lane
  exact ⟨root, hrun, hspeaking, (pure_separate_iff hrun "Lane" 7).2⟩

end Split

end StoryAtlas
