import StoryAtlas.Proofs.Explore.Parents
import StoryAtlas.Proofs.Split.Wrapper

/-!
# Separation meets nothing unexpected

Separation has a rule for the outcome of every node that it splits, unless the node has children and
neither goes on as a choice, a dialogue or a fight nor refers to another node. Such a node is noted
and reported. Whether a rule applies depends on what the node says and on whether it has children.
Both are the same before and after the nodes below it are split, so a tree can be looked at
beforehand: if every node below the root is expected, nothing is noted.

Explorations make such trees only. The nodes with children for which there is no rule are results
and what branches into knots. A result has no label and what branches is special, so neither is
split. That some nodes lose their children when fallbacks are dropped changes nothing about it.
-/

namespace StoryAtlas.Split

open Explore (run Setting Onward LeadsOn onward_run)

/-- There is a rule for the outcome of the node, if it has to be split. -/
def Expected (node : Node) : Prop := needsSplit node = true → (outcomeKind node).isSome

/-- Nothing was noted on the way from one state to the other. -/
structure Quiet (before after : State) : Prop where
  unexpected : after.unexpected = before.unexpected
  journal : after.journal = before.journal

variable {unit : String} {state : State} {before middle after : State} {node other : Node}
  {nodes : List Node}

theorem Quiet.refl (state : State) : Quiet state state := ⟨rfl, rfl⟩

theorem Quiet.trans (first : Quiet before middle) (second : Quiet middle after) :
    Quiet before after :=
  ⟨second.unexpected.trans first.unexpected, second.journal.trans first.journal⟩

/-! ### The pass over an expected tree -/

theorem quiet_wrap (h : Expected node) : Quiet state (wrap unit state node).2 := by
  unfold wrap
  split
  · next hneeds =>
    obtain ⟨kind, hkind⟩ := Option.isSome_iff_exists.1 (h hneeds)
    rw [hkind]
    exact ⟨rfl, rfl⟩
  · exact .refl state

theorem quiet_wrapAll (h : ∀ node ∈ nodes, Expected node) :
    Quiet state (wrapAll unit state nodes).2 := by
  induction nodes generalizing state with
  | nil => exact .refl state
  | cons node nodes ih =>
      obtain ⟨hfirst, hrest⟩ := List.forall_mem_cons.1 h
      exact (quiet_wrap hfirst).trans (ih hrest)

theorem Expected.of_same (h : Expected other) (hvalue : node.value = other.value)
    (hchildren : node.children.isEmpty = other.children.isEmpty) : Expected node := by
  unfold Expected needsSplit outcomeKind at h ⊢
  rw [hvalue, hchildren]
  exact h

theorem Expected.splitBelow (h : Expected node) : Expected (splitBelow unit state node).1 := by
  refine h.of_same (value_splitBelow unit state node) ?_
  rw [Bool.eq_iff_iff, List.isEmpty_iff_length_eq_zero, List.isEmpty_iff_length_eq_zero,
    length_children_splitBelow]

theorem quiet_splitForest
    (h : ∀ node ∈ nodes, ∀ state : State, Quiet state (splitBelow unit state node).2) :
    Quiet state (splitForest unit state nodes).2 := by
  induction nodes generalizing state with
  | nil => exact .refl state
  | cons node nodes ih =>
      obtain ⟨hfirst, hrest⟩ := List.forall_mem_cons.1 h
      exact (hfirst state).trans (ih hrest)

/-- If all nodes below the root are expected, nothing is noted. -/
theorem quiet_splitBelow (h : ∀ inner ∈ Rose.walkForest node.children, Expected inner) :
    Quiet state (splitBelow unit state node).2 := by
  induction node using Rose.induction_on generalizing state with
  | node beat children ih =>
      have hbelow : Quiet state (splitForest unit state children).2 :=
        quiet_splitForest fun child hchild state => ih child hchild fun inner hinner =>
          h inner (Rose.mem_walkForest.2 ⟨child, hchild, Rose.mem_walk.2 (.inr hinner)⟩)
      refine hbelow.trans (quiet_wrapAll fun child hchild => ?_)
      obtain ⟨old, hold, before, rfl⟩ :=
        Rose.exists_of_mem_right (forall₂_splitForest unit state children) hchild
      exact (h old (Rose.mem_walkForest.2 ⟨old, hold, Rose.self_mem_walk old⟩)).splitBelow

/-! ### Trees of explorations -/

/-- If a node has no children unless it leads on, it is expected. -/
theorem expected_of_leadsOn (h : ¬LeadsOn node.value → node.children = []) : Expected node := by
  intro hneeds
  have hlabelled := labelled_of_needsSplit hneeds
  unfold outcomeKind
  dsimp only
  split
  · rfl
  next hpeace =>
  split
  · rfl
  split
  · rfl
  next hchildren =>
  split
  · rfl
  next hsilent =>
  have hleads : LeadsOn node.value := by
    by_contra hnot
    rw [h hnot] at hchildren
    exact hchildren rfl
  obtain hkind | hkind | hkind | hkind | ⟨-, hlabel⟩ := hleads
  · exact absurd (.inl hkind) hsilent
  · exact absurd (.inr hkind) hsilent
  · exact absurd hkind hpeace
  · simp [needsSplit, hkind] at hneeds
  · rw [Labelled, hlabel] at hlabelled
    exact absurd hlabelled (by decide)

theorem quiet_separate {root : Node} (h : Onward root) (unit : String) (nextId : Int) :
    (separate unit nextId root).unexpected = [] ∧ (separate unit nextId root).journal = [] := by
  have hquiet : Quiet { nextId := nextId } (splitBelow unit { nextId := nextId } root).2 :=
    quiet_splitBelow fun inner hinner =>
      expected_of_leadsOn (h inner (Rose.mem_walk.2 (.inr hinner)))
  exact ⟨hquiet.unexpected, hquiet.journal⟩

/-- Separation notes nothing unexpected in the tree of an exploration, whether fallbacks are dropped
from it before or not. -/
theorem separate_run_expected (setting : Setting) {root : Node}
    (hrun : (run setting).1 = .ok (some root)) (unit : String) (nextId : Int) :
    ((separate unit nextId root).unexpected = [] ∧ (separate unit nextId root).journal = []) ∧
      (separate unit nextId (dropFallbacks root).1).unexpected = [] ∧
        (separate unit nextId (dropFallbacks root).1).journal = [] := by
  have honward := onward_run setting hrun
  exact ⟨quiet_separate honward unit nextId,
    quiet_separate (Rose.childless_prune isFallback honward) unit nextId⟩

/-- A shrine where an offering branches into knots, with a fight and a fallback. -/
def shrine : Setting where
  unit := "Shrine"
  script := {
    passages := [
      ("start", {
        lines := [some "A shrine."]
        choices := [⟨"Offer", "altar", false⟩, ⟨"Fight", "guard", false⟩,
          ⟨"default", "road", false⟩] }),
      ("altar", { lines := [some ">>>>COLLECTOR"] }),
      ("guard", {
        lines := [some "A guard.", some ">>>>COMBAT:Guard"]
        choices := [⟨"Go on", "road", false⟩] }),
      ("road", { lines := [some "A road."] })] }
  limits := { detectRepeatedStates := false }
  bytecode := { knots := [("ember", .arr [.str "^An ember."]), ("frost", .arr [.str "^Frost."])] }

/-- The types of the shrine's nodes, in the order of the walk, with the number of children. -/
theorem separate_run_expected_shrine : ∃ root, (run shrine).1 = .ok (some root) ∧
    root.walk.map (fun node => ((Rose.value node).kind, (Rose.children node).length)) =
      [(.dialogue, 3), (.special, 2), (.result, 1), (.ending, 0), (.result, 1), (.ending, 0),
        (.combat, 1), (.ending, 0), (.ending, 0)] ∧
    (separate "Shrine" 9 root).unexpected = [] ∧
      (separate "Shrine" 9 (dropFallbacks root).1).unexpected = [] := by
  have hkinds : ∃ root, (run shrine).1 = .ok (some root) ∧
      root.walk.map (fun node => ((Rose.value node).kind, (Rose.children node).length)) =
        [(.dialogue, 3), (.special, 2), (.result, 1), (.ending, 0), (.result, 1), (.ending, 0),
          (.combat, 1), (.ending, 0), (.ending, 0)] :=
    Explore.exists_root_of_map (f := fun root : Node =>
      root.walk.map fun node => ((Rose.value node).kind, (Rose.children node).length))
      (by decide +kernel)
  obtain ⟨root, hrun, hkinds⟩ := hkinds
  have hexpected := separate_run_expected shrine hrun "Shrine" 9
  exact ⟨root, hrun, hkinds, hexpected.1.1, hexpected.2.1⟩

end StoryAtlas.Split
