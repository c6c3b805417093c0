import StoryAtlas.Proofs.Split.Choice

/-!
# Separating choices loses nothing

A wrapper and its outcome together say what the node said that was split. To see this, every node
with a single child of a fresh id is joined with that child again: the wrapper gives the id, the
label and the requirements, the outcome all the rest. What comes out is the tree from before, node
by node and in order, apart from types, and at the joined nodes from a text that was missing, a
count of continues that the outcome's type has no use for, and the mark of an unconditional
fallback.

The proof follows the pass. A node whose children are done is prepared: it has its old value, no
fresh child, and children that come out as they should. Wrapping a prepared node keeps its id and
makes it come out as it should itself.
-/

namespace StoryAtlas

/-- Trees of one shape whose values are related one by one. -/
inductive Rose.Matched {α β : Type} (R : α → β → Prop) : Rose α → Rose β → Prop
  | node {a : α} {b : β} {cs : List (Rose α)} {ds : List (Rose β)} (value : R a b)
      (children : List.Forall₂ (Matched R) cs ds) : Matched R (.node a cs) (.node b ds)

namespace Split

def joinBeats (wrapper outcome : Beat) : Beat :=
  { outcome with
    id := wrapper.id
    label := wrapper.label
    requirements := wrapper.requirements }

/-- Joins a node with its only child if the child's id is fresh, and marks what was joined. -/
def join (bound : Int) (beat : Beat) : List (Rose (Bool × Beat)) → Rose (Bool × Beat)
  | [.node (false, outcome) below] =>
    if bound ≤ outcome.id then .node (true, joinBeats beat outcome) below
    else .node (false, beat) [.node (false, outcome) below]
  | children => .node (false, beat) children

mutual

/-- Joins every wrapper with its outcome. -/
def contract (bound : Int) : Node → Rose (Bool × Beat)
  | .node beat children => join bound beat (contractForest bound children)

def contractForest (bound : Int) : List Node → List (Rose (Bool × Beat))
  | [] => []
  | node :: nodes => contract bound node :: contractForest bound nodes

end

/-- How the beat of a contracted tree says what the old one said. -/
structure Rejoined (joined : Bool × Beat) (old : Beat) : Prop where
  id : joined.2.id = old.id
  label : joined.2.label = old.label
  effects : joined.2.effects = old.effects
  ref : joined.2.ref = old.ref
  refChildren : joined.2.refChildren = old.refChildren
  text : joined.2.text = old.text ∨
    joined.1 = true ∧ old.text = none ∧ joined.2.text = some ""
  requirements : joined.2.requirements = old.requirements ∨
    joined.1 = true ∧ old.requirements = [] ∧ old.label = some Beat.defaultLabel ∧
      joined.2.requirements = [Beat.defaultRequirement]
  continues : joined.2.continues = old.continues ∨
    joined.1 = true ∧ joined.2.kind ≠ .dialogue ∧ joined.2.continues = none

/-- A tree that comes out as the old one when it is contracted, after the last look at its types. -/
def ComesOut (bound : Int) (after old : Node) : Prop :=
  Rose.Matched Rejoined (contract bound (after.annotate settleKind)) old

/-- A tree whose root is not fresh, and that comes out as the old one. -/
structure Finished (bound : Int) (after old : Node) : Prop where
  below : after.id < bound
  comesOut : ComesOut bound after old

/-- A tree that comes out as the old one below its root, with no fresh node next to the root. -/
structure Prepared (bound : Int) (node old : Node) : Prop where
  value : node.value = old.value
  children : List.Forall₂ (Finished bound) node.children old.children

variable {bound : Int} {unit : String} {state : State} {node old after : Node}
  {nodes olds : List Node}

theorem id_contract (bound : Int) (node : Node) : (contract bound node).value.2.id = node.id := by
  obtain ⟨beat, children⟩ := node
  rw [contract]
  unfold join
  split
  · split <;> rfl
  · rfl

theorem join_eq (beat : Beat) {children : List (Rose (Bool × Beat))}
    (h : ∀ child ∈ children, child.value.2.id < bound) :
    join bound beat children = .node (false, beat) children := by
  unfold join
  split
  · next outcome below =>
    have hold : outcome.id < bound := h _ List.mem_cons_self
    rw [if_neg (Int.not_le.2 hold)]
  · rfl

theorem id_annotate_settleKind (node : Node) : Node.id (node.annotate settleKind) = node.id := by
  obtain ⟨beat, children⟩ := node
  obtain ⟨kind, hkind⟩ := settleKind_eq (.node beat children)
  rw [Rose.annotate, Node.id, Rose.value_node, hkind]
  rfl

/-- Children that are finished come out one by one, and are not joined with anything above. -/
theorem contractForest_of_finished (h : List.Forall₂ (Finished bound) nodes olds) :
    List.Forall₂ (Rose.Matched Rejoined)
      (contractForest bound (Rose.annotateForest settleKind nodes)) olds ∧
    ∀ child ∈ contractForest bound (Rose.annotateForest settleKind nodes),
      child.value.2.id < bound := by
  induction h with
  | nil => exact ⟨.nil, nofun⟩
  | cons hfirst _ ih =>
      refine ⟨.cons hfirst.comesOut ih.1, List.forall_mem_cons.2 ⟨?_, ih.2⟩⟩
      rw [id_contract, id_annotate_settleKind]
      exact hfirst.below

theorem rejoined_retyped (kind : Kind) (beat : Beat) :
    Rejoined (false, { beat with kind := kind }) beat :=
  ⟨rfl, rfl, rfl, rfl, rfl, .inl rfl, .inl rfl, .inl rfl⟩

theorem Prepared.comesOut (h : Prepared bound node old) : ComesOut bound node old := by
  obtain ⟨beat, children⟩ := node
  obtain ⟨oldBeat, oldChildren⟩ := old
  obtain ⟨hvalue, hchildren⟩ := h
  obtain rfl : beat = oldBeat := hvalue
  obtain ⟨hmatched, hold⟩ := contractForest_of_finished hchildren
  rw [Rose.children_node] at hmatched hold
  obtain ⟨kind, hkind⟩ := settleKind_eq (.node beat children)
  rw [ComesOut, Rose.annotate, contract, join_eq _ hold, hkind]
  exact .node (rejoined_retyped kind beat) hmatched

theorem outcomeKind_ne_choice (node : Node) :
    (outcomeKind node).getD node.value.kind ≠ .choice := by
  unfold outcomeKind
  dsimp only
  split
  · exact nofun
  split
  · split
    · exact nofun
    · next hkind => exact hkind
  split
  · exact nofun
  split
  · exact nofun
  · next hkind =>
    rw [not_or] at hkind
    exact hkind.1

theorem rejoined_joinBeats (fresh : Int) (kind : Kind) (beat : Beat) :
    Rejoined (true, joinBeats (wrapperBeat beat) (outcomeBeat fresh kind beat)) beat where
  id := rfl
  label := rfl
  effects := rfl
  ref := rfl
  refChildren := rfl
  text := by
    cases htext : beat.text with
    | none => exact .inr ⟨rfl, rfl, by rw [joinBeats, outcomeBeat, htext]; rfl⟩
    | some text => exact .inl (by rw [joinBeats, outcomeBeat, htext]; rfl)
  requirements := by
    simp only [joinBeats, wrapperBeat, Beat.settle]
    split
    · next hunmarked =>
      rw [Bool.and_eq_true, List.isEmpty_iff, beq_iff_eq] at hunmarked
      exact .inr ⟨trivial, hunmarked.1, hunmarked.2, rfl⟩
    · exact .inl rfl
  continues := by
    simp only [joinBeats, outcomeBeat, Beat.settle]
    split
    · exact .inl rfl
    · next hkind => exact .inr ⟨trivial, hkind, rfl⟩

theorem settleKind_eq_self (h : node.value.kind ≠ .choice ∨ node.children.length = 1) :
    settleKind node = node.value := by
  unfold settleKind
  dsimp only
  rw [if_neg]
  rintro ⟨hkind, hlength⟩
  exact h.elim (fun hne => hne hkind) fun hone => hlength hone

/-- Whether it is wrapped or not, a prepared node comes out as it should, under its old id. -/
theorem finished_wrap (h : Prepared bound node old) (hnode : node.id < bound)
    (hstate : bound ≤ state.nextId) : Finished bound (wrap unit state node).1 old := by
  unfold wrap
  split
  · obtain ⟨beat, children⟩ := node
    obtain ⟨oldBeat, oldChildren⟩ := old
    obtain ⟨hvalue, hchildren⟩ := h
    obtain rfl : beat = oldBeat := hvalue
    obtain ⟨hmatched, hold⟩ := contractForest_of_finished hchildren
    rw [Rose.children_node] at hmatched hold
    have hkind := outcomeKind_ne_choice (.node beat children)
    refine ⟨hnode, ?_⟩
    dsimp only [Rose.value_node, Rose.children_node] at hkind ⊢
    generalize (outcomeKind (.node beat children)).getD beat.kind = kind at hkind
    have houtcome : settleKind (.node (outcomeBeat state.nextId kind beat) children) =
        outcomeBeat state.nextId kind beat := settleKind_eq_self (.inl hkind)
    have hwrapper : settleKind (.node (wrapperBeat beat)
        [.node (outcomeBeat state.nextId kind beat) children]) = wrapperBeat beat :=
      settleKind_eq_self (.inr rfl)
    rw [ComesOut, Rose.annotate, hwrapper, Rose.annotateForest, Rose.annotate, houtcome,
      Rose.annotateForest, contract, contractForest, contract, join_eq _ hold, contractForest, join,
      if_pos (show bound ≤ (outcomeBeat state.nextId kind beat).id from hstate)]
    exact .node (rejoined_joinBeats state.nextId kind beat) hmatched
  · exact ⟨hnode, h.comesOut⟩

theorem nextId_le_wrap (unit : String) (state : State) (node : Node) :
    state.nextId ≤ (wrap unit state node).2.nextId := by
  obtain ⟨count, h⟩ := splits_wrap unit state node
  rw [h.nextId]
  omega

theorem finished_wrapAll (h : List.Forall₂ (Prepared bound) nodes olds)
    (holds : ∀ old ∈ olds, Node.id old < bound) (hstate : bound ≤ state.nextId) :
    List.Forall₂ (Finished bound) (wrapAll unit state nodes).1 olds := by
  induction h generalizing state with
  | nil => exact .nil
  | @cons node old _ _ hfirst _ ih =>
      obtain ⟨hold, holds⟩ := List.forall_mem_cons.1 holds
      have hid : Node.id node = old.id := congrArg Beat.id hfirst.value
      have hnext := nextId_le_wrap unit state node
      exact .cons (finished_wrap hfirst (hid ▸ hold) hstate) (ih holds (Int.le_trans hstate hnext))

theorem nextId_le_splitBelow (unit : String) (state : State) (node : Node) :
    state.nextId ≤ (splitBelow unit state node).2.nextId := by
  obtain ⟨count, h⟩ := splits_splitBelow unit state node
  rw [h.nextId]
  omega

theorem nextId_le_splitForest (unit : String) (state : State) (nodes : List Node) :
    state.nextId ≤ (splitForest unit state nodes).2.nextId := by
  obtain ⟨count, h⟩ := splits_splitForest unit state nodes
    fun node _ state => splits_splitBelow unit state node
  rw [h.nextId]
  omega

theorem prepared_splitForest (hstate : bound ≤ state.nextId)
    (h : ∀ node ∈ nodes, ∀ state : State, bound ≤ state.nextId →
      Prepared bound (splitBelow unit state node).1 node) :
    List.Forall₂ (Prepared bound) (splitForest unit state nodes).1 nodes := by
  induction nodes generalizing state with
  | nil => exact .nil
  | cons node nodes ih =>
      have hnext := nextId_le_splitBelow unit state node
      exact .cons (h node List.mem_cons_self state hstate)
        (ih (Int.le_trans hstate hnext) fun node hnode => h node (List.mem_cons_of_mem _ hnode))

theorem prepared_splitBelow (hids : ∀ id ∈ node.ids, id < bound) (hstate : bound ≤ state.nextId) :
    Prepared bound (splitBelow unit state node).1 node := by
  induction node using Rose.induction_on generalizing state with
  | node beat children ih =>
      have hbelow : ∀ child ∈ children, ∀ id ∈ Node.ids child, id < bound := by
        intro child hchild id hid
        refine hids id ?_
        rw [Node.ids_node]
        exact List.mem_cons_of_mem _ (List.mem_flatMap.2 ⟨child, hchild, hid⟩)
      have hprepared := prepared_splitForest hstate
        fun child hchild state hstate => ih child hchild (hbelow child hchild) hstate
      refine ⟨rfl, finished_wrapAll hprepared (fun child hchild => ?_)
        (Int.le_trans hstate (nextId_le_splitForest unit state children))⟩
      exact hbelow child hchild _ (Node.id_mem_ids (Rose.self_mem_walk child))

/-! ### The pass -/

/-- Contracting the separated tree gives back the tree. -/
theorem matched_contract_separate {nextId : Int} {root : Node}
    (below : ∀ id ∈ root.ids, id < nextId) :
    Rose.Matched Rejoined (contract nextId (separate unit nextId root).root) root :=
  (prepared_splitBelow below (Int.le_refl nextId)).comesOut

theorem links_separate_perm (unit : String) (nextId : Int) (root : Node) :
    (separate unit nextId root).root.links.Perm root.links := by
  obtain ⟨count, hsplits⟩ := splits_splitBelow unit { nextId := nextId } root
  have hlinks := hsplits.links
  simp only [List.flatMap_singleton] at hlinks
  have hretyped := (shuffled_settleKind (splitBelow unit { nextId := nextId } root).1).map_walk_perm
    (f := Beat.links) (g := Beat.links) fun old new ⟨kind, hnew⟩ => by rw [hnew]; rfl
  refine List.Perm.trans ?_ hlinks
  rw [Node.links, Node.links, List.flatMap_def, List.flatMap_def]
  exact hretyped.flatten

/-- Separation is a faithful rewrite: it keeps all ids and adds one for each split, joining wrappers
with their outcomes gives back the tree, and the links are what they were, so that those that
resolved still do. -/
theorem separate_faithful {unit : String} {nextId : Int} {root : Node} (distinct : root.ids.Nodup)
    (below : ∀ id ∈ root.ids, id < nextId) :
    let done := separate unit nextId root
    done.root.ids.Nodup ∧
    (∃ fresh : List Int, fresh.length = done.separated ∧ (∀ id ∈ fresh, id ∉ root.ids) ∧
      done.root.ids.Perm (root.ids ++ fresh)) ∧
    Rose.Matched Rejoined (contract nextId done.root) root ∧
    done.root.links.Perm root.links ∧
    ∀ link ∈ done.root.links, link ∈ root.ids → link ∈ done.root.ids := by
  intro done
  obtain ⟨hids, -⟩ := ids_separate unit nextId root
  have hfresh : ∀ id ∈ freshIds nextId done.separated, id ∉ root.ids := by
    intro id hid hold
    have := (mem_freshIds.1 hid).1
    have := below id hold
    omega
  refine ⟨?_, ⟨freshIds nextId done.separated, ?_, hfresh, hids⟩, matched_contract_separate below,
    links_separate_perm unit nextId root, fun link _ hlink => ?_⟩
  · refine hids.nodup_iff.2 (distinct.append (nodup_freshIds _ _) fun id hold hid => ?_)
    exact hfresh id hid hold
  · rw [freshIds, List.length_map, List.length_range]
  · exact hids.mem_iff.2 (List.mem_append_left _ hlink)

/-- A crossroads with a fallback that says nothing, and a fight behind a labelled step. -/
def forkedRoad : Node :=
  .node { id := 0, kind := .dialogue, text := some "A crossroads." }
    [.node { id := 1, kind := .dialogue, label := some "default", ref := some 3 } [],
      .node { id := 2, kind := .choice, text := some "A bridge.", label := some "Cross" }
        [.node { id := 3, kind := .combat, label := some "Fight", effects := ["COMBAT: Troll"] }
          [.node { id := 4, kind := .ending, text := some "Won." } []]]]

theorem separate_faithful_forkedRoad :
    (forkedRoad.ids.Nodup ∧ ∀ id ∈ forkedRoad.ids, id < 5) ∧
    (separate "Road" 5 forkedRoad).separated = 3 ∧
    (separate "Road" 5 forkedRoad).root.ids = [0, 1, 6, 2, 7, 3, 5, 4] ∧
    Rose.Matched Rejoined (contract 5 (separate "Road" 5 forkedRoad).root) forkedRoad :=
  have distinct : forkedRoad.ids.Nodup := by decide
  have below : ∀ id ∈ forkedRoad.ids, id < 5 := by decide
  ⟨⟨distinct, below⟩, by decide +kernel, by decide +kernel,
    (@separate_faithful "Road" 5 forkedRoad distinct below).2.2.1⟩

end Split

end StoryAtlas
