import StoryAtlas.Proofs.Explore.Fights

/-!
# Which nodes have children

An exploration gives children to a node for two reasons. Either the story goes on behind its
choices, and then the text that was read for it is silent, starts a fight or is told, and so it is
with what was split off; or a command branches into knots, and then a special node stands above the
results and each result above its end. No choice leads to a result, so that a result gets no label.

Afterwards nodes only lose their children, when they are folded onto the hub, and only the first
node of a visit gets the label of a choice. It is never a result.
-/

namespace StoryAtlas.Explore

/-- What a node with children is. -/
def LeadsOn (beat : Beat) : Prop :=
  beat.kind = .choice ∨ beat.kind = .dialogue ∨ beat.kind = .combat ∨ beat.kind = .special ∨
    beat.kind = .result ∧ beat.label = none

def Onward (root : Node) : Prop :=
  root.Everywhere fun beat children => ¬LeadsOn beat → children = []

/-- A node as a visit makes it: a choice may lead to it. -/
structure Reached (root : Node) : Prop where
  noResult : root.value.kind ≠ .result
  onward : Onward root

variable {setting : Setting} {stop : Stop} {beat : Beat} {node child : Node}

theorem onward_leaf (beat : Beat) : Onward (.node beat []) :=
  Rose.everywhere_node.2 ⟨fun _ => rfl, nofun⟩

theorem onward_parent {children : List Node} (hbeat : LeadsOn beat)
    (h : ∀ child ∈ children, Onward child) : Onward (.node beat children) :=
  Rose.everywhere_node.2 ⟨fun hnot => absurd hbeat hnot, h⟩

/-! ### What happens to a node later -/

theorem onward_foldHub (menu : Option Menu) (hub : HubSnapshot) (h : Onward node) :
    Onward (foldHub menu hub node) := by
  induction node using Rose.induction_on with
  | node beat children ih =>
      obtain ⟨hroot, hchildren⟩ := Rose.everywhere_node.1 h
      rw [foldHub, foldHubs_eq_map]
      split
      · exact onward_leaf _
      · refine Rose.everywhere_node.2 ⟨fun hnot => ?_, List.forall_mem_map.2 fun child hchild =>
          ih child hchild (hchildren child hchild)⟩
        rw [hroot hnot, List.map_nil]

theorem leadsOn_labelBeat (label : ChoiceLabel) (hkind : beat.kind ≠ .result) (h : LeadsOn beat) :
    LeadsOn (labelBeat label beat) := by
  obtain h | h | h | h | ⟨h, -⟩ := h
  · exact .inl h
  · exact .inr (.inl h)
  · exact .inr (.inr (.inl h))
  · exact .inr (.inr (.inr (.inl h)))
  · exact absurd h hkind

theorem Reached.labelled (h : Reached child) (label : ChoiceLabel) :
    Reached (child.withValue (labelBeat label child.value)) := by
  obtain ⟨beat, children⟩ := child
  obtain ⟨hroot, hchildren⟩ := Rose.everywhere_node.1 h.onward
  exact ⟨h.noResult, Rose.everywhere_node.2
    ⟨fun hnot => hroot fun hbeat => hnot (leadsOn_labelBeat label h.noResult hbeat), hchildren⟩⟩

theorem Reached.handed (h : Reached child) (label : ChoiceLabel) (world : World) :
    Reached (handed setting label child world).1 := by
  have hlabelled := h.labelled label
  rw [Explore.handed]
  obtain hsame | ⟨hub, warned, entries, -, -, hfold⟩ :=
    foldBelow_eq setting (child.withValue (labelBeat label child.value)) world
  · rw [hsame]
    exact hlabelled
  · obtain ⟨hroot, hchildren⟩ := Rose.everywhere_node.1 hlabelled.onward
    rw [hfold]
    refine ⟨h.noResult, Rose.everywhere_node.2 ⟨fun hnot => ?_, List.forall_mem_map.2
      fun inner hinner => onward_foldHub _ _ (hchildren inner hinner)⟩⟩
    exact List.map_eq_nil_iff.2 (hroot hnot)

/-! ### How a stop makes its node -/

theorem Kind.ofText_cases (text : String) (isLeaf : Bool) :
    Kind.ofText text isLeaf = .choice ∨ Kind.ofText text isLeaf = .combat ∨
      Kind.ofText text isLeaf = if isLeaf then .ending else .dialogue := by
  unfold Kind.ofText
  split
  · exact .inl rfl
  split
  · exact .inr (.inl rfl)
  · exact .inr (.inr rfl)

theorem Stop.Looked.kind_cases (h : stop.Looked setting) :
    stop.scene.kind = .choice ∨ stop.scene.kind = .combat ∨
      stop.scene.kind = if stop.scene.choices.isEmpty then .ending else .dialogue := by
  obtain ⟨stretch, labels, location, -, -, hscene⟩ := h.scene_eq
  rw [hscene]
  exact Kind.ofText_cases _ _

theorem Stop.Looked.kind_ne_result (h : stop.Looked setting) : stop.scene.kind ≠ .result := by
  rcases h.kind_cases with hkind | hkind | hkind <;> rw [hkind]
  · decide
  · decide
  · split <;> decide

/-- Where a scene has choices, its node leads on. -/
theorem Stop.Looked.leadsOn (h : stop.Looked setting) (hchoices : stop.scene.choices ≠ [])
    (hbeat : beat.kind = stop.scene.kind) : LeadsOn beat := by
  rw [← List.isEmpty_eq_false_iff] at hchoices
  rcases h.kind_cases with hkind | hkind | hkind <;> rw [← hbeat] at hkind
  · exact .inl hkind
  · exact .inr (.inr (.inl hkind))
  · rw [hchoices] at hkind
    exact .inr (.inl hkind)

theorem onward_expand {command : String} {effects : List String} {ledger later : Ledger}
    (h : expand setting command effects ledger = (.ok node, later)) : Onward node := by
  obtain ⟨id, results, rfl, hresults⟩ := exists_of_expand h
  refine onward_parent (.inr (.inr (.inr (.inl rfl)))) fun result hresult => ?_
  obtain ⟨⟩ := hresults result hresult
  exact onward_parent (.inr (.inr (.inr (.inr ⟨rfl, rfl⟩))))
    (List.forall_mem_singleton.2 (onward_leaf _))

theorem Stop.Closes.reached {world : World} (h : stop.Closes setting (.ok (some node), world))
    (hlooked : stop.Looked setting) : Reached node := by
  have hscene := hlooked.kind_ne_result
  cases h with
  | textLoop ref found => exact ⟨hscene, onward_leaf _⟩
  | repeatedState ref found => exact ⟨hscene, onward_leaf _⟩
  | expanded command root ledger found made =>
      refine ⟨?_, onward_expand made⟩
      rw [kind_expand made]
      decide
  | bare =>
      refine ⟨?_, onward_leaf _⟩
      change (if stop.scene.kind = .combat then Kind.combat else .ending) ≠ .result
      split <;> decide
  | leaf =>
      refine ⟨?_, onward_leaf _⟩
      change (if stop.scene.kind = .dialogue then Kind.ending else stop.scene.kind) ≠ .result
      split
      · decide
      · exact hscene
  | converged ref known => exact ⟨hscene, onward_leaf _⟩

/-- What is split off ends if it has no children, and is told otherwise. -/
theorem onward_partsOf (scene : Scene) {children : List Node} (nextId : Int)
    (h : ∀ child ∈ children, Onward child) :
    ∀ child ∈ (partsOf setting scene children nextId).children, Onward child := by
  obtain ⟨-, hsame⟩ | ⟨beat, -, hsplit, -, -, -, hkind⟩ :=
    partsOf_children setting scene children nextId
  · rw [hsame]
    exact h
  · rw [hsplit, List.forall_mem_singleton]
    cases children with
    | nil => exact onward_leaf _
    | cons first others => exact onward_parent (.inr (.inl hkind)) h

theorem reached_finished (hlooked : stop.Looked setting) (hchoices : stop.scene.choices ≠ [])
    {children : List Node} (ledger : Ledger) (h : ∀ child ∈ children, Onward child) :
    Reached (stop.finished setting children ledger).1 := by
  obtain ⟨hubId, hnode⟩ | hnode :=
    finish_node setting stop.scene (stop.signature setting) stop.id children ledger
  · rw [Stop.finished, hnode]
    refine ⟨?_, onward_leaf _⟩
    change (if stop.scene.kind = .choice then Kind.dialogue else stop.scene.kind) ≠ .result
    split
    · decide
    · exact hlooked.kind_ne_result
  · rw [Stop.finished, hnode]
    exact ⟨hlooked.kind_ne_result,
      onward_parent (hlooked.leadsOn hchoices rfl) (onward_partsOf _ _ h)⟩

/-! ### The whole exploration -/

theorem tracing_reached (setting : Setting) :
    Tracing setting fun _ _ nodes _ => ∀ node ∈ nodes, Reached node where
  idle _ := nofun
  append first second := List.forall_mem_append.2 ⟨first, second⟩
  handed label h := List.forall_mem_singleton.2 ((h _ List.mem_cons_self).handed label _)
  glanced _ _ stretch _ := by
    refine List.forall_mem_singleton.2 ⟨?_, onward_leaf _⟩
    rcases Kind.ofText_cases (Extract.ofText setting.bytecode.lexicon stretch.text).text false with
      hkind | hkind | hkind <;>
    · rw [glanceNode, Rose.value_node, returnBeat]
      change Kind.ofText _ false ≠ .result
      rw [hkind]
      decide
  cut _ := List.forall_mem_singleton.2 ⟨nofun, onward_leaf _⟩
  closed hlooked _ hcloses _ := by
    intro node hnode
    obtain rfl := mem_yielded.1 hnode
    exact hcloses.reached hlooked
  opened hlooked hopens _ h := List.forall_mem_singleton.2
    (reached_finished hlooked hopens.choices _ fun child hchild => (h child hchild).onward)

/-- In the tree of an exploration only nodes that lead on have children. -/
theorem onward_run (setting : Setting) {root : Node} (hrun : (run setting).1 = .ok (some root)) :
    Onward root :=
  (kept_run (tracing_reached setting) root (mem_yielded.2 hrun)).onward

end StoryAtlas.Explore
