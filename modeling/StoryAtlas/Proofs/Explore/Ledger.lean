import StoryAtlas.Explore.Tree

/-!
# What the steps of an exploration do to the ledger

Each step touches few fields of the ledger. The lemmas here say for the next id, the hub and the
journal what is left of them after each step, so that an invariant of an exploration never has to
look into a step for the fields that the step is not about.

Some things are never taken back: what was reported, the hub once it was captured, the count of the
branches dropped, and that the count of nodes was started anew. `Evolves` says all of this at once.
-/

namespace StoryAtlas.Explore

namespace Ledger

variable (ledger : Ledger)

@[simp] theorem nextId_note (entries : Journal) : (ledger.note entries).nextId = ledger.nextId := rfl

@[simp] theorem hub_note (entries : Journal) : (ledger.note entries).hub = ledger.hub := rfl

@[simp] theorem states_note (entries : Journal) : (ledger.note entries).states = ledger.states := rfl

@[simp] theorem converged_note (entries : Journal) :
    (ledger.note entries).converged = ledger.converged := rfl

@[simp] theorem journal_note (entries : Journal) :
    (ledger.note entries).journal = ledger.journal ++ entries := rfl

@[simp] theorem takeId_fst : ledger.takeId.1 = ledger.nextId := rfl

@[simp] theorem nextId_takeId : ledger.takeId.2.nextId = ledger.nextId + 1 := rfl

@[simp] theorem hub_takeId : ledger.takeId.2.hub = ledger.hub := rfl

@[simp] theorem states_takeId : ledger.takeId.2.states = ledger.states := rfl

@[simp] theorem converged_takeId : ledger.takeId.2.converged = ledger.converged := rfl

@[simp] theorem journal_takeId : ledger.takeId.2.journal = ledger.journal := rfl

@[simp] theorem newNode_fst : ledger.newNode.1 = ledger.nextId := rfl

@[simp] theorem nextId_newNode : ledger.newNode.2.nextId = ledger.nextId + 1 := rfl

@[simp] theorem hub_newNode : ledger.newNode.2.hub = ledger.hub := rfl

@[simp] theorem states_newNode : ledger.newNode.2.states = ledger.states := rfl

@[simp] theorem converged_newNode : ledger.newNode.2.converged = ledger.converged := rfl

@[simp] theorem journal_newNode : ledger.newNode.2.journal = ledger.journal := rfl

/-- Entering a level changes nothing but the count. -/
theorem enter_eq (limits : Limits) (depth : Int) :
    ∃ restarted nodeTotal, ledger.enter limits depth =
      { ledger with restarted := restarted, nodeTotal := nodeTotal } := by
  unfold enter
  split
  · exact ⟨true, 0, rfl⟩
  · exact ⟨ledger.restarted, ledger.nodeTotal, rfl⟩

@[simp] theorem nextId_enter (limits : Limits) (depth : Int) :
    (ledger.enter limits depth).nextId = ledger.nextId := by
  obtain ⟨_, _, h⟩ := ledger.enter_eq limits depth
  rw [h]

@[simp] theorem hub_enter (limits : Limits) (depth : Int) :
    (ledger.enter limits depth).hub = ledger.hub := by
  obtain ⟨_, _, h⟩ := ledger.enter_eq limits depth
  rw [h]

@[simp] theorem states_enter (limits : Limits) (depth : Int) :
    (ledger.enter limits depth).states = ledger.states := by
  obtain ⟨_, _, h⟩ := ledger.enter_eq limits depth
  rw [h]

@[simp] theorem converged_enter (limits : Limits) (depth : Int) :
    (ledger.enter limits depth).converged = ledger.converged := by
  obtain ⟨_, _, h⟩ := ledger.enter_eq limits depth
  rw [h]

theorem warnThreshold_eq (unit : String) (hub : HubSnapshot) (compared : Bool) :
    ∃ warned entries, ledger.warnThreshold unit hub compared =
      { ledger with thresholdWarned := warned }.note entries := by
  unfold warnThreshold
  split
  · exact ⟨true, _, rfl⟩
  · exact ⟨ledger.thresholdWarned, [], by simp only [note, List.append_nil]⟩

end Ledger

section

variable (setting : Setting) (scene : Scene) (id : Int) (ledger : Ledger)

/-! ### A new node -/

theorem rememberPlace_eq :
    ∃ states, rememberPlace setting scene id ledger = { ledger with states := states } ∧
      (states = ledger.states ∨ states = Register.put scene.stateHash id ledger.states) := by
  unfold rememberPlace Ledger.remember
  split
  · split
    · exact ⟨ledger.states, rfl, .inl rfl⟩
    · exact ⟨_, rfl, .inr rfl⟩
  · exact ⟨ledger.states, rfl, .inl rfl⟩

/-- Registering a hub changes nothing but the hub and the journal, and the hub only if there was none
and the menu has a threshold. -/
theorem registerHub_eq :
    ∃ hubId hub entries, registerHub setting scene id ledger =
      { ledger with hubId := hubId, hub := hub }.note entries ∧
      (hub = ledger.hub ∨
        ledger.hub = none ∧ ∃ menu, setting.menu = some menu ∧ menu.usesThreshold) := by
  have unchanged : ∃ hubId hub entries, ledger =
      { ledger with hubId := hubId, hub := hub }.note entries ∧
      (hub = ledger.hub ∨
        ledger.hub = none ∧ ∃ menu, setting.menu = some menu ∧ menu.usesThreshold) :=
    ⟨ledger.hubId, ledger.hub, [], by simp only [Ledger.note, List.append_nil], .inl rfl⟩
  unfold registerHub
  split
  · next menu hmenu =>
    split
    · have known : ∃ hubId hub entries, { ledger with hubId := some (ledger.hubId.getD id) } =
          { ledger with hubId := hubId, hub := hub }.note entries ∧
          (hub = ledger.hub ∨
            ledger.hub = none ∧ ∃ menu, setting.menu = some menu ∧ menu.usesThreshold) :=
        ⟨some (ledger.hubId.getD id), ledger.hub, [],
          by simp only [Ledger.note, List.append_nil], .inl rfl⟩
      unfold Ledger.registerHub
      dsimp only
      split
      · next threshold hthreshold hnone =>
        split
        · exact known
        · refine ⟨_, _, _, rfl, .inr ⟨hnone, menu, hmenu, ?_⟩⟩
          rw [Menu.usesThreshold, hthreshold, Option.isSome_some]
      · exact known
    · exact unchanged
  · exact unchanged

/-! ### A finished node -/

theorem claim_eq (parts : Segment.Parts) :
    ∃ nodeTotal, claim parts ledger =
      { ledger with
        nodeTotal := nodeTotal
        nextId := ledger.nextId + if parts.created.isSome then 1 else 0 } := by
  unfold claim
  split
  · exact ⟨ledger.nodeTotal + 1, rfl⟩
  · exact ⟨ledger.nodeTotal, by rw [Int.add_zero]⟩

theorem warnRepeated_eq (children : List Node) :
    ∃ warned entries, warnRepeated setting id children ledger =
      { ledger with thresholdWarned := warned }.note entries := by
  unfold warnRepeated
  split
  · exact ledger.warnThreshold_eq ..
  · exact ⟨ledger.thresholdWarned, [], by simp only [Ledger.note, List.append_nil]⟩

theorem converge_eq (signature : Option String) (children : List Node) :
    ∃ converged, converge signature id children ledger = { ledger with converged := converged } ∧
      (converged = ledger.converged ∨
        ∃ key, signature = some key ∧ children ≠ [] ∧
          converged = Register.put key id ledger.converged) := by
  unfold converge
  split
  · next key =>
    split
    · exact ⟨ledger.converged, rfl, .inl rfl⟩
    · next hchildren => exact ⟨_, rfl, .inr ⟨key, rfl, by simpa using hchildren, rfl⟩⟩
  · exact ⟨ledger.converged, rfl, .inl rfl⟩

/-- Finishing a node takes an id if something was split off, and remembers the menu of the node at
most. -/
theorem ledger_finish (signature : Option String) (children : List Node) :
    ∃ nodeTotal warned converged entries,
      (finish setting scene signature id children ledger).2 =
        { ledger with
          nodeTotal := nodeTotal
          nextId := ledger.nextId +
            if (partsOf setting scene children ledger.nextId).created.isSome then 1 else 0
          thresholdWarned := warned
          converged := converged }.note entries ∧
      (converged = ledger.converged ∨
        ∃ key, signature = some key ∧ converged = Register.put key id ledger.converged) := by
  unfold finish
  dsimp only
  obtain ⟨nodeTotal, hclaim⟩ := claim_eq ledger (partsOf setting scene children ledger.nextId)
  rw [hclaim]
  obtain ⟨warned, entries, hwarn⟩ := warnRepeated_eq setting id _
    (partsOf setting scene children ledger.nextId).children
  rw [hwarn]
  split
  · exact ⟨nodeTotal, warned, ledger.converged, entries, rfl, .inl rfl⟩
  · obtain ⟨converged, hconverge, hsame | ⟨key, hkey, -, hput⟩⟩ := converge_eq id _ signature _
    · rw [hconverge]
      exact ⟨nodeTotal, warned, converged, entries, rfl, .inl hsame⟩
    · rw [hconverge]
      exact ⟨nodeTotal, warned, converged, entries, rfl, .inr ⟨key, hkey, hput⟩⟩

/-! ### Branching into knots -/

/-- The results for the knots change nothing but the next id. -/
theorem branch_eq (command : String) (knot : String × Json) :
    ∃ nextId, (branch setting command knot ledger).2 = { ledger with nextId := nextId } := by
  unfold branch
  split
  · exact ⟨ledger.nextId, rfl⟩
  · dsimp only
    split
    · exact ⟨_, rfl⟩
    · exact ⟨_, rfl⟩

theorem branches_eq (command : String) (knots : List (String × Json)) :
    ∃ nextId, (branches setting command knots ledger).2 = { ledger with nextId := nextId } := by
  induction knots generalizing ledger with
  | nil => exact ⟨ledger.nextId, rfl⟩
  | cons knot knots ih =>
      obtain ⟨middle, hmiddle⟩ := branch_eq setting ledger command knot
      obtain ⟨last, hlast⟩ := ih { ledger with nextId := middle }
      rw [branches]
      generalize hfirst : branch setting command knot ledger = first at hmiddle
      obtain ⟨fault | result, now⟩ := first
      · exact ⟨middle, hmiddle⟩
      · cases hmiddle
        dsimp only
        generalize hrest : branches setting command knots _ = rest at hlast
        obtain ⟨fault | results, now⟩ := rest <;> exact ⟨last, hlast⟩

theorem expand_eq (command : String) (effects : List String) :
    ∃ nextId nodeTotal, (expand setting command effects ledger).2 =
      { ledger with nextId := nextId, nodeTotal := nodeTotal }.note
        (reportKnots setting command) := by
  obtain ⟨nextId, hledger⟩ :=
    branches_eq setting (ledger.note (reportKnots setting command)) command setting.bytecode.knots
  unfold expand
  generalize branches setting command setting.bytecode.knots _ = results at hledger
  obtain ⟨fault | nodes, now⟩ := results
  · exact ⟨nextId, ledger.nodeTotal, hledger⟩
  · cases hledger
    exact ⟨nextId + 1, ledger.nodeTotal + 1, rfl⟩

end

/-- The result of a knot stands above the end that the knot makes of the story. -/
inductive KnotResult (command : String) : Node → Prop
  | above (resultId endId : Int) (knot : String) (content : Extract) (effects : List String) :
      KnotResult command
        (.node (resultBeat resultId command knot) [.node (endBeat endId content effects) []])

theorem knotResult_of_branch {setting : Setting} {command : String} {knot : String × Json}
    {ledger later : Ledger} {node : Node}
    (h : branch setting command knot ledger = (.ok (some node), later)) :
    KnotResult command node := by
  unfold branch at h
  split at h
  · cases h
  · dsimp only at h
    split at h
    · cases h
    · cases h
      exact .above ..

theorem knotResult_of_branches {setting : Setting} {command : String}
    {knots : List (String × Json)} {ledger later : Ledger} {nodes : List Node}
    (h : branches setting command knots ledger = (.ok nodes, later)) :
    ∀ node ∈ nodes, KnotResult command node := by
  induction knots generalizing ledger nodes with
  | nil =>
      cases h
      exact nofun
  | cons knot knots ih =>
      rw [branches] at h
      split at h
      · cases h
      next first middle hfirst =>
      split at h
      · cases h
      next rest last hrest =>
      cases h
      intro node hnode
      rcases List.mem_append.1 hnode with hnode | hnode
      · obtain rfl := Option.mem_toList.1 hnode
        exact knotResult_of_branch hfirst
      · exact ih hrest node hnode

theorem exists_of_expand {setting : Setting} {command : String} {effects : List String}
    {ledger later : Ledger} {node : Node}
    (h : expand setting command effects ledger = (.ok node, later)) :
    ∃ id results, node = .node (specialBeat id command effects) results ∧
      ∀ result ∈ results, KnotResult command result := by
  unfold expand at h
  split at h
  · cases h
  next results now hresults =>
  cases h
  exact ⟨_, results, rfl, knotResult_of_branches hresults⟩

/-! ### What is never taken back -/

/-- The hub is the one there was, or the first that a menu with a threshold has. -/
def HubKept (setting : Setting) (before after : Ledger) : Prop :=
  after.hub = before.hub ∨
    before.hub = none ∧ ∃ menu, setting.menu = some menu ∧ menu.usesThreshold

/-- What a ledger holds for good is still there later. -/
structure Evolves (setting : Setting) (before after : Ledger) : Prop where
  journal : before.journal ⊆ after.journal
  hub : HubKept setting before after
  dropped : before.truncatedBranches ≤ after.truncatedBranches
  restarted : before.restarted → after.restarted

section

variable {setting : Setting} {before middle after : Ledger}

namespace HubKept

theorem of_eq (h : after.hub = before.hub) : HubKept setting before after := .inl h

theorem trans (first : HubKept setting before middle) (second : HubKept setting middle after) :
    HubKept setting before after := by
  rcases second with hsame | ⟨hnone, hmenu⟩
  · rcases first with hfirst | hfirst
    · exact .inl (hsame.trans hfirst)
    · exact .inr hfirst
  · rcases first with hfirst | hfirst
    · exact .inr ⟨hfirst.symm.trans hnone, hmenu⟩
    · exact .inr hfirst

theorem eq_some (h : HubKept setting before after) {hub : HubSnapshot}
    (hhub : before.hub = some hub) : after.hub = some hub := by
  rcases h with hsame | ⟨hnone, -⟩
  · exact hsame.trans hhub
  · rw [hhub] at hnone
    cases hnone

theorem eq_none (h : HubKept setting before after) (hhub : before.hub = none)
    (nothreshold : ∀ menu, setting.menu = some menu → menu.usesThreshold = false) :
    after.hub = none := by
  rcases h with hsame | ⟨-, menu, hmenu, husesThreshold⟩
  · exact hsame.trans hhub
  · rw [nothreshold menu hmenu] at husesThreshold
    cases husesThreshold

end HubKept

namespace Evolves

theorem of_eq (journal : before.journal ⊆ after.journal) (hub : after.hub = before.hub)
    (dropped : after.truncatedBranches = before.truncatedBranches)
    (restarted : after.restarted = before.restarted) : Evolves setting before after :=
  ⟨journal, .of_eq hub, Nat.le_of_eq dropped.symm, fun h => restarted.trans h⟩

theorem refl (setting : Setting) (ledger : Ledger) : Evolves setting ledger ledger :=
  .of_eq (List.Subset.refl _) rfl rfl rfl

theorem trans (first : Evolves setting before middle) (second : Evolves setting middle after) :
    Evolves setting before after where
  journal := List.Subset.trans first.journal second.journal
  hub := first.hub.trans second.hub
  dropped := Nat.le_trans first.dropped second.dropped
  restarted h := second.restarted (first.restarted h)

theorem note (setting : Setting) (entries : Journal) (ledger : Ledger) :
    Evolves setting ledger (ledger.note entries) :=
  .of_eq (List.subset_append_left _ _) rfl rfl rfl

theorem enter (setting : Setting) (depth : Int) (ledger : Ledger) :
    Evolves setting ledger (ledger.enter setting.limits depth) := by
  unfold Ledger.enter
  split
  · exact ⟨List.Subset.refl _, .of_eq rfl, Nat.le_refl _, fun _ => rfl⟩
  · exact refl setting ledger

theorem drop (setting : Setting) (ledger : Ledger) :
    Evolves setting ledger { ledger with truncatedBranches := ledger.truncatedBranches + 1 } :=
  ⟨List.Subset.refl _, .of_eq rfl, Nat.le_succ _, id⟩

theorem rememberPlace (setting : Setting) (scene : Scene) (id : Int) (ledger : Ledger) :
    Evolves setting ledger (rememberPlace setting scene id ledger) := by
  obtain ⟨states, h, -⟩ := rememberPlace_eq setting scene id ledger
  rw [h]
  exact .of_eq (List.Subset.refl _) rfl rfl rfl

theorem registerHub (setting : Setting) (scene : Scene) (id : Int) (ledger : Ledger) :
    Evolves setting ledger (registerHub setting scene id ledger) := by
  obtain ⟨hubId, hub, entries, h, hhub⟩ := registerHub_eq setting scene id ledger
  rw [h]
  exact ⟨List.subset_append_left _ _, hhub, Nat.le_refl _, fun hrestarted => hrestarted⟩

theorem claim (setting : Setting) (parts : Segment.Parts) (ledger : Ledger) :
    Evolves setting ledger (claim parts ledger) := by
  obtain ⟨nodeTotal, h⟩ := claim_eq ledger parts
  rw [h]
  exact .of_eq (List.Subset.refl _) rfl rfl rfl

theorem warnThreshold (setting : Setting) (unit : String) (hub : HubSnapshot) (compared : Bool)
    (ledger : Ledger) : Evolves setting ledger (ledger.warnThreshold unit hub compared) := by
  obtain ⟨warned, entries, h⟩ := ledger.warnThreshold_eq unit hub compared
  rw [h]
  exact .of_eq (List.subset_append_left _ _) rfl rfl rfl

theorem warnRepeated (setting : Setting) (id : Int) (children : List Node) (ledger : Ledger) :
    Evolves setting ledger (warnRepeated setting id children ledger) := by
  obtain ⟨warned, entries, h⟩ := warnRepeated_eq setting id ledger children
  rw [h]
  exact .of_eq (List.subset_append_left _ _) rfl rfl rfl

theorem converge (setting : Setting) (signature : Option String) (id : Int) (children : List Node)
    (ledger : Ledger) : Evolves setting ledger (converge signature id children ledger) := by
  obtain ⟨converged, h, -⟩ := converge_eq id ledger signature children
  rw [h]
  exact .of_eq (List.Subset.refl _) rfl rfl rfl

theorem expand (setting : Setting) (command : String) (effects : List String) (ledger : Ledger) :
    Evolves setting ledger (expand setting command effects ledger).2 := by
  obtain ⟨nextId, nodeTotal, h⟩ := expand_eq setting ledger command effects
  rw [h]
  exact .of_eq (List.subset_append_left _ _) rfl rfl rfl

theorem finish (setting : Setting) (scene : Scene) (signature : Option String) (id : Int)
    (children : List Node) (ledger : Ledger) :
    Evolves setting ledger (finish setting scene signature id children ledger).2 := by
  have hparts := (claim setting (partsOf setting scene children ledger.nextId) ledger).trans
    (warnRepeated setting id (partsOf setting scene children ledger.nextId).children _)
  unfold Explore.finish
  dsimp only
  split
  · exact hparts
  · exact hparts.trans (converge setting signature id _ _)

end Evolves

end

end StoryAtlas.Explore
