import StoryAtlas.Proofs.Edit.Links

/-!
# What references lead to once an alteration is done

A search sees the tree as it is at that moment, and what it finds may lie below a node that the same
alteration still robs of its children. Everything else stays: the nodes are taken in the order of
the walk, so by the time anything is added to a node no selected node above it is left to be robbed.
So a reference by number always leads to a node of the altered tree, and one by a text does unless
the node that was found lay below a selected node and the alteration drops children.
-/

namespace StoryAtlas

namespace Edit

/-! ### The order of the steps -/

section Order

variable {root : Node} {upper node : Placed}

theorem place_lt_of_mem_below (hupper : upper ∈ root.placed.walk)
    (h : node ∈ Rose.walkForest upper.children) : upper.place < node.place := by
  have hnumbers := Rose.numbers_of_mem_walk_enumerate hupper
  obtain ⟨entry, children⟩ := upper
  rw [Rose.walk_node, List.map_cons, Rose.size, List.range'_succ, List.cons.injEq] at hnumbers
  have hmem : node.place ∈ (Rose.walkForest children).map fun inner => inner.value.1 :=
    List.mem_map_of_mem h
  rw [hnumbers.2, List.mem_range'] at hmem
  obtain ⟨offset, -, hplace⟩ := hmem
  change entry.1 < node.place
  rw [Rose.value_node] at hplace
  omega

/-- If the later step drops children, its node comes later, unless the first is about
requirements. -/
def Step.Precedes (first second : Step) : Prop :=
  second.action.drops = true →
    (∃ requirements, first.action = .require requirements) ∨ first.node.place < second.node.place

theorem pairwise_drops_actions (alteration : Alteration) :
    alteration.actions.Pairwise fun first second =>
      second.drops = true → ∃ requirements, first = .require requirements :=
  Alteration.pairwise_actions (fun requirements _ _ => ⟨requirements, rfl⟩)
    (fun requirements _ _ => ⟨requirements, rfl⟩) (fun _ _ hdrops => Bool.noConfusion hdrops) _

theorem pairwise_selected (alteration : Alteration) (root : Node) :
    (alteration.selected root.placed).Pairwise fun first second =>
      Placed.place first < Placed.place second := by
  have hplaces : (root.placed.walk.map Placed.place).Pairwise (· < ·) := by
    rw [show root.placed.walk.map Placed.place = List.range' 0 root.size from
      Rose.numbers_enumerate 0 root]
    exact List.pairwise_lt_range'
  exact (List.pairwise_map.1 hplaces).sublist List.filter_sublist

theorem pairwise_steps (alteration : Alteration) (root : Node) :
    (stepsOf alteration.actions (alteration.selected root.placed)).Pairwise Step.Precedes := by
  unfold stepsOf
  rw [List.pairwise_flatMap]
  constructor
  · intro action _
    rw [List.pairwise_map]
    exact (pairwise_selected alteration root).imp fun hplace _ => .inr hplace
  · refine (pairwise_drops_actions alteration).imp fun hactions x hx y hy hdrops => ?_
    obtain ⟨first, -, rfl⟩ := List.mem_map.1 hx
    obtain ⟨second, -, rfl⟩ := List.mem_map.1 hy
    exact .inl (hactions hdrops)

theorem mem_stepsOf {actions : List Action} {nodes : List Placed} {step : Step} :
    step ∈ stepsOf actions nodes ↔ step.action ∈ actions ∧ step.node ∈ nodes := by
  obtain ⟨action, node⟩ := step
  simp [stepsOf]

end Order

/-! ### What stays -/

section Stays

variable {root : Node} {bound : Int} {done steps : List Step} {step : Step} {state : State}
  {plan : Plan} {node : Placed} {unit : String}

theorem Reached.forget_eq (h : Reached root.placed bound done state plan) :
    state.root.forget = plan.made root.placed := by
  rw [h.root_eq]
  rfl

theorem Step.shows_revise (hstep : step.node ∈ root.placed.walk)
    (hshows : plan.Shows root.placed node)
    (hopen : step.action.drops = true → node ∉ Rose.walkForest step.node.children) :
    (plan.revise step.node.place (step.remake state)).Shows root.placed node := by
  refine hshows.revise fun hdrops upper hupper hplace => ?_
  rw [Placed.eq_of_place_eq (Placed.nodup_places_placed root) hupper hstep hplace]
  exact hopen (by rwa [Step.remake, Action.drops_remake] at hdrops)

theorem added_subset_revise {place : Nat} {remake : Remake}
    (h : remake.drops = true → place ≠ node.place) :
    (plan node.place).added ⊆ (plan.revise place remake node.place).added := by
  by_cases hplace : node.place = place
  · have hdrops : remake.drops = false := Bool.eq_false_iff.2 fun hdrops => h hdrops hplace.symm
    rw [hplace, Plan.revise_self, Remake.andThen, hdrops]
    exact List.subset_append_left _ _
  · rw [Plan.revise_of_ne hplace]
    exact fun _ hmem => hmem

/-- A node stays if no later step drops what is below a node above it, and what was added to it
stays if no later step drops its own children. -/
theorem Reached.stays (h : Reached root.placed bound done state plan)
    (hshows : plan.Shows root.placed node)
    (hsteps : ∀ step ∈ steps, Step.node step ∈ root.placed.walk)
    (hopen : ∀ step ∈ steps, (Step.action step).drops = true →
      node ∉ Rose.walkForest step.node.children) :
    node.id ∈ (run unit steps state).root.forget.ids ∧
      ((∀ step ∈ steps, (Step.action step).drops = true → step.node.place ≠ node.place) →
        ∀ added ∈ (plan node.place).added,
          Node.ids added ⊆ (run unit steps state).root.forget.ids) := by
  induction steps generalizing done state plan with
  | nil =>
      change _ ∈ state.root.forget.ids ∧ (_ → ∀ added ∈ _, _ ⊆ state.root.forget.ids)
      have hmem (id : Int) : id ∈ (plan.made root.placed).ids ↔ _ :=
        Plan.mem_ids_made (Placed.nodup_places_placed root) h.keepsIds
      rw [h.forget_eq]
      refine ⟨(hmem _).2 ⟨node, hshows, .inl rfl⟩, fun _ added hadded id hid => ?_⟩
      exact (hmem id).2 ⟨node, hshows, .inr ⟨added, hadded, hid⟩⟩
  | cons step steps ih =>
      rw [List.forall_mem_cons] at hsteps hopen
      obtain ⟨hid, hadded⟩ := ih (h.step (Placed.nodup_places_placed root) step unit)
        (Step.shows_revise hsteps.1 hshows hopen.1) hsteps.2 hopen.2
      refine ⟨hid, fun hplaces added hmem => ?_⟩
      rw [List.forall_mem_cons] at hplaces
      refine hadded hplaces.2 added (added_subset_revise (fun hdrops => hplaces.1 ?_) hmem)
      rwa [Step.remake, Action.drops_remake] at hdrops

/-! ### The references of one step -/

theorem Step.now_eq {now : Working}
    (h : Working.atPlace? step.node.place state.root = some now) : step.now state = now := by
  rw [Step.now, currently, place_lift, Option.bind_some, h, Option.getD_some]

/-- The tree's version of a node has its id, and so has the one from before if that is lost. -/
theorem Reached.id_now (h : Reached root.placed bound done state plan)
    (hstep : step.node ∈ root.placed.walk) : (step.now state).beat.id = step.node.id := by
  have distinct := Placed.nodup_places_placed root
  cases hfound : Working.atPlace? step.node.place state.root with
  | some now =>
      rw [Step.now_eq hfound]
      rw [h.root_eq] at hfound
      obtain ⟨node, hnode, hplace, rfl⟩ := Plan.atPlace?_eq_some distinct hfound
      rw [Placed.eq_of_place_eq distinct hnode.mem hstep hplace, Plan.beat_carryOut]
      exact h.keepsIds _ _
  | none =>
      rw [Step.now, currently, place_lift, Option.bind_some, hfound, Option.getD_none, beat_lift]
      rfl

/-- A step that makes a reference does so at the tree's version of its node. -/
theorem Reached.of_mem_links (h : Reached root.placed bound done state plan) {link : NewRef}
    (hlink : link ∈ step.links state) (hstep : step.node ∈ root.placed.walk) :
    plan.Shows root.placed step.node ∧ link ∈ step.action.links state (step.now state) ∧
      (step.now state).beat.id = step.node.id := by
  have distinct := Placed.nodup_places_placed root
  have hid := h.id_now hstep
  unfold Step.links at hlink
  split at hlink
  · next now hnow =>
    rw [Step.now_eq hnow] at hid ⊢
    rw [h.root_eq] at hnow
    obtain ⟨node, hnode, hplace, rfl⟩ := Plan.atPlace?_eq_some distinct hnow
    obtain rfl := Placed.eq_of_place_eq distinct hnode.mem hstep hplace
    exact ⟨hnode, hlink, hid⟩
  · cases hlink

theorem not_require_of_mem_links {now : Working} {action : Action} {link : NewRef}
    (h : link ∈ action.links state now) (requirements : List String) :
    action ≠ .require requirements := by
  rintro rfl
  cases h

/-- What a step holds at its node stays: no later step robs it of anything. -/
theorem Reached.held (h : Reached root.placed bound done state plan) {link : NewRef}
    (hlink : link ∈ step.links state)
    (hsteps : ∀ other ∈ step :: steps, Step.node other ∈ root.placed.walk)
    (ordered : (step :: steps).Pairwise Step.Precedes) {id : Int}
    (hid : id = (step.now state).beat.id ∨
      ∃ added ∈ (step.remake state).added, id ∈ Node.ids added) :
    id ∈ (run unit (step :: steps) state).root.forget.ids := by
  have hstep := hsteps step List.mem_cons_self
  obtain ⟨hshows, hmade, hnow⟩ := h.of_mem_links hlink hstep
  have hlater : ∀ other ∈ steps, (Step.action other).drops = true →
      step.node.place < other.node.place := by
    intro other hother hdrops
    refine (List.rel_of_pairwise_cons ordered hother hdrops).resolve_left ?_
    rintro ⟨requirements, hrequire⟩
    exact not_require_of_mem_links hmade requirements hrequire
  have hmem : ∀ other ∈ steps, Step.node other ∈ root.placed.walk := fun other hother =>
    hsteps other (List.mem_cons_of_mem _ hother)
  have hself : (plan.revise step.node.place (step.remake state)).Shows root.placed step.node :=
    Step.shows_revise hstep hshows fun _ hbelow =>
      Nat.lt_irrefl _ (place_lt_of_mem_below hstep hbelow)
  obtain ⟨hnode, hadded⟩ :=
    (h.step (Placed.nodup_places_placed root) step unit).stays hself hmem
      fun other hother hdrops hbelow => Nat.lt_asymm (hlater other hother hdrops)
        (place_lt_of_mem_below (hmem other hother) hbelow)
  rcases hid with rfl | ⟨added, hnew, hid⟩
  · rw [hnow]
    exact hnode
  · refine hadded (fun other hother hdrops => (hlater other hother hdrops).ne') added ?_ hid
    rw [Plan.revise_self]
    exact List.mem_append_right _ hnew

theorem ComesTo.exists_adds {actions : List Action} {remake : Remake}
    (h : ComesTo bound actions remake) (hadded : remake.added ≠ []) :
    ∃ action ∈ actions, ∀ requirements, action ≠ Action.require requirements := by
  induction h using ComesTo.induction_on with
  | nil => exact absurd rfl hadded
  | cons action actions before now rest _ _ ih =>
      by_cases hlater : rest.added = []
      · refine ⟨action, List.mem_cons_self, ?_⟩
        rintro requirements rfl
        apply hadded
        rw [Remake.andThen, hlater, List.append_nil]
        split <;> rfl
      · obtain ⟨other, hother, hrequire⟩ := ih hlater
        exact ⟨other, List.mem_cons_of_mem _ hother, hrequire⟩

theorem Reached.place_lt_of_added (h : Reached root.placed bound done state plan)
    (ordered : (done ++ steps).Pairwise Step.Precedes) (hadded : (plan node.place).added ≠ [])
    {other : Step} (hother : other ∈ steps) (hdrops : other.action.drops = true) :
    node.place < other.node.place := by
  obtain ⟨action, haction, hrequire⟩ := (h.comesTo node.place).exists_adds hadded
  obtain ⟨step, hstep, rfl⟩ := List.mem_map.1 haction
  obtain ⟨hdone, hplace⟩ := List.mem_filter.1 hstep
  rw [← eq_of_beq hplace]
  refine ((List.pairwise_append.1 ordered).2.2 step hdone other hother hdrops).resolve_left ?_
  rintro ⟨requirements, hsame⟩
  exact hrequire requirements hsame

/-- What a search finds is below a node that some later step robs of its children, or it stays. -/
theorem Reached.found_stays (h : Reached root.placed bound done state plan)
    (hsteps : ∀ other ∈ steps, Step.node other ∈ root.placed.walk)
    (ordered : (done ++ steps).Pairwise Step.Precedes) {id : Int}
    (hid : id ∈ state.root.forget.ids)
    (hopen : ∀ other ∈ steps, (Step.action other).drops = true →
      id ∉ Placed.descendantIds other.node) :
    id ∈ (run unit steps state).root.forget.ids := by
  rw [h.forget_eq, Plan.mem_ids_made (Placed.nodup_places_placed root) h.keepsIds] at hid
  obtain ⟨node, hshows, rfl | ⟨added, hadded, hid⟩⟩ := hid
  · refine (h.stays hshows hsteps fun other hother hdrops hbelow => ?_).1
    exact hopen other hother hdrops (List.mem_map_of_mem hbelow)
  · have hlater {other : Step} (hother : other ∈ steps) (hdrops : other.action.drops = true) :
        node.place < other.node.place :=
      h.place_lt_of_added ordered (List.ne_nil_of_mem hadded) hother hdrops
    refine (h.stays hshows hsteps fun other hother hdrops hbelow => ?_).2
      (fun other hother hdrops => (hlater hother hdrops).ne') added hadded hid
    exact Nat.lt_asymm (hlater hother hdrops) (place_lt_of_mem_below (hsteps other hother) hbelow)

theorem Reached.links_stay (h : Reached root.placed bound done state plan)
    (hsteps : ∀ other ∈ step :: steps, Step.node other ∈ root.placed.walk)
    (ordered : (done ++ step :: steps).Pairwise Step.Precedes) {link : NewRef}
    (hlink : link ∈ step.links state) :
    link.source ∈ (run unit (step :: steps) state).root.forget.ids ∧
      (link.bySearch = false →
        link.target ∈ (run unit (step :: steps) state).root.forget.ids) ∧
      ((∀ other ∈ step :: steps, (Step.action other).drops = true →
          link.target ∉ Placed.descendantIds other.node) →
        link.target ∈ (run unit (step :: steps) state).root.forget.ids) := by
  have hordered : (step :: steps).Pairwise Step.Precedes := (List.pairwise_append.1 ordered).2.1
  obtain ⟨-, hmade, -⟩ := h.of_mem_links hlink (hsteps step List.mem_cons_self)
  obtain ⟨hsearch, hnumber⟩ := Action.target_of_mem_links hmade
  have htarget (hby : link.bySearch = false) :
      link.target ∈ (run unit (step :: steps) state).root.forget.ids :=
    h.held hlink hsteps hordered (hnumber hby)
  refine ⟨h.held hlink hsteps hordered (Action.source_of_mem_links hmade), htarget, fun hopen => ?_⟩
  cases hby : link.bySearch with
  | false => exact htarget hby
  | true => exact h.found_stays hsteps ordered (hsearch hby) hopen

theorem Reached.all_links_stay (h : Reached root.placed bound done state plan)
    (hsteps : ∀ other ∈ steps, Step.node other ∈ root.placed.walk)
    (ordered : (done ++ steps).Pairwise Step.Precedes) {link : NewRef}
    (hlink : link ∈ linksOf unit steps state) :
    link.source ∈ (run unit steps state).root.forget.ids ∧
      (link.bySearch = false → link.target ∈ (run unit steps state).root.forget.ids) ∧
      ((∀ other ∈ steps, (Step.action other).drops = true →
          link.target ∉ Placed.descendantIds other.node) →
        link.target ∈ (run unit steps state).root.forget.ids) := by
  induction steps generalizing done state plan with
  | nil => cases hlink
  | cons step steps ih =>
      rcases List.mem_append.1 hlink with hfirst | hlater
      · exact h.links_stay hsteps ordered hfirst
      · have hordered : (done ++ [step] ++ steps).Pairwise Step.Precedes := by
          rwa [List.append_assoc, List.singleton_append]
        obtain ⟨hsource, hnumber, htarget⟩ :=
          ih (h.step (Placed.nodup_places_placed root) step unit)
            (fun other hother => hsteps other (List.mem_cons_of_mem _ hother)) hordered hlater
        exact ⟨hsource, hnumber, fun hopen => htarget fun other hother =>
          hopen other (List.mem_cons_of_mem _ hother)⟩

/-! ### No other references -/

theorem Reached.at_shown (h : Reached root.placed bound done state plan)
    (hshows : plan.Shows root.placed step.node) :
    step.now state = plan.carryOut step.node ∧
      step.links state = step.action.links state (step.now state) := by
  have hfound := Plan.atPlace?_of_shows (Placed.nodup_places_placed root) hshows
  rw [← h.root_eq] at hfound
  rw [Step.now_eq hfound]
  refine ⟨rfl, ?_⟩
  rw [Step.links, hfound]

/-- After a step a node refers to where the step made it refer, or to where it did before. -/
theorem Reached.ref_of_step (h : Reached root.placed bound done state plan)
    (hstep : step.node ∈ root.placed.walk) {now : Node}
    (hnow : now ∈ (step.run unit state).root.forget.walk) {target : Int}
    (href : now.value.ref = some target) :
    (∃ link ∈ step.links state, link.source = now.id ∧ link.target = target) ∨
      (∃ old ∈ state.root.forget.walk, Node.id old = now.id ∧ old.value.ref = some target) ∨
        target ∈ step.action.draftRefs := by
  have distinct := Placed.nodup_places_placed root
  have hlater := h.step distinct step unit
  rw [hlater.forget_eq, Plan.mem_walk_made distinct] at hnow
  rw [h.forget_eq]
  rcases hnow with ⟨node, hshown, rfl⟩ | ⟨node, hshown, added, hadded, hmem⟩
  · have hshows := hshown.of_revise
    have hold := (Plan.mem_walk_made distinct).2 (.inl ⟨node, hshows, rfl⟩)
    rw [Plan.id_made hlater.keepsIds]
    by_cases hplace : node.place = step.node.place
    · obtain rfl := Placed.eq_of_place_eq distinct hshows.mem hstep hplace
      obtain ⟨hversion, hlinks⟩ := h.at_shown hshows
      have hbeat : (step.now state).beat = (plan.made step.node).value := by
        rw [hversion, Plan.beat_carryOut, Plan.value_made]
      have hid := h.id_now hstep
      have hchange : ((step.action.remake state (step.now state)).change
          (step.now state).beat).ref = some target := by
        rw [Plan.value_made, Plan.revise_self] at href
        rw [hbeat, Plan.value_made]
        exact href
      rw [hlinks, ← hid]
      rcases Action.ref_of_change hchange with hlink | hsame | hdraft
      · exact .inl hlink
      · refine .inr (.inl ⟨_, hold, ?_, ?_⟩)
        · rw [hid]
          exact Plan.id_made h.keepsIds step.node
        · rw [← hbeat]
          exact hsame
      · exact .inr (.inr hdraft)
    · refine .inr (.inl ⟨_, hold, Plan.id_made h.keepsIds node, ?_⟩)
      rwa [Plan.value_made, Plan.revise_of_ne hplace, ← Plan.value_made] at href
  · have hshows := hshown.of_revise
    have hstays (hbefore : added ∈ (plan node.place).added) : now ∈ (plan.made root.placed).walk :=
      (Plan.mem_walk_made distinct).2 (.inr ⟨node, hshows, added, hbefore, hmem⟩)
    by_cases hplace : node.place = step.node.place
    · obtain rfl := Placed.eq_of_place_eq distinct hshows.mem hstep hplace
      rw [Plan.revise_self, Remake.andThen] at hadded
      rcases List.mem_append.1 hadded with hbefore | hnew
      · split at hbefore
        · cases hbefore
        · exact .inr (.inl ⟨now, hstays hbefore, rfl, href⟩)
      · rw [(h.at_shown hshows).2]
        exact (Action.ref_of_mem_added hnew hmem href).imp_right .inr
    · rw [Plan.revise_of_ne hplace] at hadded
      exact .inr (.inl ⟨now, hstays hadded, rfl, href⟩)

/-- After several steps a node refers to where one of them made it refer, or to where it did
before. -/
theorem Reached.ref_of_run (h : Reached root.placed bound done state plan)
    (hsteps : ∀ other ∈ steps, Step.node other ∈ root.placed.walk) {now : Node}
    (hnow : now ∈ (run unit steps state).root.forget.walk) {target : Int}
    (href : now.value.ref = some target) :
    (∃ link ∈ linksOf unit steps state, link.source = now.id ∧ link.target = target) ∨
      (∃ old ∈ state.root.forget.walk, Node.id old = now.id ∧ old.value.ref = some target) ∨
        ∃ other ∈ steps, target ∈ (Step.action other).draftRefs := by
  induction steps generalizing done state plan with
  | nil => exact .inr (.inl ⟨now, hnow, rfl, href⟩)
  | cons step steps ih =>
      have hstep := hsteps step List.mem_cons_self
      have hlater := h.step (Placed.nodup_places_placed root) step unit
      rcases ih hlater (fun other hother => hsteps other (List.mem_cons_of_mem _ hother)) hnow with
        ⟨link, hlink, hsame⟩ | ⟨old, hold, hid, hsame⟩ | ⟨other, hother, hdraft⟩
      · exact .inl ⟨link, List.mem_append_right _ hlink, hsame⟩
      · rcases h.ref_of_step hstep hold hsame with
          ⟨link, hlink, hends⟩ | ⟨older, holder, hids⟩ | hdraft
        · rw [hid] at hends
          exact .inl ⟨link, List.mem_append_left _ hlink, hends⟩
        · rw [hid] at hids
          exact .inr (.inl ⟨older, holder, hids⟩)
        · exact .inr (.inr ⟨step, List.mem_cons_self, hdraft⟩)
      · exact .inr (.inr ⟨other, List.mem_cons_of_mem _ hother, hdraft⟩)

end Stays

/-! ### One alteration -/

section Alteration

variable {alteration : Alteration} {unit : String} {nextId : Int} {root : Node}

theorem mem_steps {step : Step}
    (h : step ∈ stepsOf alteration.actions (alteration.selected root.placed)) :
    step.node ∈ root.placed.walk :=
  List.mem_of_mem_filter (mem_stepsOf.1 h).2

theorem mem_dropped {id : Int} : id ∈ alteration.dropped root ↔
    alteration.drops = true ∧ ∃ node ∈ alteration.selected root.placed,
      id ∈ Placed.descendantIds node := by
  unfold Alteration.dropped
  split
  · next h => simp [h, List.mem_flatMap]
  · next h => simp [h]

/-- What is below a selected node that loses its children is not in the altered tree. -/
theorem notMem_of_mem_dropped (distinct : root.ids.Nodup) (below : ∀ id ∈ root.ids, id < nextId)
    (kept : alteration.remove = false) {id : Int} (h : id ∈ alteration.dropped root) :
    id ∉ (applyOne unit nextId root alteration).root.forget.ids := by
  obtain ⟨hdrops, upper, hupper, hid⟩ := mem_dropped.1 h
  obtain ⟨lost, hlost, rfl⟩ := List.mem_map.1 hid
  have hmem : lost ∈ root.placed.walk :=
    Rose.mem_walk_of_mem_below hlost (List.mem_of_mem_filter hupper)
  obtain ⟨plan, hcarried, hmade⟩ := exists_carried kept unit nextId root
  rw [hmade, Plan.mem_ids_made (Placed.nodup_places_placed root) hcarried.keepsIds]
  rintro ⟨node, hshows, hsame | ⟨added, hadded, hfresh⟩⟩
  · obtain ⟨hnode, hspares⟩ := hcarried.shows_iff.1 hshows
    rw [← Placed.ids_placed] at distinct
    rw [← Placed.eq_of_id_eq distinct hmem hnode hsame] at hspares
    exact hspares hdrops upper hupper hlost
  · have hold : lost.id ∈ root.ids := by
      rw [← Placed.ids_placed]
      exact Placed.id_mem_ids hmem
    exact absurd (below _ hold) (Int.not_lt.2 (hcarried.le_id hadded hfresh))

theorem ref_of_remove (removes : alteration.remove = true) {node : Node}
    (hnode : node ∈ (applyOne unit nextId root alteration).root.forget.walk) :
    ∃ old ∈ root.walk, Node.id old = node.id ∧ old.value.ref = node.value.ref := by
  rcases exists_prune_of_remove removes unit nextId root with hsame | ⟨drops, hpruned⟩
  · rw [hsame] at hnode
    exact ⟨node, hnode, rfl, rfl⟩
  · rw [hpruned] at hnode
    obtain ⟨origin, horigin, rfl⟩ := Placed.exists_of_mem_walk_forget hnode
    obtain ⟨old, hold, rfl⟩ := Rose.mem_walk_prune horigin
    have hwalk : Placed.forget old ∈ root.walk := by
      rw [← Node.forget_placed root]
      exact Placed.forget_mem_walk hold
    refine ⟨_, hwalk, ?_, ?_⟩ <;> simp [Node.id, Placed.beat]

/-- Every reference that an alteration makes is made at a node of the altered tree. One to a
numbered node leads to a node of the altered tree, and so does one to a text unless the node that
was found lay below a selected node that loses its children. Apart from these, a node refers only to
what the node of its id referred to before, or to what its draft names outright. -/
theorem links_applyOne (distinct : root.ids.Nodup) (below : ∀ id ∈ root.ids, id < nextId) :
    let after := (applyOne unit nextId root alteration).root.forget
    (∀ link ∈ alteration.links unit nextId root,
      link.source ∈ after.ids ∧ (link.bySearch = false → link.target ∈ after.ids) ∧
        (link.target ∈ after.ids ↔ link.target ∉ alteration.dropped root)) ∧
    ∀ node ∈ after.walk, ∀ target, (Rose.value node).ref = some target →
      (∃ link ∈ alteration.links unit nextId root,
        link.source = Node.id node ∧ link.target = target) ∨
      (∃ old ∈ root.walk, Node.id old = Node.id node ∧ old.value.ref = some target) ∨
        target ∈ alteration.draftRefs := by
  cases hremove : alteration.remove with
  | true =>
      rw [Alteration.links, if_pos hremove]
      refine ⟨by simp, fun node hnode target href => .inr (.inl ?_)⟩
      obtain ⟨old, hold, hid, hsame⟩ := ref_of_remove hremove hnode
      exact ⟨old, hold, hid, hsame.trans href⟩
  | false =>
      have hstart := reached_start nextId root
      have hordered := pairwise_steps alteration root
      rw [Alteration.links, if_neg (by rw [hremove]; exact Bool.false_ne_true)]
      constructor
      · intro link hlink
        obtain ⟨hsource, hnumber, htarget⟩ :=
          hstart.all_links_stay (fun _ => mem_steps) hordered hlink
        rw [← root_applyOne hremove] at hsource hnumber htarget
        refine ⟨hsource, hnumber, fun hmem hdropped => ?_, fun hnot => htarget ?_⟩
        · exact notMem_of_mem_dropped distinct below hremove hdropped hmem
        · intro step hstep hdrops hbelow
          obtain ⟨haction, hnode⟩ := mem_stepsOf.1 hstep
          refine hnot (mem_dropped.2 ⟨?_, step.node, hnode, hbelow⟩)
          exact List.any_eq_true.2 ⟨step.action, haction, hdrops⟩
      · intro node hnode target href
        rw [root_applyOne hremove] at hnode
        have hroot : (start nextId root).root.forget = root := forget_ofNode root
        rcases hstart.ref_of_run (fun _ => mem_steps) hnode href with
          hlink | hold | ⟨step, hstep, hdraft⟩
        · exact .inl hlink
        · rw [hroot] at hold
          exact .inr (.inl hold)
        · refine .inr (.inr (List.mem_flatMap.2 ⟨step.action, ?_, hdraft⟩))
          exact (mem_stepsOf.1 hstep).1

end Alteration

def gateAndDoor : Node :=
  .node { id := 0, kind := .dialogue, text := some "A hall." }
    [.node { id := 1, kind := .dialogue, text := some "A gate." }
        [.node { id := 2, kind := .ending, text := some "A yard." } []],
      .node { id := 3, kind := .ending, text := some "A door." } []]

def waysBack : Alteration where
  find := { textOrLabel := some "door" }
  replaceChildren := some
    [.node { kind := .dialogue, text := some "Back.", refCreate := some "yard" } [],
      .node { kind := .dialogue, text := some "On.", refSource := some 7 } [],
      .node { kind := .ending, text := some "Out.", refTarget := some 7 } []]

theorem links_applyOne_gateAndDoor :
    (gateAndDoor.ids.Nodup ∧ ∀ id ∈ gateAndDoor.ids, id < 4) ∧
    waysBack.links "Hall" 4 gateAndDoor = [⟨4, 2, true⟩, ⟨5, 6, false⟩] ∧
    ∀ link ∈ waysBack.links "Hall" 4 gateAndDoor,
      link.target ∈ (applyOne "Hall" 4 gateAndDoor waysBack).root.forget.ids := by
  have distinct : gateAndDoor.ids.Nodup := by decide
  have below : ∀ id ∈ gateAndDoor.ids, id < 4 := by decide
  have hdropped : ∀ link ∈ waysBack.links "Hall" 4 gateAndDoor,
      link.target ∉ waysBack.dropped gateAndDoor := by
    decide +kernel
  refine ⟨⟨distinct, below⟩, by decide +kernel, fun link hlink => ?_⟩
  have hspec := (@links_applyOne waysBack "Hall" 4 gateAndDoor distinct below).1 link hlink
  exact hspec.2.2.2 (hdropped link hlink)

/-- Puts a way back to the yard behind the gate, where the yard was. -/
def wayToNowhere : Alteration where
  find := { textOrLabel := some "gate" }
  replaceChildren := some
    [.node { kind := .dialogue, text := some "Back.", refCreate := some "yard" } []]

/-- The search still finds the yard, which is gone once the children are replaced. -/
theorem dangling_applyOne_gateAndDoor :
    (∃ payload, Alteration.check payload = .valid wayToNowhere) ∧ gateAndDoor.ids.Nodup ∧
      (∀ id ∈ gateAndDoor.ids, id < 4) ∧
      ∃ link ∈ wayToNowhere.links "Hall" 4 gateAndDoor,
        link.source ∈ (applyOne "Hall" 4 gateAndDoor wayToNowhere).root.forget.ids ∧
        link.target ∉ (applyOne "Hall" 4 gateAndDoor wayToNowhere).root.forget.ids := by
  refine ⟨⟨wayToNowhere.toJson, rfl⟩, by decide, by decide, ⟨4, 2, true⟩, ?_⟩
  decide +kernel

end Edit

end StoryAtlas
