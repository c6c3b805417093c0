import StoryAtlas.Proofs.Edit.Draft
import StoryAtlas.Proofs.Edit.Plan

/-!
# The steps of an alteration

An alteration that removes nothing does one thing after another to the nodes it selects, each thing
to all of them before the next. Every step revises the plan at the place of its node and nowhere
else, and what it does there is known from the action: whether the children are dropped, which nodes
are added, and how the beat changes.
-/

namespace StoryAtlas

namespace Edit

/-! ### Searches of a modification -/

section Search

variable {unit : String} {node : Working} {state : State} {root : Working}

def refer (found : Option Int) (beat : Beat) : Beat :=
  match found with
  | some id => { beat with ref := some id }
  | none => beat

@[simp] theorem id_refer (found : Option Int) (beat : Beat) : (refer found beat).id = beat.id := by
  cases found <;> rfl

theorem ref_refer (found : Option Int) (beat : Beat) :
    (refer found beat).ref = found.or beat.ref := by
  cases found <;> rfl

/-- What a node is to refer to by a search, unless that is the node itself. -/
def found (node root : Working) (search : String × Bool) : Option Int :=
  match searchNode search.1 search.2 [] root with
  | some target =>
    if target.place.isSome ∧ target.place = node.place then none else some target.beat.id
  | none => none

/-- What is found by several searches, each in the tree that the one before left. -/
def foundAll (node : Working) : List (String × Bool) → Working → List Int
  | [], _ => []
  | search :: rest, root =>
    (found node root search).toList ++
      foundAll node rest (editBeat node.place (refer (found node root search)) root)

theorem editBeat_id (place : Option Nat) (root : Working) :
    editBeat place (fun beat => beat) root = root := by
  unfold editBeat
  split
  · refine (Rose.map_congr fun inner _ => ?_).trans (Rose.map_id root)
    split <;> rfl
  · rfl

theorem editBeat_editBeat (place : Option Nat) (first second : Beat → Beat) (root : Working) :
    editBeat place second (editBeat place first root) =
      editBeat place (second ∘ first) root := by
  unfold editBeat
  split
  · next number =>
    rw [Rose.map_map]
    refine Rose.map_congr fun inner _ => ?_
    simp only [Function.comp_apply]
    by_cases h : inner.value.1 = some number <;> simp [h]
  · rfl

theorem root_referTo (unit : String) (node : Working) (state : State) (search : String × Bool) :
    (referTo unit node state search).root =
      editBeat node.place (refer (found node state.root search)) state.root := by
  have hidle : state.root = editBeat node.place (refer none) state.root :=
    (editBeat_id node.place state.root).symm
  unfold referTo found
  cases searchNode search.1 search.2 [] state.root with
  | none => exact hidle
  | some target =>
      by_cases hself : target.place.isSome ∧ target.place = node.place
      · simp only [if_pos hself]
        exact hidle
      · simp only [if_neg hself]
        rfl

theorem nextId_referTo (unit : String) (node : Working) (state : State) (search : String × Bool) :
    (referTo unit node state search).nextId = state.nextId := by
  unfold referTo
  split
  · split <;> rfl
  · rfl

theorem root_foldl_referTo (unit : String) (node : Working) (searches : List (String × Bool))
    (state : State) :
    (searches.foldl (referTo unit node) state).root =
      editBeat node.place (refer (foundAll node searches state.root).getLast?) state.root := by
  induction searches generalizing state with
  | nil => exact (editBeat_id node.place state.root).symm
  | cons search rest ih =>
      rw [List.foldl_cons, ih, root_referTo, editBeat_editBeat, foundAll, List.getLast?_append]
      congr 1
      funext beat
      cases (foundAll node rest _).getLast? <;> cases found node state.root search <;> rfl

theorem nextId_foldl_referTo (unit : String) (node : Working) (searches : List (String × Bool))
    (state : State) : (searches.foldl (referTo unit node) state).nextId = state.nextId := by
  induction searches generalizing state with
  | nil => rfl
  | cons search rest ih => rw [List.foldl_cons, ih, nextId_referTo]

/-- The tree that a modification searches first: what it changes and clears is done by then. -/
def modified (change : Modification) (node root : Working) : Working :=
  let changed := editBeat node.place (modifyBeat change) root
  if change.removeChildren then clearChildren node.place changed else changed

end Search

/-! ### Actions -/

/-- One thing that is done to a selected node. -/
inductive Action where
  | replaceNode (tree : DraftTree)
  | replaceChildren (trees : List DraftTree)
  | require (requirements : List String)
  | modify (change : Modification)
  | addChild (tree : DraftTree)

namespace Action

def perform (unit : String) : Action → State → Working → State
  | replaceNode tree => replaceAt unit tree
  | replaceChildren trees => replaceChildrenAt unit trees
  | require requirements => addRequirementsAt requirements
  | modify change => modifyAt unit change
  | addChild tree => addChildAt unit tree

def drops : Action → Bool
  | replaceNode _ | replaceChildren _ => true
  | modify change => change.removeChildren
  | require _ | addChild _ => false

def drafts : Action → List DraftTree
  | replaceNode tree | addChild tree => [tree]
  | replaceChildren trees => trees
  | require _ | modify _ => []

/-- The new nodes with their ids, before they are linked. -/
def brought (state : State) (node : Working) : Action → List (Rose Built)
  | replaceNode tree => [renamed node.beat.id (build state.nextId tree)]
  | replaceChildren trees => buildForest state.nextId trees
  | addChild tree => [build state.nextId tree]
  | require _ | modify _ => []

/-- The ids that the searches of new nodes pass over. -/
def excluded (node : Working) : Action → List Int
  | replaceNode _ => node.walk.map fun (inner : Working) => inner.beat.id
  | _ => []

def link (state : State) (node : Working) (action : Action) (built : Rose Built) : Node :=
  linkTree (targetsOf (action.brought state node)) (action.excluded node) state.root built

def remake (state : State) (node : Working) (action : Action) : Remake :=
  match action with
  | replaceNode tree =>
    let new := action.link state node (renamed node.beat.id (build state.nextId tree))
    { change := fun beat => { new.value with id := beat.id }
      drops := true
      added := new.children }
  | replaceChildren trees =>
    let linked := (buildForest state.nextId trees).map (action.link state node)
    { drops := true
      added := (trees.zip linked).map fun (tree, child) =>
        borrowFirst (firstChildIds linked) tree.value.borrowsFirst child }
  | require requirements => { change := addRequirements requirements }
  | modify change =>
    let ids := foundAll node (searches change) (modified change node state.root)
    { change := refer ids.getLast? ∘ modifyBeat change
      drops := change.removeChildren }
  | addChild tree => { added := [action.link state node (build state.nextId tree)] }

theorem drops_remake (action : Action) (state : State) (node : Working) :
    (action.remake state node).drops = action.drops := by
  cases action <;> rfl

theorem id_change_remake (action : Action) (state : State) (node : Working) (beat : Beat) :
    ((action.remake state node).change beat).id = beat.id := by
  cases action <;> simp [remake, addRequirements, modifyBeat]

theorem le_id_of_mem_added {action : Action} {state : State} {node : Working} {added : Node}
    (h : added ∈ (action.remake state node).added) {id : Int} (hid : id ∈ added.ids) :
    state.nextId ≤ id := by
  cases action with
  | replaceNode tree =>
      rw [remake, link, linkTree_renamed, Rose.children_node, linkTree, Rose.children_map] at h
      obtain ⟨child, hchild, rfl⟩ := List.mem_map.1 h
      obtain ⟨inner, hinner, rfl⟩ := mem_ids_linkTree.1 hid
      exact le_id_of_mem_build
        (Rose.mem_walk_trans hinner (Rose.mem_walk_of_mem_children hchild))
  | replaceChildren trees =>
      obtain ⟨⟨tree, child⟩, hpair, rfl⟩ := List.mem_map.1 h
      obtain ⟨built, hbuilt, rfl⟩ := List.mem_map.1 (List.of_mem_zip hpair).2
      obtain ⟨origin, -, first, hfirst, rfl⟩ := exists_draft_of_mem_buildForest hbuilt
      rw [ids_borrowFirst] at hid
      obtain ⟨inner, hinner, rfl⟩ := mem_ids_linkTree.1 hid
      exact Int.le_trans hfirst (le_id_of_mem_build hinner)
  | require requirements => cases h
  | modify change => cases h
  | addChild tree =>
      rw [List.mem_singleton.1 h] at hid
      obtain ⟨inner, hinner, rfl⟩ := mem_ids_linkTree.1 hid
      exact le_id_of_mem_build hinner

theorem nextId_le_perform (action : Action) (unit : String) (state : State) (node : Working) :
    state.nextId ≤ (action.perform unit state node).nextId := by
  cases action with
  | modify change =>
      simp only [perform, modifyAt, nextId_foldl_referTo]
      exact Int.le_refl _
  | require requirements => exact Int.le_refl _
  | replaceNode tree | replaceChildren trees | addChild tree =>
      simp only [perform, replaceAt, replaceChildrenAt, addChildAt]
      omega

end Action

/-! ### What a step does to the plan -/

def lift (node : Placed) : Working := node.map fun (place, beat) => (some place, beat)

@[simp] theorem place_lift (node : Placed) : (lift node).place = some node.place := by
  rw [lift, Working.place, Rose.value_map]
  rfl

@[simp] theorem beat_lift (node : Placed) : (lift node).beat = node.beat := by
  rw [lift, Working.beat, Rose.value_map]
  rfl

/-- A version of the node of a place that is the tree's, if the tree still shows the node. -/
structure Current (root : Working) (place : Nat) (now : Working) : Prop where
  place_eq : now.place = some place
  unique : ∀ other ∈ root.walk, Working.place other = some place → other = now

variable {plan : Plan} {root node : Placed} {place : Nat} {now : Working}

theorem current_currently (distinct : (Placed.places root).Nodup) (plan : Plan) (node : Placed) :
    Current (plan.carryOut root) node.place (currently (plan.carryOut root) (lift node)) := by
  have hplace := place_lift node
  unfold currently
  rw [hplace, Option.bind_some]
  cases hfound : Working.atPlace? node.place (plan.carryOut root) with
  | none =>
      refine ⟨hplace, fun other hother hsame => ?_⟩
      have := List.find?_eq_none.1 hfound other hother
      simp [hsame] at this
  | some found =>
      obtain ⟨origin, horigin, hsame, rfl⟩ := Plan.atPlace?_eq_some distinct hfound
      refine ⟨?_, fun other hother hotherplace => ?_⟩
      · rw [Option.getD_some, Plan.place_carryOut, hsame]
      · obtain ⟨second, hsecond, hsecondplace, rfl⟩ :=
          Plan.exists_of_mem_walk_of_place distinct hother hotherplace
        rw [Option.getD_some, Placed.eq_of_place_eq distinct hsecond.mem horigin.mem
          (hsecondplace.trans hsame.symm)]

/-- An edit of a place may be exchanged for one that does the same to the tree's version. -/
theorem Current.editAt_congr {tree : Working} {edit other : Working → Working}
    (current : Current tree place now) (h : edit now = other now) :
    Working.editAt place edit tree = Working.editAt place other tree := by
  refine Rose.editWhere_congr fun inner hinner htest => ?_
  rw [current.unique inner hinner (eq_of_beq htest)]
  exact h

namespace Action

theorem root_replaceAt {state : State} (current : Current state.root place now)
    (unit : String) (tree : DraftTree) :
    (replaceAt unit tree state now).root =
      Working.editAt place ((replaceNode tree).remake state now).act state.root := by
  simp only [replaceAt, current.place_eq, id_build, retarget_targetsOf]
  apply current.editAt_congr
  rw [Remake.act, remake, link, linkTree_renamed, current.place_eq, Rose.mapForest_eq_map]
  rfl

theorem root_replaceChildrenAt {state : State} (current : Current state.root place now)
    (unit : String) (trees : List DraftTree) :
    (replaceChildrenAt unit trees state now).root =
      Working.editAt place ((replaceChildren trees).remake state now).act state.root := by
  simp only [replaceChildrenAt, current.place_eq]
  apply current.editAt_congr
  rw [Remake.act, remake, List.map_map]
  rfl

theorem root_addChildAt {state : State} (current : Current state.root place now)
    (unit : String) (tree : DraftTree) :
    (addChildAt unit tree state now).root =
      Working.editAt place ((addChild tree).remake state now).act state.root := by
  simp only [addChildAt, current.place_eq]
  apply current.editAt_congr
  rfl

theorem modified_carryOut (distinct : (Placed.places root).Nodup) (hplace : now.place = some place)
    (change : Modification) :
    modified change now (plan.carryOut root) =
      (plan.revise place
        { change := modifyBeat change, drops := change.removeChildren }).carryOut root := by
  simp only [modified, hplace, Plan.editBeat_carryOut]
  split
  · next hdrops =>
    have hclear :
        clearChildren (some place) = Working.editAt place (Remake.act { drops := true }) := by
      funext tree
      refine Rose.editWhere_congr fun inner _ _ => ?_
      obtain ⟨value, children⟩ := inner
      rfl
    rw [hclear, Plan.editAt_carryOut distinct, Plan.revise_revise, hdrops]
    rfl
  · next hdrops => rw [Bool.eq_false_iff.2 hdrops]

theorem root_modifyAt (distinct : (Placed.places root).Nodup) {state : State}
    (hroot : state.root = plan.carryOut root) (hplace : now.place = some place) (unit : String)
    (change : Modification) :
    (modifyAt unit change state now).root =
      (plan.revise place ((modify change).remake state now)).carryOut root := by
  have hsearched := root_foldl_referTo unit now (searches change)
    { state with root := modified change now state.root }
  refine hsearched.trans ?_
  rw [hroot, modified_carryOut distinct hplace, hplace, Plan.editBeat_carryOut, Plan.revise_revise,
    remake, hroot, modified_carryOut distinct hplace]
  congr 2
  simp [Remake.andThen]

/-- Performing an action on the tree's version of a node is acting as its remake says. -/
theorem root_perform (distinct : (Placed.places root).Nodup) {state : State}
    (hroot : state.root = plan.carryOut root) (current : Current state.root place now)
    (action : Action) (unit : String) :
    (action.perform unit state now).root =
      (plan.revise place (action.remake state now)).carryOut root := by
  cases action with
  | modify change => exact root_modifyAt distinct hroot current.place_eq unit change
  | require requirements =>
      rw [perform, addRequirementsAt, current.place_eq, hroot]
      exact Plan.editBeat_carryOut _ root
  | replaceNode tree =>
      rw [← Plan.editAt_carryOut distinct, ← hroot]
      exact root_replaceAt current unit tree
  | replaceChildren trees =>
      rw [← Plan.editAt_carryOut distinct, ← hroot]
      exact root_replaceChildrenAt current unit trees
  | addChild tree =>
      rw [← Plan.editAt_carryOut distinct, ← hroot]
      exact root_addChildAt current unit tree

end Action

end Edit

/-! ### From an alteration to its steps -/

namespace Alteration

open Edit

def actions (alteration : Alteration) : List Action :=
  match alteration.replaceNode, alteration.replaceChildren with
  | some tree, _ => [.replaceNode tree]
  | none, some trees => [.replaceChildren trees]
  | none, none =>
    let requirements := Draft.withoutEmpty (alteration.addRequirements.getD [])
    (if requirements.isEmpty then [] else [.require requirements]) ++
      (alteration.modify.map .modify).toList ++ (alteration.addChild.map .addChild).toList

def Declares (alteration : Alteration) : Action → Prop
  | .replaceNode tree => alteration.replaceNode = some tree
  | .replaceChildren trees => alteration.replaceChildren = some trees
  | .require _ => True
  | .modify change => alteration.modify = some change
  | .addChild tree => alteration.addChild = some tree

/-- A replacement stands alone, and so do new children; what else is declared goes together. -/
theorem actions_cases (alteration : Alteration) :
    (∃ tree, alteration.replaceNode = some tree ∧ alteration.actions = [.replaceNode tree]) ∨
      (∃ trees, alteration.replaceNode = none ∧ alteration.replaceChildren = some trees ∧
        alteration.actions = [.replaceChildren trees]) ∨
      (alteration.replaceNode = none ∧ alteration.replaceChildren = none ∧
        alteration.actions =
          (if (Draft.withoutEmpty (alteration.addRequirements.getD [])).isEmpty then []
            else [.require (Draft.withoutEmpty (alteration.addRequirements.getD []))]) ++
            (alteration.modify.map .modify).toList ++
              (alteration.addChild.map .addChild).toList) := by
  unfold actions
  cases hnode : alteration.replaceNode with
  | some tree => exact .inl ⟨tree, rfl, rfl⟩
  | none =>
      cases hchildren : alteration.replaceChildren with
      | some trees => exact .inr (.inl ⟨trees, rfl, rfl, rfl⟩)
      | none => exact .inr (.inr ⟨rfl, rfl, rfl⟩)

theorem declares_of_mem_actions {alteration : Alteration} {action : Action}
    (h : action ∈ alteration.actions) : alteration.Declares action := by
  obtain ⟨tree, hnode, hactions⟩ | ⟨trees, -, hchildren, hactions⟩ | ⟨-, -, hactions⟩ :=
    alteration.actions_cases
  · rw [hactions] at h
    rw [List.mem_singleton.1 h]
    exact hnode
  · rw [hactions] at h
    rw [List.mem_singleton.1 h]
    exact hchildren
  · rw [hactions] at h
    rcases List.mem_append.1 h with h | hadd
    · rcases List.mem_append.1 h with hrequire | hmodify
      · split at hrequire
        · cases hrequire
        · rw [List.mem_singleton.1 hrequire]
          trivial
      · obtain ⟨change, hchange, rfl⟩ := Option.map_eq_some_iff.1 (Option.mem_toList.1 hmodify)
        exact hchange
    · obtain ⟨tree, htree, rfl⟩ := Option.map_eq_some_iff.1 (Option.mem_toList.1 hadd)
      exact htree

/-- Only requirements, a modification and a new child go together, in this order. -/
theorem pairwise_actions {R : Action → Action → Prop}
    (hmodify : ∀ requirements change, R (.require requirements) (.modify change))
    (hadd : ∀ requirements tree, R (.require requirements) (.addChild tree))
    (hboth : ∀ change tree, R (.modify change) (.addChild tree)) (alteration : Alteration) :
    alteration.actions.Pairwise R := by
  obtain ⟨tree, -, hactions⟩ | ⟨trees, -, -, hactions⟩ | ⟨-, -, hactions⟩ :=
    alteration.actions_cases
  · rw [hactions]
    exact List.pairwise_singleton R _
  · rw [hactions]
    exact List.pairwise_singleton R _
  · rw [hactions]
    split <;> cases alteration.modify <;> cases alteration.addChild <;> simp [hmodify, hadd, hboth]

def selected (alteration : Alteration) (root : Placed) : List Placed :=
  root.walk.filter fun node => alteration.find.selects (Placed.beat node)

end Alteration

namespace Edit

structure Step where
  action : Action
  node : Placed

namespace Step

def now (step : Step) (state : State) : Working := currently state.root (lift step.node)

def run (unit : String) (step : Step) (state : State) : State :=
  step.action.perform unit state (step.now state)

def remake (step : Step) (state : State) : Remake := step.action.remake state (step.now state)

end Step

def run (unit : String) (steps : List Step) (state : State) : State :=
  steps.foldl (fun state step => step.run unit state) state

/-- Each action at all nodes before the next. -/
def stepsOf (actions : List Action) (nodes : List Placed) : List Step :=
  actions.flatMap fun action => nodes.map fun node => ⟨action, node⟩

def start (nextId : Int) (root : Node) : State := { root := Working.ofNode root, nextId := nextId }

theorem forEach_eq_run (action : Action) (unit : String) (nodes : List Placed) (state : State) :
    forEach (action.perform unit) (nodes.map lift) state =
      run unit (nodes.map fun node => ⟨action, node⟩) state := by
  rw [forEach, run, List.foldl_map, List.foldl_map]
  rfl

theorem run_append (unit : String) (first second : List Step) (state : State) :
    run unit (first ++ second) state = run unit second (run unit first state) :=
  List.foldl_append

theorem run_stepsOf_nil (unit : String) (nodes : List Placed) (state : State) :
    run unit (stepsOf [] nodes) state = state := rfl

theorem run_stepsOf_append (unit : String) (first second : List Action) (nodes : List Placed)
    (state : State) :
    run unit (stepsOf (first ++ second) nodes) state =
      run unit (stepsOf second nodes) (run unit (stepsOf first nodes) state) := by
  rw [stepsOf, List.flatMap_append, run_append]
  rfl

theorem run_stepsOf_singleton (unit : String) (action : Action) (nodes : List Placed)
    (state : State) :
    run unit (stepsOf [action] nodes) state =
      forEach (action.perform unit) (nodes.map lift) state := by
  rw [stepsOf, List.flatMap_singleton, forEach_eq_run]

theorem selected_ofNode (alteration : Alteration) (root : Node) :
    ((Working.ofNode root).walk.filter fun node => alteration.find.selects (Working.beat node)) =
      (alteration.selected root.placed).map lift := by
  rw [Working.ofNode, Rose.walk_map, List.filter_map, Alteration.selected]
  congr 1
  exact List.filter_congr fun node _ => congrArg alteration.find.selects (beat_lift node)

/-- An alteration that selects nodes and does not remove them runs its steps. -/
theorem applyOne_eq_run {alteration : Alteration} {root : Node}
    (kept : alteration.remove = false) (hselected : alteration.selected root.placed ≠ [])
    (unit : String) (nextId : Int) :
    applyOne unit nextId root alteration =
      run unit (stepsOf alteration.actions (alteration.selected root.placed))
        (start nextId root) := by
  unfold applyOne
  dsimp only
  rw [selected_ofNode, kept, if_neg (by simpa using hselected), if_neg Bool.false_ne_true,
    Alteration.actions]
  change _ = run unit _ { root := Working.ofNode root, nextId := nextId }
  cases alteration.replaceNode with
  | some tree => exact (run_stepsOf_singleton unit (.replaceNode tree) _ _).symm
  | none =>
      cases alteration.replaceChildren with
      | some trees => exact (run_stepsOf_singleton unit (.replaceChildren trees) _ _).symm
      | none =>
          dsimp only
          rw [run_stepsOf_append, run_stepsOf_append]
          cases (Draft.withoutEmpty (alteration.addRequirements.getD [])).isEmpty <;>
            cases alteration.modify <;> cases alteration.addChild <;>
              simp [run_stepsOf_singleton, run_stepsOf_nil, Action.perform]

theorem root_applyOne {alteration : Alteration} (kept : alteration.remove = false)
    (unit : String) (nextId : Int) (root : Node) :
    (applyOne unit nextId root alteration).root =
      (run unit (stepsOf alteration.actions (alteration.selected root.placed))
        (start nextId root)).root := by
  by_cases hselected : alteration.selected root.placed = []
  · have hsteps : stepsOf alteration.actions (alteration.selected root.placed) = [] := by
      rw [hselected]
      exact List.flatMap_eq_nil_iff.2 fun _ _ => rfl
    unfold applyOne
    dsimp only
    rw [selected_ofNode, hsteps, hselected]
    rfl
  · rw [applyOne_eq_run kept hselected]

theorem forget_ofNode (root : Node) : (Working.ofNode root).forget = root := by
  rw [Working.forget, Working.ofNode, Rose.map_map]
  exact Node.forget_placed root

/-- An alteration that removes nodes leaves a pruned tree. -/
theorem exists_prune_of_remove {alteration : Alteration} (removes : alteration.remove = true)
    (unit : String) (nextId : Int) (root : Node) :
    (applyOne unit nextId root alteration).root.forget = root ∨
      ∃ drops, (applyOne unit nextId root alteration).root.forget =
        Placed.forget (root.placed.prune drops) := by
  unfold applyOne
  dsimp only
  rw [if_pos removes]
  split
  · exact .inl (forget_ofNode root)
  · exact .inr ⟨_, forget_ofNode _⟩

/-! ### The plan after some steps -/

/-- The remakes that some actions can come to, one after the other and with fresh ids for what they
bring. -/
def ComesTo (bound : Int) : List Action → Remake → Prop
  | [], remake => remake = {}
  | action :: actions, remake =>
    ∃ (state : State) (now : Working) (rest : Remake), bound ≤ state.nextId ∧
      ComesTo bound actions rest ∧ remake = (action.remake state now).andThen rest

/-- What has been done at a place. -/
def actionsAt (place : Nat) (done : List Step) : List Action :=
  (done.filter fun step => step.node.place == place).map Step.action

/-- A plan that carries out the tree of a state, and says of each place what was done there. -/
structure Reached (root : Placed) (bound : Int) (done : List Step) (state : State)
    (plan : Plan) : Prop where
  root_eq : state.root = plan.carryOut root
  bound_le : bound ≤ state.nextId
  comesTo : ∀ place, ComesTo bound (actionsAt place done) (plan place)

section Reached

variable {root : Placed} {bound : Int} {actions : List Action} {remake : Remake}
  {done : List Step} {state : State} {plan : Plan}

theorem Remake.idle_andThen (remake : Remake) : ({} : Remake).andThen remake = remake := by
  simp [Remake.andThen]

theorem Remake.andThen_idle (remake : Remake) : remake.andThen {} = remake := by
  simp [Remake.andThen]

@[elab_as_elim]
theorem ComesTo.induction_on
    {motive : (actions : List Action) → (remake : Remake) → ComesTo bound actions remake → Prop}
    (h : ComesTo bound actions remake) (nil : motive [] {} rfl)
    (cons : ∀ (action : Action) (actions : List Action) (state : State) (now : Working)
      (rest : Remake) (hstate : bound ≤ state.nextId) (hrest : ComesTo bound actions rest),
      motive actions rest hrest →
        motive (action :: actions) ((action.remake state now).andThen rest)
          ⟨state, now, rest, hstate, hrest, rfl⟩) :
    motive actions remake h := by
  induction actions generalizing remake with
  | nil =>
      obtain rfl : remake = {} := h
      exact nil
  | cons action actions ih =>
      obtain ⟨state, now, rest, hstate, hrest, rfl⟩ := h
      exact cons action actions state now rest hstate hrest (ih hrest)

theorem ComesTo.snoc (h : ComesTo bound actions remake) (action : Action)
    (now : Working) (hstate : bound ≤ state.nextId) :
    ComesTo bound (actions ++ [action]) (remake.andThen (action.remake state now)) := by
  induction h using ComesTo.induction_on with
  | nil =>
      rw [Remake.idle_andThen]
      exact ⟨state, now, {}, hstate, rfl, (Remake.andThen_idle _).symm⟩
  | cons first actions before seen rest hbefore _ ih =>
      exact ⟨before, seen, _, hbefore, ih, Remake.andThen_assoc _ _ _⟩

theorem ComesTo.id_change (h : ComesTo bound actions remake) (beat : Beat) :
    (remake.change beat).id = beat.id := by
  induction h using ComesTo.induction_on generalizing beat with
  | nil => rfl
  | cons action actions state now rest _ _ ih =>
      exact (ih _).trans (action.id_change_remake state now beat)

theorem ComesTo.drops (h : ComesTo bound actions remake) :
    remake.drops = actions.any Action.drops := by
  induction h using ComesTo.induction_on with
  | nil => rfl
  | cons action actions state now rest _ _ ih =>
      rw [Remake.andThen, ih, Action.drops_remake, List.any_cons]

theorem ComesTo.le_id (h : ComesTo bound actions remake) {added : Node}
    (hadded : added ∈ remake.added) {id : Int} (hid : id ∈ added.ids) : bound ≤ id := by
  induction h using ComesTo.induction_on with
  | nil => cases hadded
  | cons action actions state now rest hstate _ ih =>
      rcases List.mem_append.1 hadded with hfirst | hlater
      · split at hfirst
        · cases hfirst
        · exact Int.le_trans hstate (Action.le_id_of_mem_added hfirst hid)
      · exact ih hlater

theorem Reached.keepsIds (h : Reached root bound done state plan) : plan.KeepsIds :=
  fun place beat => (h.comesTo place).id_change beat

theorem reached_start (nextId : Int) (root : Node) :
    Reached root.placed nextId [] (start nextId root) Plan.untouched where
  root_eq := (Plan.carryOut_untouched root).symm
  bound_le := Int.le_refl _
  comesTo _ := rfl

theorem Reached.step (distinct : (Placed.places root).Nodup)
    (h : Reached root bound done state plan) (step : Step) (unit : String) :
    Reached root bound (done ++ [step]) (step.run unit state)
      (plan.revise step.node.place (step.remake state)) where
  root_eq := by
    have current := current_currently distinct plan step.node
    rw [← h.root_eq] at current
    exact step.action.root_perform distinct h.root_eq current unit
  bound_le := Int.le_trans h.bound_le (step.action.nextId_le_perform unit state _)
  comesTo place := by
    unfold actionsAt
    rw [List.filter_append, List.map_append]
    by_cases hplace : step.node.place = place
    · have hself : (step.node.place == place) = true := beq_iff_eq.2 hplace
      rw [List.filter_singleton, hself, ← hplace, Plan.revise_self]
      exact (h.comesTo _).snoc step.action _ h.bound_le
    · have hother : (step.node.place == place) = false := beq_eq_false_iff_ne.2 hplace
      rw [List.filter_singleton, hother, Plan.revise_of_ne (Ne.symm hplace)]
      simpa [actionsAt] using h.comesTo place

/-- What every step keeps while it revises the plan is kept by a run. -/
theorem exists_run_of_step {unit : String} {motive : List Step → State → Plan → Prop}
    (hstep : ∀ done state plan step, motive done state plan →
      motive (done ++ [step]) (step.run unit state)
        (plan.revise step.node.place (step.remake state)))
    (h : motive done state plan) (steps : List Step) :
    ∃ later, motive (done ++ steps) (run unit steps state) later := by
  induction steps generalizing done state plan with
  | nil =>
      rw [List.append_nil]
      exact ⟨plan, h⟩
  | cons step steps ih =>
      rw [← List.singleton_append, ← List.append_assoc]
      exact ih (hstep done state plan step h)

theorem Reached.exists_run (distinct : (Placed.places root).Nodup)
    (h : Reached root bound done state plan) (steps : List Step) (unit : String) :
    ∃ later, Reached root bound (done ++ steps) (run unit steps state) later :=
  exists_run_of_step (motive := Reached root bound)
    (fun _ _ _ step hdone => hdone.step distinct step unit) h steps

end Reached

/-! ### The plan that an alteration leaves -/

section Carried

variable {place : Nat} {actions : List Action} {nodes : List Placed}

theorem actionsAt_append (place : Nat) (first second : List Step) :
    actionsAt place (first ++ second) = actionsAt place first ++ actionsAt place second := by
  rw [actionsAt, List.filter_append, List.map_append]
  rfl

theorem actionsAt_stepsOf_cons (place : Nat) (action : Action) (actions : List Action)
    (nodes : List Placed) :
    actionsAt place (stepsOf (action :: actions) nodes) =
      ((nodes.filter fun node => node.place == place).map fun _ => action) ++
        actionsAt place (stepsOf actions nodes) := by
  rw [stepsOf, List.flatMap_cons, actionsAt_append, actionsAt, List.filter_map, List.map_map]
  rfl

theorem actionsAt_stepsOf_of_notMem (h : ∀ node ∈ nodes, Placed.place node ≠ place) :
    actionsAt place (stepsOf actions nodes) = [] := by
  induction actions with
  | nil => rfl
  | cons action actions ih =>
      have hnone : (nodes.filter fun node => Placed.place node == place) = [] :=
        List.filter_eq_nil_iff.2 fun node hnode => by simpa using h node hnode
      rw [actionsAt_stepsOf_cons, hnone, ih]
      rfl

theorem actionsAt_stepsOf_of_mem (distinct : (nodes.map Placed.place).Nodup) {node : Placed}
    (h : node ∈ nodes) : actionsAt node.place (stepsOf actions nodes) = actions := by
  have hone : (nodes.filter fun other => Placed.place other == node.place).length = 1 := by
    have hcount := List.count_eq_one_of_mem distinct (List.mem_map_of_mem (f := Placed.place) h)
    rw [List.count, List.countP_map] at hcount
    rw [← List.countP_eq_length_filter]
    exact hcount
  obtain ⟨only, honly⟩ := List.length_eq_one_iff.1 hone
  induction actions with
  | nil => rfl
  | cons action actions ih =>
      rw [actionsAt_stepsOf_cons, honly, ih]
      rfl

/-- The plan comes at each selected node to what the actions come to, and is idle elsewhere. -/
structure Carried (alteration : Alteration) (bound : Int) (root : Placed) (plan : Plan) :
    Prop where
  chosen : ∀ node ∈ alteration.selected root,
    ComesTo bound alteration.actions (plan (Placed.place node))
  others : ∀ place, (∀ node ∈ alteration.selected root, Placed.place node ≠ place) →
    plan place = {}

theorem nodup_places_selected (alteration : Alteration) (root : Node) :
    ((alteration.selected root.placed).map Placed.place).Nodup :=
  (Placed.nodup_places_placed root).sublist (List.filter_sublist.map _)

theorem Reached.carried {alteration : Alteration} {bound : Int} {root : Node} {state : State}
    {plan : Plan} (h : Reached root.placed bound
      (stepsOf alteration.actions (alteration.selected root.placed)) state plan) :
    Carried alteration bound root.placed plan where
  chosen node hnode := by
    have hcomes := h.comesTo node.place
    rwa [actionsAt_stepsOf_of_mem (nodup_places_selected alteration root) hnode] at hcomes
  others place hplace := by
    have hcomes := h.comesTo place
    rwa [actionsAt_stepsOf_of_notMem hplace] at hcomes

/-- What an alteration leaves is what some plan makes of the tree. -/
theorem exists_carried {alteration : Alteration} (kept : alteration.remove = false)
    (unit : String) (nextId : Int) (root : Node) :
    ∃ plan, Carried alteration nextId root.placed plan ∧
      (applyOne unit nextId root alteration).root.forget = plan.made root.placed := by
  obtain ⟨plan, hplan⟩ := (reached_start nextId root).exists_run (Placed.nodup_places_placed root)
    (stepsOf alteration.actions (alteration.selected root.placed)) unit
  refine ⟨plan, hplan.carried, ?_⟩
  rw [root_applyOne kept, hplan.root_eq]
  rfl

end Carried

end Edit

namespace Alteration

open Edit

def drops (alteration : Alteration) : Bool := alteration.actions.any Action.drops

/-- The node is not below a selected node that loses its children. -/
def Spares (alteration : Alteration) (root node : Placed) : Prop :=
  alteration.drops = true → ∀ upper ∈ alteration.selected root,
    node ∉ Rose.walkForest (Rose.children upper)

end Alteration

namespace Edit

section Carried

variable {alteration : Alteration} {bound : Int} {root : Node} {plan : Plan} {node : Placed}

theorem Carried.idle_of_notMem (h : Carried alteration bound root.placed plan)
    (hnode : node ∈ root.placed.walk) (hother : node ∉ alteration.selected root.placed) :
    plan node.place = {} := by
  refine h.others node.place fun other hmem hplace => hother ?_
  rwa [← Placed.eq_of_place_eq (Placed.nodup_places_placed root) (List.mem_of_mem_filter hmem)
    hnode hplace]

theorem Carried.exists_comesTo (h : Carried alteration bound root.placed plan) (place : Nat) :
    ∃ actions, ComesTo bound actions (plan place) := by
  by_cases hplace : ∃ node ∈ alteration.selected root.placed, Placed.place node = place
  · obtain ⟨node, hnode, rfl⟩ := hplace
    exact ⟨_, h.chosen node hnode⟩
  · refine ⟨[], h.others place fun node hnode hsame => hplace ⟨node, hnode, hsame⟩⟩

theorem Carried.keepsIds (h : Carried alteration bound root.placed plan) : plan.KeepsIds := by
  intro place beat
  obtain ⟨actions, hcomes⟩ := h.exists_comesTo place
  exact hcomes.id_change beat

theorem Carried.le_id (h : Carried alteration bound root.placed plan) {place : Nat} {added : Node}
    (hadded : added ∈ (plan place).added) {id : Int} (hid : id ∈ added.ids) : bound ≤ id := by
  obtain ⟨actions, hcomes⟩ := h.exists_comesTo place
  exact hcomes.le_id hadded hid

theorem Carried.drops_iff (h : Carried alteration bound root.placed plan)
    (hnode : node ∈ root.placed.walk) :
    (plan node.place).drops = true ↔
      alteration.drops = true ∧ node ∈ alteration.selected root.placed := by
  by_cases hselected : node ∈ alteration.selected root.placed
  · rw [(h.chosen node hselected).drops, Alteration.drops]
    simp [hselected]
  · rw [h.idle_of_notMem hnode hselected]
    simp [hselected]

theorem Carried.shows_iff (h : Carried alteration bound root.placed plan) :
    plan.Shows root.placed node ↔
      node ∈ root.placed.walk ∧ alteration.Spares root.placed node := by
  constructor
  · intro hshows
    refine ⟨hshows.mem, fun hdrops upper hupper => ?_⟩
    have hmem : upper ∈ root.placed.walk := List.mem_of_mem_filter hupper
    exact hshows.uncovered upper hmem ((h.drops_iff hmem).2 ⟨hdrops, hupper⟩)
  · rintro ⟨hmem, hspares⟩
    refine ⟨hmem, fun upper hupper hcovers => ?_⟩
    obtain ⟨hdrops, hselected⟩ := (h.drops_iff hupper).1 hcovers
    exact hspares hdrops upper hselected

end Carried

end Edit

end StoryAtlas
