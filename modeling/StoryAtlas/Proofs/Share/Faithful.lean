import StoryAtlas.Proofs.Share.Sweep
import StoryAtlas.Proofs.Share.Unfold

/-!
# Sharing is faithful

What sharing leaves of a tree are nodes as they were, and nodes that gave their children for a
reference to a node that is left. References that the tree had before are followed by a reader just
like these, so with them a tree may tell without end, and all that can be said is that it tells the
same at any depth. If no reference of the tree is one that a reader follows, the tree is finite, and
putting the children of their targets in the place of the new references gives the tree back.
-/

namespace StoryAtlas.Share

/-- What a node of the tree after sharing was before. -/
inductive Kept (root after node : Node) : Prop
  | same (old : Node) (old_mem : old ∈ root.walk) (value : node.value = old.value)
      (children : node.children.map Node.id = old.children.map Node.id)
  | shared (old keeper : Node) (old_mem : old ∈ root.walk) (keeper_mem : keeper ∈ after.walk)
      (ref : old.value.ref = none) (parent : old.children ≠ [])
      (echoes : old.value.Echoes keeper.value) (refers : node = refer keeper.id old)

theorem kept_self {root node : Node} (h : node ∈ root.walk) : Kept root root node :=
  .same node h rfl rfl

section Step

variable {root between node keeper other : Node}

theorem kept_shareAt (distinct : between.ids.Nodup) (h : Shares between node keeper)
    (hother : Survives between node other) (hkept : Kept root between other) :
    Kept root (shareAt node.id keeper.id between) (shareAt node.id keeper.id other) := by
  have stays : ∀ {found}, Survives between node found →
      shareAt node.id keeper.id found ∈ (shareAt node.id keeper.id between).walk :=
    fun hfound => (mem_walk_shareAt distinct h).2 ⟨_, hfound, rfl⟩
  by_cases hsame : other = node
  · rw [hsame] at hkept ⊢
    cases hkept with
    | same old old_mem value children =>
        refine .shared old (shareAt node.id keeper.id keeper) old_mem (stays (survives_keeper h))
          ?_ ?_ ?_ ?_
        · rw [← value]
          exact h.ref
        · intro hnone
          rw [hnone, List.map_nil, List.map_eq_nil_iff] at children
          exact h.parent children
        · rw [echoes_shareAt, ← value]
          exact h.echoes
        · rw [shareAt_of_eq rfl, id_shareAt, refer, refer, value]
    | shared old target old_mem target_mem ref parent echoes refers =>
        exact absurd (by rw [refers, refer, Rose.children_node]) h.parent
  · have hid := id_ne_of_ne distinct h hother.1 hsame
    cases hkept with
    | same old old_mem value children =>
        refine .same old old_mem ((value_shareAt hid).trans value) ?_
        rw [children_shareAt hid, List.map_map, ← children]
        exact List.map_congr_left fun child _ => id_shareAt _ _ child
    | shared old target old_mem target_mem ref parent echoes refers =>
        have href : other.value.ref = some target.id := by
          rw [refers]
          rfl
        refine .shared old (shareAt node.id keeper.id target) old_mem
          (stays (survives_of_ref h hother hsame target_mem href)) ref parent ?_ ?_
        · rw [echoes_shareAt]
          exact echoes
        · rw [shareAt_of_ne hid, id_shareAt, refers]
          rfl

theorem kept_steps {root after : Node} (distinct : root.ids.Nodup) (h : Steps root after) :
    ∀ node ∈ after.walk, Kept root after node := by
  induction h with
  | refl => exact fun node hnode => kept_self hnode
  | tail hsteps hstep ih =>
      have hdistinct := (ids_steps_subset distinct hsteps).1
      cases hstep with
      | share hshares =>
          intro node hnode
          obtain ⟨other, hother, rfl⟩ := (mem_walk_shareAt hdistinct hshares).1 hnode
          exact kept_shareAt hdistinct hshares hother (ih other hother.1)

end Step

theorem id_steps {root after : Node} (h : Steps root after) : after.id = root.id := by
  induction h with
  | refl => rfl
  | tail _ hstep ih =>
      cases hstep with
      | share hshares => rw [id_shareAt, ih]

/-! ### Giving the children back -/

/-- The target of a reference that sharing made: the node had none before. -/
def made? (root after node : Node) : Option Node :=
  if root.walk.any fun old => Node.id old == node.id && (Rose.value old).ref.isNone then
    node.value.ref.bind fun target => after.walk.find? fun other => Node.id other == target
  else none

section Made

variable {root after node : Node} (distinct : root.ids.Nodup) (hdistinct : after.ids.Nodup)

theorem Kept.exists_origin (h : Kept root after node) :
    ∃ old ∈ root.walk, Node.id old = node.id ∧
      ∀ beat : Beat, beat.Echoes node.value → beat.Echoes (Rose.value old) := by
  cases h with
  | same old old_mem value children =>
      refine ⟨old, old_mem, (congrArg Beat.id value).symm, fun beat hechoes => ?_⟩
      rwa [← value]
  | shared old keeper old_mem keeper_mem ref parent echoes refers =>
      refine ⟨old, old_mem, ?_, fun beat hechoes => ?_⟩
      · rw [refers]
        rfl
      · rw [refers] at hechoes
        exact ⟨hechoes.kind, hechoes.text, hechoes.label⟩

include hdistinct in
theorem find?_id {target : Node} (h : target ∈ after.walk) :
    (after.walk.find? fun other => Node.id other == target.id) = some target := by
  cases hfind : after.walk.find? fun other => Node.id other == target.id with
  | none => exact absurd (beq_self_eq_true _) (List.find?_eq_none.1 hfind target h)
  | some found =>
      have hid := List.find?_some hfind
      rw [Node.eq_of_id_eq hdistinct (List.mem_of_find?_eq_some hfind) h (beq_iff_eq.1 hid)]

include distinct in
/-- A reference that a node has kept was not made. -/
theorem made?_of_same {old : Node} (old_mem : old ∈ root.walk) (value : node.value = old.value) :
    made? root after node = none := by
  unfold made?
  split
  · next hany =>
    obtain ⟨other, hother, hboth⟩ := List.any_eq_true.1 hany
    obtain ⟨hid, hnone⟩ := Bool.and_eq_true_iff.1 hboth
    have hold : Node.id other = old.id := (beq_iff_eq.1 hid).trans (congrArg Beat.id value)
    rw [Node.eq_of_id_eq distinct hother old_mem hold, ← value, Option.isNone_iff_eq_none] at hnone
    rw [hnone, Option.bind_none]
  · rfl

include hdistinct in
theorem made?_refer {old keeper : Node} (old_mem : old ∈ root.walk) (keeper_mem : keeper ∈ after.walk)
    (ref : old.value.ref = none) : made? root after (refer keeper.id old) = some keeper := by
  have hany : (root.walk.any fun other =>
      Node.id other == Node.id (refer keeper.id old) && (Rose.value other).ref.isNone) = true := by
    refine List.any_eq_true.2 ⟨old, old_mem, ?_⟩
    rw [ref, Option.isNone_none, Bool.and_true]
    exact beq_self_eq_true _
  rw [made?, if_pos hany]
  exact find?_id hdistinct keeper_mem

include distinct hdistinct in
/-- If the tree had no references to follow, those made by sharing are the ones that are followed. -/
theorem made?_eq_followed? (hkept : ∀ node ∈ after.walk, Kept root after node)
    (plain : ∀ node ∈ root.walk, followed? root node = none) (hnode : node ∈ after.walk) :
    made? root after node = followed? after node := by
  cases hkept node hnode with
  | same old old_mem value children =>
      rw [made?_of_same distinct old_mem value]
      refine (Option.eq_none_iff_forall_ne_some.2 fun target hfollowed => ?_).symm
      obtain ⟨childless, mem, ref, echoes⟩ := (followed?_eq_some_iff hdistinct).1 hfollowed
      obtain ⟨origin, origin_mem, hid, hechoes⟩ := (hkept target mem).exists_origin
      have hfollows : Follows root old origin := by
        refine ⟨?_, origin_mem, ?_, ?_⟩
        · rw [childless, List.map_nil] at children
          exact List.map_eq_nil_iff.1 children.symm
        · rw [← value, hid]
          exact ref
        · rw [← value]
          exact hechoes _ echoes
      have hnone := plain old old_mem
      rw [(followed?_eq_some_iff distinct).2 hfollows] at hnone
      cases hnone
  | shared old keeper old_mem keeper_mem ref parent echoes refers =>
      rw [refers, made?_refer hdistinct old_mem keeper_mem ref]
      refine ((followed?_eq_some_iff hdistinct).2 ⟨rfl, keeper_mem, rfl, ?_⟩).symm
      exact ⟨echoes.kind, echoes.text, echoes.label⟩

end Made

/-- Unfolding only asks for the nodes of the tree where to go on. -/
theorem unfold_congr {after : Node} {next other : Node → Option Node}
    (hsame : ∀ node ∈ after.walk, next node = other node)
    (hclosed : ∀ node ∈ after.walk, ∀ target, other node = some target → target ∈ after.walk)
    {node : Node} (hnode : node ∈ after.walk) (fuel : ℕ) (depth : Option ℕ) :
    unfold next fuel depth node = unfold other fuel depth node := by
  induction fuel generalizing depth node with
  | zero => rfl
  | succ fuel ih =>
      have hnext := hsame node hnode
      by_cases hdepth : depth = some 0
      · subst hdepth
        rw [unfold_near, unfold_near, hnext]
      cases hother : other node with
      | some target =>
          rw [unfold_followed hdepth hother, unfold_followed hdepth (hnext.trans hother),
            ih (hclosed node hnode target hother)]
      | none =>
          rw [unfold_own hdepth hother, unfold_own hdepth (hnext.trans hother)]
          refine congrArg _ (mapM_congr (List.forall₂_same.2 fun child hchild => ?_))
          exact ih (Rose.mem_walk_trans (Rose.mem_walk_of_mem_children hchild) hnode) _

theorem unfolds_plain {root : Node} (plain : ∀ node ∈ root.walk, followed? root node = none)
    {node : Node} (hnode : node ∈ root.walk) :
    Unfolds (followed? root) none node (node.map Beat.content) := by
  induction node using Rose.induction_on with
  | node beat children ih =>
      rw [Rose.map, Rose.mapForest_eq_map]
      apply unfolds_own (by simp) (plain _ hnode)
      rw [List.forall₂_map_right_iff, Rose.children_node]
      apply List.forall₂_same.2
      intro child hchild
      have hwalk : child ∈ (Rose.node beat children).walk :=
        Rose.mem_walk.2 (.inr (Rose.children_subset_walkForest (.node beat children) hchild))
      exact ih child hchild (Rose.mem_walk_trans hwalk hnode)

/-- What is promised of sharing. -/
structure Faithful (root after : Node) (removed : ℕ) : Prop where
  size : after.size + removed = root.size
  id : after.id = root.id
  /-- Nodes are as they were or refer to a node that is left and agrees with them. -/
  kept : ∀ node ∈ after.walk, Kept root after node
  /-- Whoever follows references is told the same. -/
  tells : ∀ depth shown,
    Unfolds (followed? after) depth after shown ↔ Unfolds (followed? root) depth root shown
  /-- Without references to follow before, the children can be given back. -/
  restores : (∀ node ∈ root.walk, followed? root node = none) →
    Unfolds (made? root after) none after (root.map Beat.content)

theorem faithful_run {root : Node} (options : Options) (unit : String) (distinct : root.ids.Nodup) :
    Faithful root (run options unit root).1.root (run options unit root).1.removed := by
  obtain ⟨hsteps, hsize⟩ := steps_run options unit distinct
  have hdistinct := (ids_steps_subset distinct hsteps).1
  have hkept := kept_steps distinct hsteps
  have htells := unfolds_steps_iff distinct hsteps
  refine ⟨hsize, id_steps hsteps, hkept, htells, fun plain => ?_⟩
  have hfollowed := (htells none _).2 (unfolds_plain plain (Rose.self_mem_walk root))
  obtain ⟨fuel, hfuel⟩ := hfollowed
  refine ⟨fuel, ?_⟩
  rw [unfold_congr (fun node hnode => made?_eq_followed? distinct hdistinct hkept plain hnode)
    (fun node _ target hnext => ((followed?_eq_some_iff hdistinct).1 hnext).mem)
    (Rose.self_mem_walk _)]
  exact hfuel

/-! ### Two trees -/

def spoken (id : Int) (text : String) (children : List Node) : Node :=
  .node { id := id, kind := .dialogue, text := some text } children

def spokenRef (id : Int) (text : String) (target : Int) : Node :=
  .node { id := id, kind := .dialogue, text := some text, ref := some target } []

def shrines : Node :=
  spoken 0 "Crossroads." [
    spoken 1 "North." [spoken 2 "A shrine." [spoken 3 "Pray." [spoken 4 "Blessed." []]]],
    spoken 5 "South." [spoken 6 "A shrine." [spoken 7 "Pray." [spoken 8 "Blessed." []]]]]

theorem faithful_run_shrines : shrines.ids.Nodup ∧ (run {} "" shrines).1.removed = 2 ∧
    Faithful shrines (run {} "" shrines).1.root 2 ∧
    Unfolds (made? shrines (run {} "" shrines).1.root) none (run {} "" shrines).1.root
      (shrines.map Beat.content) := by
  have distinct : shrines.ids.Nodup := by decide
  have removed : (run {} "" shrines).1.removed = 2 := by decide +kernel
  have plain : ∀ node ∈ shrines.walk, followed? shrines node = none := by decide +kernel
  have hfaithful := faithful_run {} "" distinct
  refine ⟨distinct, removed, ?_, hfaithful.restores plain⟩
  rw [← removed]
  exact hfaithful

/-- A story that comes back to one place by two ways, with the references back that it has. -/
def circle : Node :=
  spoken 0 "Start." [
    spoken 1 "Hall." [spoken 3 "Stairs." [spoken 4 "Tower."
      [spoken 5 "Hall." [spoken 6 "Stairs." [spokenRef 7 "Tower." 8]]]]],
    spoken 2 "Gate." [spoken 8 "Tower."
      [spoken 9 "Hall." [spoken 10 "Stairs." [spokenRef 11 "Tower." 8]]]]]

/-- The first tower refers to the second, and the hall below that to the one above the first. -/
def circleShared : Node :=
  spoken 0 "Start." [
    spoken 1 "Hall." [spoken 3 "Stairs." [spokenRef 4 "Tower." 8]],
    spoken 2 "Gate." [spoken 8 "Tower." [spokenRef 9 "Hall." 1]]]

/-- A tree in which every node leads on unfolds without end. -/
theorem unfold_eq_none_of_endless {after : Node} {next : Node → Option Node}
    (hclosed : ∀ node ∈ after.walk, ∀ target, next node = some target → target ∈ after.walk)
    (hendless : ∀ node ∈ after.walk, next node = none → Rose.children node ≠ []) {node : Node}
    (hnode : node ∈ after.walk) (fuel : ℕ) : unfold next fuel none node = none := by
  induction fuel generalizing node with
  | zero => rfl
  | succ fuel ih =>
      cases hnext : next node with
      | some target =>
          rw [unfold_followed (by simp) hnext, ih (hclosed node hnode target hnext)]
          rfl
      | none =>
          obtain ⟨child, hchild⟩ := List.exists_mem_of_ne_nil _ (hendless node hnode hnext)
          have hwalk := Rose.mem_walk_trans (Rose.mem_walk_of_mem_children hchild) hnode
          rw [unfold_own (by simp) hnext]
          exact congrArg _ (mapM_eq_none_of_mem hchild (ih hwalk))

theorem circle_not_restored : circle.ids.Nodup ∧ ∀ shown,
    ¬Unfolds (made? circle (run {} "" circle).1.root) none (run {} "" circle).1.root shown := by
  have hroot : (run {} "" circle).1.root = circleShared := rfl
  have hclosed : ∀ node ∈ circleShared.walk, ∀ target,
      made? circle circleShared node = some target → target ∈ circleShared.walk := by
    intro node _ target hmade
    unfold made? at hmade
    split at hmade
    · obtain ⟨id, -, hfound⟩ := Option.bind_eq_some_iff.1 hmade
      exact List.mem_of_find?_eq_some hfound
    · cases hmade
  have hendless : ∀ node ∈ circleShared.walk, made? circle circleShared node = none →
      Rose.children node ≠ [] := by
    decide +kernel
  refine ⟨by decide, fun shown hshown => ?_⟩
  obtain ⟨fuel, hfuel⟩ := hshown
  rw [hroot, unfold_eq_none_of_endless hclosed hendless (Rose.self_mem_walk _)] at hfuel
  cases hfuel

end StoryAtlas.Share
