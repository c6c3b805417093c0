import StoryAtlas.Proofs.Share.Step

/-!
# What a tree tells

A reader of a tree who comes to a node without children that refers to a node that agrees with it
goes on there. So a tree tells more than it has nodes, and where references lead around in a circle
it tells without end. Unfolding a tree puts the children where a reader finds them; it is bounded by
a depth, or by nothing, and it has come to an end if so many steps sufficed.

A step of sharing changes nothing in what a tree tells, at any depth. The node that is shared tells
what its keeper tells, because the forests below them are twins: they say the same, down to their
references.
-/

namespace StoryAtlas

instance (beat other : Beat) : Decidable (beat.Echoes other) :=
  decidable_of_iff (beat.kind = other.kind ∧ beat.text = other.text ∧ beat.label = other.label)
    ⟨fun h => ⟨h.1, h.2.1, h.2.2⟩, fun h => ⟨h.kind, h.text, h.label⟩⟩

namespace Share

/-- The beat refers to the node and agrees with it. -/
def seeks (beat : Beat) (target : Node) : Bool :=
  beat.ref == some target.id && decide (beat.Echoes target.value)

/-- The node where a reader goes on: the one that a node without children refers to, if it agrees. -/
def followed? (root node : Node) : Option Node :=
  if node.children.isEmpty then root.walk.find? (seeks node.value) else none

/-- What a beat tells, apart from its id; a reference that is followed is not told. -/
def told (followed : Bool) (beat : Beat) : Beat :=
  if followed then { beat.content with ref := none } else beat.content

/-- The tree that a reader sees from a node on, down to a depth, if so many steps suffice. -/
def unfold (next : Node → Option Node) : ℕ → Option ℕ → Node → Option Node
  | 0, _, _ => none
  | _ + 1, some 0, node => some (.node (told (next node).isSome node.value) [])
  | fuel + 1, depth, node =>
    match next node with
    | some target =>
      (unfold next fuel depth target).map fun shown => .node (told true node.value) shown.children
    | none =>
      (node.children.mapM (unfold next fuel (depth.map (· - 1)))).map
        (.node (told false node.value))

/-- Unfolding from the node down to the depth comes to an end with this tree. -/
def Unfolds (next : Node → Option Node) (depth : Option ℕ) (node shown : Node) : Prop :=
  ∃ fuel, unfold next fuel depth node = some shown

/-! ### Unfolding level by level -/

theorem mapM_eq_some_iff {α β : Type} {f : α → Option β} {xs : List α} {ys : List β} :
    xs.mapM f = some ys ↔ List.Forall₂ (fun x y => f x = some y) xs ys := by
  induction xs generalizing ys with
  | nil => simp [eq_comm]
  | cons x xs ih =>
      rw [List.mapM_cons, List.forall₂_cons_left_iff]
      constructor
      · intro h
        obtain ⟨y, hy, h⟩ := Option.bind_eq_some_iff.1 h
        obtain ⟨rest, hrest, h⟩ := Option.bind_eq_some_iff.1 h
        exact ⟨y, rest, hy, ih.1 hrest, (Option.some.inj h).symm⟩
      · rintro ⟨y, rest, hy, hrest, rfl⟩
        rw [hy, ih.2 hrest]
        rfl

theorem mapM_congr {α β : Type} {f g : α → Option β} {xs ys : List α}
    (h : List.Forall₂ (fun x y => f x = g y) xs ys) : xs.mapM f = ys.mapM g := by
  induction h with
  | nil => rfl
  | cons hfirst _ ih => rw [List.mapM_cons, List.mapM_cons, hfirst, ih]

theorem mapM_eq_none_of_mem {α β : Type} {f : α → Option β} {x : α} {xs : List α} (hx : x ∈ xs)
    (h : f x = none) : xs.mapM f = none := by
  induction xs with
  | nil => cases hx
  | cons y ys ih =>
      rw [List.mapM_cons]
      rcases List.mem_cons.1 hx with rfl | hx
      · rw [h]
        rfl
      · rw [ih hx]
        cases f y <;> rfl

section Unfold

variable {next : Node → Option Node} {fuel : ℕ} {depth : Option ℕ} {node target shown : Node}

theorem unfold_near : unfold next (fuel + 1) (some 0) node =
    some (.node (told (next node).isSome node.value) []) := rfl

theorem unfold_followed (hdepth : depth ≠ some 0) (h : next node = some target) :
    unfold next (fuel + 1) depth node =
      (unfold next fuel depth target).map fun shown =>
        .node (told true node.value) shown.children := by
  rw [unfold.eq_3 _ _ _ _ hdepth, h]

theorem unfold_own (hdepth : depth ≠ some 0) (h : next node = none) :
    unfold next (fuel + 1) depth node =
      (node.children.mapM (unfold next fuel (depth.map (· - 1)))).map
        (.node (told false node.value)) := by
  rw [unfold.eq_3 _ _ _ _ hdepth, h]

theorem unfold_succ (h : unfold next fuel depth node = some shown) :
    unfold next (fuel + 1) depth node = some shown := by
  induction fuel generalizing depth node shown with
  | zero => cases h
  | succ fuel ih =>
      by_cases hdepth : depth = some 0
      · subst hdepth
        exact h
      cases hnext : next node with
      | some target =>
          rw [unfold_followed hdepth hnext] at h ⊢
          obtain ⟨inner, hinner, rfl⟩ := Option.map_eq_some_iff.1 h
          rw [ih hinner]
          rfl
      | none =>
          rw [unfold_own hdepth hnext] at h ⊢
          obtain ⟨inner, hinner, rfl⟩ := Option.map_eq_some_iff.1 h
          have hmore := mapM_eq_some_iff.2 ((mapM_eq_some_iff.1 hinner).imp fun _ _ => ih)
          rw [hmore]
          rfl

theorem unfold_mono {more : ℕ} (hle : fuel ≤ more) (h : unfold next fuel depth node = some shown) :
    unfold next more depth node = some shown := by
  induction hle with
  | refl => exact h
  | step _ ih => exact unfold_succ ih

theorem exists_mapM_unfold {nodes shown : List Node}
    (h : List.Forall₂ (Unfolds next depth) nodes shown) :
    ∃ fuel, nodes.mapM (unfold next fuel depth) = some shown := by
  induction h with
  | nil => exact ⟨0, rfl⟩
  | cons hfirst _ ih =>
      obtain ⟨first, hfirst⟩ := hfirst
      obtain ⟨rest, hrest⟩ := ih
      refine ⟨max first rest, mapM_eq_some_iff.2 (.cons ?_ ?_)⟩
      · exact unfold_mono (Nat.le_max_left ..) hfirst
      · apply (mapM_eq_some_iff.1 hrest).imp
        intro _ _ hinner
        exact unfold_mono (Nat.le_max_right ..) hinner

theorem unfolds_near (next : Node → Option Node) (node : Node) :
    Unfolds next (some 0) node (.node (told (next node).isSome node.value) []) :=
  ⟨1, rfl⟩

theorem unfolds_followed (hdepth : depth ≠ some 0) (h : next node = some target)
    (hshown : Unfolds next depth target shown) :
    Unfolds next depth node (.node (told true node.value) shown.children) := by
  obtain ⟨fuel, hshown⟩ := hshown
  refine ⟨fuel + 1, ?_⟩
  rw [unfold_followed hdepth h, hshown]
  rfl

theorem unfolds_own {children : List Node} (hdepth : depth ≠ some 0) (h : next node = none)
    (hchildren : List.Forall₂ (Unfolds next (depth.map (· - 1))) node.children children) :
    Unfolds next depth node (.node (told false node.value) children) := by
  obtain ⟨fuel, hfuel⟩ := exists_mapM_unfold hchildren
  refine ⟨fuel + 1, ?_⟩
  rw [unfold_own hdepth h, hfuel]
  rfl

theorem exists_of_unfolds_own (hdepth : depth ≠ some 0) (h : next node = none)
    (hshown : Unfolds next depth node shown) :
    ∃ children, shown = .node (told false node.value) children ∧
      List.Forall₂ (Unfolds next (depth.map (· - 1))) node.children children := by
  obtain ⟨fuel, hfuel⟩ := hshown
  cases fuel with
  | zero => cases hfuel
  | succ fuel =>
      rw [unfold_own hdepth h] at hfuel
      obtain ⟨children, hchildren, rfl⟩ := Option.map_eq_some_iff.1 hfuel
      exact ⟨children, rfl, (mapM_eq_some_iff.1 hchildren).imp fun _ _ hchild => ⟨fuel, hchild⟩⟩

end Unfold

/-! ### What a reader follows -/

/-- A reader goes on from the node at the target. -/
structure Follows (root node target : Node) : Prop where
  childless : node.children = []
  mem : target ∈ root.walk
  ref : node.value.ref = some target.id
  echoes : node.value.Echoes target.value

section Follows

variable {root node target : Node}

theorem seeks_iff {beat : Beat} :
    seeks beat target = true ↔ beat.ref = some target.id ∧ beat.Echoes target.value := by
  rw [seeks, Bool.and_eq_true, beq_iff_eq, decide_eq_true_iff]

theorem followed?_eq_some_iff (distinct : root.ids.Nodup) :
    followed? root node = some target ↔ Follows root node target := by
  unfold followed?
  constructor
  · intro h
    split at h
    · next hchildren =>
      obtain ⟨href, hechoes⟩ := seeks_iff.1 (List.find?_some h)
      exact ⟨List.isEmpty_iff.1 hchildren, List.mem_of_find?_eq_some h, href, hechoes⟩
    · cases h
  · rintro ⟨hchildren, hmem, href, hechoes⟩
    rw [if_pos (List.isEmpty_iff.2 hchildren)]
    cases hfind : root.walk.find? (seeks node.value) with
    | none => exact absurd (seeks_iff.2 ⟨href, hechoes⟩) (List.find?_eq_none.1 hfind target hmem)
    | some found =>
        obtain ⟨hfound, -⟩ := seeks_iff.1 (List.find?_some hfind)
        have hid : Node.id found = target.id := Option.some.inj (hfound.symm.trans href)
        rw [Node.eq_of_id_eq distinct (List.mem_of_find?_eq_some hfind) hmem hid]

theorem followed?_of_children (root : Node) (h : node.children ≠ []) :
    followed? root node = none :=
  if_neg fun hempty => h (List.isEmpty_iff.1 hempty)

end Follows

/-! ### Twins -/

/-- The trees are the same but for the ids. -/
def Twins (first second : Node) : Prop := first.map Beat.content = second.map Beat.content

section Twins

variable {root first second : Node}

theorem twins_node {beat other : Beat} {children others : List Node} :
    Twins (.node beat children) (.node other others) ↔ beat.content = other.content ∧
      children.map (Rose.map Beat.content) = others.map (Rose.map Beat.content) := by
  rw [Twins, Rose.map, Rose.map, Rose.mapForest_eq_map, Rose.mapForest_eq_map, Rose.node.injEq]

theorem forall₂_twins {nodes others : List Node}
    (h : nodes.map (Rose.map Beat.content) = others.map (Rose.map Beat.content)) :
    List.Forall₂ Twins nodes others := by
  rw [← List.forall₂_eq_eq_eq, List.forall₂_map_left_iff, List.forall₂_map_right_iff] at h
  exact h

theorem seeks_of_content_eq {beat other : Beat} (h : beat.content = other.content) :
    seeks beat = seeks other := by
  obtain ⟨-, hkind, htext, hlabel, -, -, -, href, -⟩ := Beat.mk.inj h
  funext target
  have hechoes : beat.Echoes target.value ↔ other.Echoes target.value := by
    constructor
    · rintro ⟨hk, ht, hl⟩
      exact ⟨hkind ▸ hk, htext ▸ ht, hlabel ▸ hl⟩
    · rintro ⟨hk, ht, hl⟩
      exact ⟨hkind ▸ hk, htext ▸ ht, hlabel ▸ hl⟩
  rw [seeks, seeks, href, decide_eq_decide.2 hechoes]

theorem followed?_of_twins (h : Twins first second) :
    followed? root first = followed? root second := by
  obtain ⟨beat, children⟩ := first
  obtain ⟨other, others⟩ := second
  obtain ⟨hbeat, hchildren⟩ := twins_node.1 h
  have hempty := congrArg List.isEmpty hchildren
  rw [List.isEmpty_map, List.isEmpty_map] at hempty
  rw [followed?, followed?, Rose.children_node, Rose.children_node, Rose.value_node,
    Rose.value_node, hempty, seeks_of_content_eq hbeat]

theorem unfold_of_twins (fuel : ℕ) (depth : Option ℕ) (h : Twins first second) :
    unfold (followed? root) fuel depth first = unfold (followed? root) fuel depth second := by
  induction fuel generalizing depth first second with
  | zero => rfl
  | succ fuel ih =>
      have hnext : followed? root first = followed? root second := followed?_of_twins h
      obtain ⟨beat, children⟩ := first
      obtain ⟨other, others⟩ := second
      obtain ⟨hbeat, hchildren⟩ := twins_node.1 h
      have htold : ∀ followed, told followed beat = told followed other := by
        intro followed
        rw [told, told, hbeat]
      by_cases hdepth : depth = some 0
      · subst hdepth
        rw [unfold_near, unfold_near, hnext, Rose.value_node, Rose.value_node, htold]
      cases hsecond : followed? root (.node other others) with
      | some target =>
          rw [unfold_followed hdepth hsecond, unfold_followed hdepth (hnext.trans hsecond),
            Rose.value_node, Rose.value_node, htold]
      | none =>
          rw [unfold_own hdepth hsecond, unfold_own hdepth (hnext.trans hsecond),
            Rose.value_node, Rose.value_node, htold, Rose.children_node, Rose.children_node,
            mapM_congr ((forall₂_twins hchildren).imp fun _ _ => ih _)]

end Twins

/-! ### A step changes nothing in what is told -/

section Shares

variable {root node keeper other : Node} (distinct : root.ids.Nodup) (h : Shares root node keeper)

include distinct h in
theorem distinct_shareAt : (shareAt node.id keeper.id root).ids.Nodup :=
  (ids_step_subset distinct (.share h)).1

include distinct h in
theorem followed?_shareAt_node :
    followed? (shareAt node.id keeper.id root) (shareAt node.id keeper.id node) =
      some (shareAt node.id keeper.id keeper) := by
  rw [followed?_eq_some_iff (distinct_shareAt distinct h), shareAt_of_eq rfl]
  refine ⟨rfl, ?_, ?_, ?_⟩
  · exact (mem_walk_shareAt distinct h).2 ⟨keeper, survives_keeper h, rfl⟩
  · rw [id_shareAt]
    rfl
  · rw [echoes_shareAt]
    exact ⟨h.echoes.kind, h.echoes.text, h.echoes.label⟩

include distinct h in
theorem followed?_shareAt (hother : Survives root node other) (hne : other ≠ node) :
    followed? (shareAt node.id keeper.id root) (shareAt node.id keeper.id other) =
      (followed? root other).map (shareAt node.id keeper.id) := by
  have hid := id_ne_of_ne distinct h hother.1 hne
  cases hfollowed : followed? root other with
  | some target =>
      obtain ⟨hchildren, hmem, href, hechoes⟩ := (followed?_eq_some_iff distinct).1 hfollowed
      rw [Option.map_some, followed?_eq_some_iff (distinct_shareAt distinct h), shareAt_of_ne hid]
      refine ⟨?_, ?_, ?_, ?_⟩
      · rw [Rose.children_node, hchildren, List.map_nil]
      · have htarget := survives_of_ref h hother hne hmem href
        exact (mem_walk_shareAt distinct h).2 ⟨target, htarget, rfl⟩
      · rw [id_shareAt]
        exact href
      · rw [echoes_shareAt]
        exact hechoes
  | none =>
      rw [Option.map_none, Option.eq_none_iff_forall_ne_some]
      intro after hafter
      obtain ⟨hchildren, hmem, href, hechoes⟩ :=
        (followed?_eq_some_iff (distinct_shareAt distinct h)).1 hafter
      obtain ⟨target, htarget, rfl⟩ := (mem_walk_shareAt distinct h).1 hmem
      rw [shareAt_of_ne hid] at hchildren href hechoes
      rw [id_shareAt] at href
      rw [echoes_shareAt] at hechoes
      have hfollows : Follows root other target :=
        ⟨List.map_eq_nil_iff.1 hchildren, htarget.1, href, hechoes⟩
      rw [(followed?_eq_some_iff distinct).2 hfollows] at hfollowed
      cases hfollowed

theorem value_shareAt (hid : other.id ≠ node.id) :
    (shareAt node.id keeper.id other).value = other.value := by
  rw [shareAt_of_ne hid]
  rfl

theorem children_shareAt (hid : other.id ≠ node.id) :
    (shareAt node.id keeper.id other).children =
      other.children.map (shareAt node.id keeper.id) := by
  rw [shareAt_of_ne hid]
  rfl

include h in
theorem told_shareAt_node :
    told true (shareAt node.id keeper.id node).value = told false node.value := by
  have href := h.ref
  rw [shareAt_of_eq rfl]
  obtain ⟨⟨id, kind, text, label, requirements, effects, continues, ref, refChildren⟩, children⟩ := node
  cases href
  rfl

include distinct h in
/-- The new reference is followed, so that it is not told, and there was none before. -/
theorem told_shareAt (hother : Survives root node other) :
    told (followed? (shareAt node.id keeper.id root) (shareAt node.id keeper.id other)).isSome
      (shareAt node.id keeper.id other).value = told (followed? root other).isSome other.value := by
  by_cases hsame : other = node
  · rw [hsame, followed?_shareAt_node distinct h, followed?_of_children root h.parent]
    exact told_shareAt_node h
  · rw [followed?_shareAt distinct h hother hsame, Option.isSome_map,
      value_shareAt (id_ne_of_ne distinct h hother.1 hsame)]

include h in
theorem twins_below : List.Forall₂ Twins node.children keeper.children := by
  have hsame := Rose.sameForest_iff.1 h.same
  rw [Rose.mapForest_eq_map, Rose.mapForest_eq_map] at hsame
  exact forall₂_twins hsame

include distinct h in
theorem children_keeper_shareAt : (shareAt node.id keeper.id keeper).children ≠ [] := by
  rw [children_shareAt (id_ne_of_ne distinct h h.keeper_mem (keeper_ne h))]
  intro hnone
  exact keeper_children h (List.map_eq_nil_iff.1 hnone)

section Children

variable {R S : Node → Node → Prop} {shown : List Node} (hother : Survives root node other)
  (hne : other ≠ node)

include distinct h hother hne in
theorem forall₂_children_shareAt
    (hRS : ∀ child, Survives root node child → ∀ shown, R child shown →
      S (shareAt node.id keeper.id child) shown) (hR : List.Forall₂ R other.children shown) :
    List.Forall₂ S (shareAt node.id keeper.id other).children shown := by
  rw [children_shareAt (id_ne_of_ne distinct h hother.1 hne), List.forall₂_map_left_iff]
  have hboth := (List.forall₂_and_left _ _).2
    ⟨fun child hchild => survives_child distinct h hother hne hchild, hR⟩
  exact hboth.imp fun child shown hchild => hRS child hchild.1 shown hchild.2

include distinct h hother hne in
theorem forall₂_children_of_shareAt
    (hSR : ∀ child, Survives root node child → ∀ shown, S (shareAt node.id keeper.id child) shown →
      R child shown) (hS : List.Forall₂ S (shareAt node.id keeper.id other).children shown) :
    List.Forall₂ R other.children shown := by
  rw [children_shareAt (id_ne_of_ne distinct h hother.1 hne), List.forall₂_map_left_iff] at hS
  have hboth := (List.forall₂_and_left _ _).2
    ⟨fun child hchild => survives_child distinct h hother hne hchild, hS⟩
  exact hboth.imp fun child shown hchild => hSR child hchild.1 shown hchild.2

end Children

variable {fuel : ℕ} {depth : Option ℕ} {shown : Node}

include distinct h in
/-- What a node that stays unfolds to before the step, it unfolds to after it. -/
theorem unfolds_shareAt (hother : Survives root node other)
    (hshown : unfold (followed? root) fuel depth other = some shown) :
    Unfolds (followed? (shareAt node.id keeper.id root)) depth (shareAt node.id keeper.id other)
      shown := by
  induction fuel generalizing depth other shown with
  | zero => cases hshown
  | succ fuel ih =>
      by_cases hdepth : depth = some 0
      · subst hdepth
        rw [unfold_near, ← told_shareAt distinct h hother] at hshown
        rw [← Option.some.inj hshown]
        exact unfolds_near _ _
      by_cases hsame : other = node
      · rw [hsame] at hshown ⊢
        rw [unfold_own hdepth (followed?_of_children root h.parent)] at hshown
        obtain ⟨children, hchildren, rfl⟩ := Option.map_eq_some_iff.1 hshown
        -- The keeper's children are twins of those that the node loses.
        rw [mapM_congr ((twins_below h).imp fun _ _ => unfold_of_twins fuel _)] at hchildren
        have hbelow := forall₂_children_shareAt distinct h (survives_keeper h) (keeper_ne h)
          (fun child hchild shown => ih hchild) (mapM_eq_some_iff.1 hchildren)
        have hkeeper := unfolds_own hdepth
          (followed?_of_children (shareAt node.id keeper.id root)
            (children_keeper_shareAt distinct h)) hbelow
        have hnode := unfolds_followed hdepth (followed?_shareAt_node distinct h) hkeeper
        rwa [told_shareAt_node h] at hnode
      · have hnext := followed?_shareAt distinct h hother hsame
        have hvalue : (shareAt node.id keeper.id other).value = other.value :=
          value_shareAt (id_ne_of_ne distinct h hother.1 hsame)
        cases hfollowed : followed? root other with
        | some target =>
            rw [hfollowed] at hnext
            rw [unfold_followed hdepth hfollowed] at hshown
            obtain ⟨inner, hinner, rfl⟩ := Option.map_eq_some_iff.1 hshown
            obtain ⟨-, hmem, href, -⟩ := (followed?_eq_some_iff distinct).1 hfollowed
            have htarget := ih (survives_of_ref h hother hsame hmem href) hinner
            rw [← hvalue]
            exact unfolds_followed hdepth hnext htarget
        | none =>
            rw [hfollowed] at hnext
            rw [unfold_own hdepth hfollowed] at hshown
            obtain ⟨children, hchildren, rfl⟩ := Option.map_eq_some_iff.1 hshown
            have hbelow := forall₂_children_shareAt distinct h hother hsame
              (fun child hchild shown => ih hchild) (mapM_eq_some_iff.1 hchildren)
            rw [← hvalue]
            exact unfolds_own hdepth hnext hbelow

include distinct h in
/-- What a node that stays unfolds to after the step, it unfolded to before it. -/
theorem unfolds_of_shareAt (hother : Survives root node other)
    (hshown : unfold (followed? (shareAt node.id keeper.id root)) fuel depth
      (shareAt node.id keeper.id other) = some shown) :
    Unfolds (followed? root) depth other shown := by
  induction fuel generalizing depth other shown with
  | zero => cases hshown
  | succ fuel ih =>
      by_cases hdepth : depth = some 0
      · subst hdepth
        rw [unfold_near, told_shareAt distinct h hother] at hshown
        rw [← Option.some.inj hshown]
        exact unfolds_near _ _
      by_cases hsame : other = node
      · rw [hsame] at hshown ⊢
        rw [unfold_followed hdepth (followed?_shareAt_node distinct h)] at hshown
        obtain ⟨inner, hinner, rfl⟩ := Option.map_eq_some_iff.1 hshown
        obtain ⟨children, rfl, hchildren⟩ := exists_of_unfolds_own hdepth
          (followed?_of_children root (keeper_children h)) (ih (survives_keeper h) hinner)
        -- The children that the node still has are twins of its keeper's.
        obtain ⟨more, hmore⟩ := exists_mapM_unfold hchildren
        rw [← mapM_congr ((twins_below h).imp fun _ _ => unfold_of_twins more _)] at hmore
        have hbelow := (mapM_eq_some_iff.1 hmore).imp fun _ _ hchild =>
          (⟨more, hchild⟩ : Unfolds (followed? root) _ _ _)
        have hnode := unfolds_own hdepth (followed?_of_children root h.parent) hbelow
        rwa [← told_shareAt_node h] at hnode
      · have hnext := followed?_shareAt distinct h hother hsame
        have hvalue : (shareAt node.id keeper.id other).value = other.value :=
          value_shareAt (id_ne_of_ne distinct h hother.1 hsame)
        cases hfollowed : followed? root other with
        | some target =>
            rw [hfollowed] at hnext
            rw [unfold_followed hdepth hnext] at hshown
            obtain ⟨inner, hinner, rfl⟩ := Option.map_eq_some_iff.1 hshown
            obtain ⟨-, hmem, href, -⟩ := (followed?_eq_some_iff distinct).1 hfollowed
            have htarget := ih (survives_of_ref h hother hsame hmem href) hinner
            rw [hvalue]
            exact unfolds_followed hdepth hfollowed htarget
        | none =>
            rw [hfollowed] at hnext
            rw [unfold_own hdepth hnext] at hshown
            obtain ⟨children, hchildren, rfl⟩ := Option.map_eq_some_iff.1 hshown
            have hbelow := forall₂_children_of_shareAt distinct h hother hsame
              (fun child hchild shown => ih hchild) (mapM_eq_some_iff.1 hchildren)
            rw [hvalue]
            exact unfolds_own hdepth hfollowed hbelow

end Shares

theorem survives_root {root node keeper : Node} (h : Shares root node keeper) :
    Survives root node root := by
  refine ⟨Rose.self_mem_walk root, fun hbelow => ?_⟩
  have hsize := Rose.size_lt_of_mem_below hbelow
  have hle := Rose.size_le_of_mem_walk h.node_mem
  omega

/-- Down to any depth, a tree tells the same before and after any number of steps. -/
theorem unfolds_steps_iff {root after : Node} (distinct : root.ids.Nodup) (h : Steps root after)
    (depth : Option ℕ) (shown : Node) :
    Unfolds (followed? after) depth after shown ↔ Unfolds (followed? root) depth root shown := by
  induction h with
  | refl => rfl
  | tail hsteps hstep ih =>
      rw [← ih]
      have hdistinct := (ids_steps_subset distinct hsteps).1
      cases hstep with
      | share hshares =>
          constructor
          · rintro ⟨fuel, hshown⟩
            exact unfolds_of_shareAt hdistinct hshares (survives_root hshares) hshown
          · rintro ⟨fuel, hshown⟩
            exact unfolds_shareAt hdistinct hshares (survives_root hshares) hshown

end Share

end StoryAtlas
