import StoryAtlas.Edit.Apply
import StoryAtlas.Proofs.Event.Shape
import StoryAtlas.Proofs.Register
import StoryAtlas.Proofs.Schema.Ensured

/-!
# Drafts and what is built from them

A draft that passed its check has no children at any node that is to refer. The nodes built from a
draft have ids from the next free one on, and each is built from a node of the draft. Linking them
gives a node the id that its wish is granted, and otherwise leaves the plain reference of the draft.
-/

namespace StoryAtlas

namespace Draft

theorem broken_eq_none {tree : DraftTree} : broken tree = none ↔
    tree.value.linkCount ≤ 1 ∧ (tree.value.linkCount = 1 → tree.children = []) := by
  unfold broken
  split
  · next hmany => simp [Nat.not_le.2 hmany]
  · next hfew =>
    simp only [Nat.not_lt.1 hfew, true_and]
    split <;> simp_all

/-- A drafted subtree that breaks no rule at any of its nodes. -/
def Unbroken (tree : DraftTree) : Prop := ∀ node ∈ tree.walk, broken node = none

open Schema Schema.Checked

theorem unbroken_assemble {own : Checked Draft} {children : Checked (List DraftTree)}
    {rest : Checked Unit} {tree : DraftTree}
    (hchildren : ∀ trees, children = valid trees → ∀ child ∈ trees, Unbroken child)
    (h : assemble own children rest = valid tree) : Unbroken tree := by
  obtain ⟨raw, hraw, rfl⟩ := map_eq_valid.1 h
  obtain ⟨hparts, hrule⟩ := andAlso_eq_valid.1 hraw
  obtain ⟨_, trees, hnode, htrees, rfl⟩ := seq_eq_valid.1 (seqLeft_eq_valid.1 hparts).1
  obtain ⟨draft, -, rfl⟩ := map_eq_valid.1 hnode
  intro node hmem
  rcases Rose.mem_walk.1 hmem with rfl | hbelow
  · exact hrule
  · obtain ⟨child, hchild, hmem⟩ := Rose.mem_walkForest.1 hbelow
    exact hchildren trees htrees child hchild node hmem

theorem ensures_checkTree : Ensures checkTree Unbroken := by
  -- along with the documents go the children among some fields and the items of a list
  refine checkTree.induct (fun json => ∀ ⦃tree⦄, checkTree json = valid tree → Unbroken tree)
    (fun fields => ∀ trees, checkChildren fields = valid trees → ∀ tree ∈ trees, Unbroken tree)
    (fun index items => ∀ trees, checkTrees index items = valid trees →
      ∀ tree ∈ trees, Unbroken tree)
    ?model ?other ?noItems ?items ?noFields ?children ?noList ?field
  case model =>
    intro fields ih tree h
    rw [checkTree] at h
    exact unbroken_assemble ih h
  case other =>
    intro json hother tree h
    cases json with
    | obj fields => exact absurd rfl (hother fields)
    | _ => cases h
  case noItems =>
    intro index trees h tree htree
    cases h
    cases htree
  case items =>
    intro index item items ihfirst ihrest trees h
    rw [checkTrees] at h
    obtain ⟨_, rest, hfirst, hrest, rfl⟩ := seq_eq_valid.1 h
    obtain ⟨first, hitem, rfl⟩ := map_eq_valid.1 hfirst
    exact List.forall_mem_cons.2 ⟨ihfirst (under_eq_valid.1 hitem), ihrest rest hrest⟩
  case noFields =>
    intro trees h tree htree
    cases h
    cases htree
  case children =>
    intro fields items ih trees h
    exact ih trees (under_eq_valid.1 h)
  case noList =>
    intro value fields hother trees h
    cases value with
    | arr items => exact absurd rfl (hother items)
    | _ => cases h
  case field =>
    intro key value fields hkey ih trees h
    unfold checkChildren at h
    rw [if_neg hkey] at h
    exact ih trees h

end Draft

namespace Alteration

structure Unbroken (alteration : Alteration) : Prop where
  addChild : ∀ tree ∈ alteration.addChild, Draft.Unbroken tree
  replaceNode : ∀ tree ∈ alteration.replaceNode, Draft.Unbroken tree
  replaceChildren : ∀ trees ∈ alteration.replaceChildren, ∀ tree ∈ trees, Draft.Unbroken tree

open Schema Schema.Checked in
theorem ensures_check : Ensures check Unbroken := by
  intro json alteration h
  cases json with
  | obj fields =>
      simp only [check, object, andAlso_eq_valid, seqLeft_eq_valid, seq_eq_valid,
        map_eq_valid] at h
      obtain ⟨⟨⟨_, _, ⟨_, _, ⟨_, _, ⟨_, _, ⟨_, _, ⟨_, _, ⟨find, -, rfl⟩, -, rfl⟩, haddChild, rfl⟩,
        hreplaceNode, rfl⟩, hreplaceChildren, rfl⟩, -, rfl⟩, -, rfl⟩, -⟩, -⟩ := h
      have htree := Draft.ensures_checkTree
      exact {
        addChild := htree.nullable.optionalField (by simp) haddChild
        replaceNode := htree.nullable.optionalField (by simp) hreplaceNode
        replaceChildren := htree.list.nullable.optionalField (by simp) hreplaceChildren }
  | _ => cases h

end Alteration

namespace Edit

/-! ### Built nodes -/

variable {nextId : Int} {tree : DraftTree} {trees : List DraftTree} {built : Rose Built}

theorem length_buildForest (nextId : Int) (trees : List DraftTree) :
    (buildForest nextId trees).length = trees.length := by
  induction trees generalizing nextId with
  | nil => rfl
  | cons tree trees ih => rw [buildForest, List.length_cons, List.length_cons, ih]

theorem exists_draft_of_mem_buildForest (h : built ∈ buildForest nextId trees) :
    ∃ tree ∈ trees, ∃ id, nextId ≤ id ∧ built = build id tree := by
  induction trees generalizing nextId with
  | nil => cases h
  | cons tree trees ih =>
      rcases List.mem_cons.1 h with rfl | h
      · exact ⟨tree, List.mem_cons_self, nextId, Int.le_refl _, rfl⟩
      · obtain ⟨other, hother, id, hid, hbuilt⟩ := ih h
        exact ⟨other, List.mem_cons_of_mem _ hother, id, by omega, hbuilt⟩

/-- What is built from a draft is, node by node, built from the nodes of the draft. -/
theorem exists_draft_of_mem_build (h : built ∈ (build nextId tree).walk) :
    ∃ node ∈ tree.walk, ∃ id, nextId ≤ id ∧ built = build id node := by
  induction tree using Rose.induction_on generalizing nextId with
  | node draft children ih =>
      rcases Rose.mem_walk.1 h with rfl | hbelow
      · exact ⟨_, Rose.self_mem_walk _, nextId, Int.le_refl _, rfl⟩
      · rw [build, Rose.children_node] at hbelow
        obtain ⟨_, hbuilt, hmem⟩ := Rose.mem_walkForest.1 hbelow
        obtain ⟨child, hchild, first, hfirst, rfl⟩ := exists_draft_of_mem_buildForest hbuilt
        obtain ⟨node, hnode, id, hid, hmade⟩ := ih child hchild hmem
        exact ⟨node, Rose.mem_walk_of_mem hchild hnode, id, by omega, hmade⟩

@[simp] theorem id_build (nextId : Int) (tree : DraftTree) :
    (build nextId tree).value.beat.id = nextId := by
  obtain ⟨draft, children⟩ := tree
  rfl

theorem value_build (nextId : Int) (tree : DraftTree) :
    (build nextId tree).value = buildBeat nextId tree.value := by
  obtain ⟨draft, children⟩ := tree
  rfl

theorem children_build_eq_nil (nextId : Int) (tree : DraftTree) :
    (build nextId tree).children = [] ↔ tree.children = [] := by
  obtain ⟨draft, children⟩ := tree
  cases children <;> simp [build, buildForest]

theorem le_id_of_mem_build (h : built ∈ (build nextId tree).walk) :
    nextId ≤ built.value.beat.id := by
  obtain ⟨node, -, id, hid, rfl⟩ := exists_draft_of_mem_build h
  rwa [id_build]

theorem lt_id_of_mem_below_build (h : built ∈ Rose.walkForest (build nextId tree).children) :
    nextId < built.value.beat.id := by
  obtain ⟨draft, children⟩ := tree
  rw [build, Rose.children_node] at h
  obtain ⟨_, hbuilt, hmem⟩ := Rose.mem_walkForest.1 h
  obtain ⟨child, -, first, hfirst, rfl⟩ := exists_draft_of_mem_buildForest hbuilt
  have := le_id_of_mem_build hmem
  omega

/-- A built tree whose root takes over an id. -/
def renamed (id : Int) (built : Rose Built) : Rose Built :=
  built.withValue { built.value with beat := { built.value.beat with id := id } }

theorem retarget_targetsOf (id nextId : Int) (tree : DraftTree) :
    retarget nextId id (targetsOf [build nextId tree]) =
      targetsOf [renamed id (build nextId tree)] := by
  have hbelow : ∀ inner ∈ Rose.walkForest (build nextId tree).children,
      inner.value.beat.id ≠ nextId := fun inner hinner =>
    Int.ne_of_gt (lt_id_of_mem_below_build hinner)
  have hid := id_build nextId tree
  unfold targetsOf retarget
  refine (Register.map_ofList (fun number => if number = nextId then id else number) _).trans ?_
  congr 1
  generalize build nextId tree = built at hbelow hid
  obtain ⟨value, children⟩ := built
  simp only [Rose.value_node] at hid
  simp only [renamed, Rose.withValue, Rose.walkForest, List.append_nil, Rose.walk_node,
    Rose.value_node, Rose.children_node, List.filterMap_cons]
  have hrest : ((Rose.walkForest children).filterMap fun node =>
        node.value.target.map fun number => (number, node.value.beat.id)).map
          (fun entry => (entry.1, if entry.2 = nextId then id else entry.2)) =
      (Rose.walkForest children).filterMap fun node =>
        node.value.target.map fun number => (number, node.value.beat.id) := by
    rw [List.map_filterMap]
    refine List.filterMap_congr fun inner hinner => ?_
    cases inner.value.target with
    | none => rfl
    | some number => simp [hbelow inner hinner]
  cases value.target with
  | none => exact hrest
  | some number =>
      rw [Option.map_some, Option.map_some, List.map_cons, hrest, hid]
      simp

theorem exists_of_get?_targetsOf {number id : Int} {forest : List (Rose Built)}
    (h : Register.get? number (targetsOf forest) = some id) :
    ∃ node ∈ Rose.walkForest forest, node.value.beat.id = id := by
  obtain ⟨node, hnode, hentry⟩ := List.mem_filterMap.1 (Register.mem_of_get?_ofList h)
  obtain ⟨other, -, hpair⟩ := Option.map_eq_some_iff.1 hentry
  exact ⟨node, hnode, (Prod.mk.inj hpair).2⟩

/-! ### Linked nodes -/

variable {targets : Register Int Int} {excluded : List Int} {root : Working}

def linkTree (targets : Register Int Int) (excluded : List Int) (root : Working)
    (built : Rose Built) : Node :=
  built.map (linkBeat targets excluded root)

theorem ref_linkBeat (node : Built) :
    (linkBeat targets excluded root node).ref =
      (node.wish.bind (grant targets excluded root)).or node.beat.ref := by
  unfold linkBeat
  split
  · next id h => rw [h, Option.some_or]
  · next h => rw [h, Option.none_or]

@[simp] theorem id_linkBeat (node : Built) :
    (linkBeat targets excluded root node).id = node.beat.id := by
  unfold linkBeat
  split <;> rfl

theorem mem_walk_linkTree {node : Node} :
    node ∈ (linkTree targets excluded root built).walk ↔
      ∃ inner ∈ built.walk, linkTree targets excluded root inner = node := by
  rw [linkTree, Rose.walk_map, List.mem_map]
  rfl

theorem value_linkTree (built : Rose Built) :
    (linkTree targets excluded root built).value = linkBeat targets excluded root built.value :=
  Rose.value_map _ _

theorem mem_ids_linkTree {id : Int} :
    id ∈ (linkTree targets excluded root built).ids ↔
      ∃ inner ∈ built.walk, inner.value.beat.id = id := by
  rw [Node.mem_ids]
  constructor
  · rintro ⟨_, hnode, rfl⟩
    obtain ⟨inner, hinner, rfl⟩ := mem_walk_linkTree.1 hnode
    refine ⟨inner, hinner, ?_⟩
    rw [Node.id, value_linkTree, id_linkBeat]
  · rintro ⟨inner, hinner, rfl⟩
    refine ⟨_, mem_walk_linkTree.2 ⟨inner, hinner, rfl⟩, ?_⟩
    rw [Node.id, value_linkTree, id_linkBeat]

theorem linkTree_renamed (id : Int) (built : Rose Built) :
    linkTree targets excluded root (renamed id built) =
      .node { (linkTree targets excluded root built).value with id := id }
        (linkTree targets excluded root built).children := by
  obtain ⟨value, children⟩ := built
  simp only [renamed, Rose.withValue, linkTree, Rose.map_node, Rose.value_node, Rose.children_node]
  congr 1
  unfold linkBeat
  dsimp only
  split <;> rfl

theorem linkCount_of_ref {id : Int} {draft : Draft}
    (h : (linkBeat targets excluded root (buildBeat id draft)).ref.isSome) :
    draft.linkCount ≠ 0 := by
  intro hcount
  have href : draft.ref = none := by
    cases hdraft : draft.ref <;> simp_all [Draft.linkCount]
  have hwish : wishOf draft = none := by
    unfold wishOf
    cases hsource : draft.refSource <;> cases hcreate : draft.refCreate <;>
      simp_all [Draft.linkCount]
  rw [ref_linkBeat] at h
  simp [buildBeat, href, hwish] at h

/-- An unbroken draft has no children at a node that refers once it is linked. -/
theorem bare_linkTree {id : Int} (unbroken : Draft.Unbroken tree) :
    (linkTree targets excluded root (build id tree)).Bare := by
  intro node hnode href
  obtain ⟨_, hbuilt, rfl⟩ := mem_walk_linkTree.1 hnode
  obtain ⟨draft, hdraft, first, -, rfl⟩ := exists_draft_of_mem_build hbuilt
  rw [value_linkTree, value_build] at href
  have hcount := linkCount_of_ref href
  obtain ⟨hcountLe, hchildless⟩ := Draft.broken_eq_none.1 (unbroken draft hdraft)
  rw [linkTree, Rose.children_map, List.map_eq_nil_iff, children_build_eq_nil]
  exact hchildless (by omega)

theorem ids_borrowFirst (ids : Option (List Int)) (borrows : Bool) (node : Node) :
    (borrowFirst ids borrows node).ids = node.ids := by
  obtain ⟨beat, children⟩ := node
  unfold borrowFirst
  split
  · split <;> rfl
  · rfl

theorem bare_borrowFirst (ids : Option (List Int)) (borrows : Bool) {node : Node}
    (bare : node.Bare) : (borrowFirst ids borrows node).Bare := by
  obtain ⟨beat, children⟩ := node
  obtain ⟨hself, hchildren⟩ := Rose.everywhere_node.1 bare
  unfold borrowFirst
  split
  · split
    · exact Rose.everywhere_node.2 ⟨hself, hchildren⟩
    · exact bare
  · exact bare

end Edit

end StoryAtlas
