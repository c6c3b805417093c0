import Mathlib.Logic.Relation
import StoryAtlas.Proofs.Event.Shape
import StoryAtlas.Proofs.Rose.Edit
import StoryAtlas.Share.Signature

/-!
# One node shared

Sharing goes in single steps. A step takes the children of one node and leaves a reference to another
node, the keeper, that agrees with it in type, text and label and has the same below it. The keeper
lies outside the node's subtree, and no other node outside refers to what is lost. Everything that
sharing keeps, it keeps step by step: ids stay distinct, references resolve, wrappers keep their
child, and no node ends up with a reference and children.
-/

namespace StoryAtlas

/-- The beats agree in type, text and label. -/
structure Beat.Echoes (beat other : Beat) : Prop where
  kind : beat.kind = other.kind
  text : beat.text = other.text
  label : beat.label = other.label

namespace Share

/-- The node can be shared with the keeper. -/
structure Shares (root node keeper : Node) : Prop where
  node_mem : node ∈ root.walk
  keeper_mem : keeper ∈ root.walk
  apart : keeper ∉ node.walk
  parent : node.children ≠ []
  ref : node.value.ref = none
  kind : node.value.kind ≠ .choice
  echoes : node.value.Echoes keeper.value
  same : node.sameBelow keeper = true
  guarded : ∀ other ∈ root.walk, other ∉ node.walk → ∀ below ∈ Rose.walkForest node.children,
    (Rose.value other).ref ≠ some (Node.id below)

def refer (target : Int) (node : Node) : Node := .node { node.value with ref := some target } []

/-- The tree with the node of an id referring to a target. -/
def shareAt (id target : Int) (root : Node) : Node :=
  root.editWhere (fun beat => beat.id == id) (refer target)

inductive Step : Node → Node → Prop
  | share {root node keeper : Node} (h : Shares root node keeper) :
      Step root (shareAt node.id keeper.id root)

abbrev Steps : Node → Node → Prop := Relation.ReflTransGen Step

/-! ### What a node becomes -/

section ShareAt

variable {id target : Int} {node : Node}

theorem shareAt_of_eq (h : node.id = id) : shareAt id target node = refer target node :=
  Rose.editWhere_of_pos (beq_iff_eq.2 h)

theorem shareAt_of_ne (h : node.id ≠ id) :
    shareAt id target node = .node node.value (node.children.map (shareAt id target)) :=
  Rose.editWhere_of_neg (beq_eq_false_iff_ne.2 h)

@[simp] theorem id_shareAt (id target : Int) (node : Node) : (shareAt id target node).id = node.id := by
  by_cases h : node.id = id
  · rw [shareAt_of_eq h]
    rfl
  · rw [shareAt_of_ne h]
    rfl

theorem echoes_shareAt (id target : Int) (node : Node) (beat : Beat) :
    beat.Echoes (shareAt id target node).value ↔ beat.Echoes node.value := by
  by_cases h : node.id = id
  · rw [shareAt_of_eq h]
    exact ⟨fun ⟨hkind, htext, hlabel⟩ => ⟨hkind, htext, hlabel⟩,
      fun ⟨hkind, htext, hlabel⟩ => ⟨hkind, htext, hlabel⟩⟩
  · rw [shareAt_of_ne h]
    rfl

end ShareAt

/-! ### Which nodes stay -/

/-- The node is not below the one that is shared. -/
def Survives (root node other : Node) : Prop :=
  other ∈ root.walk ∧ other ∉ Rose.walkForest node.children

section Shares

variable {root node keeper other child : Node} (distinct : root.ids.Nodup)
  (h : Shares root node keeper)

include h in
theorem survives_keeper : Survives root node keeper :=
  ⟨h.keeper_mem, fun hbelow => h.apart (Rose.mem_walk.2 (.inr hbelow))⟩

include h in
theorem keeper_ne : keeper ≠ node := by
  intro hsame
  exact h.apart (hsame ▸ Rose.self_mem_walk node)

include h in
theorem keeper_children : keeper.children ≠ [] := by
  intro hnone
  have hsame := Rose.sameForest_iff.1 h.same
  rw [hnone, Rose.mapForest, Rose.mapForest_eq_map, List.map_eq_nil_iff] at hsame
  exact h.parent hsame

include distinct h in
theorem id_ne_of_ne (hother : other ∈ root.walk) (hne : other ≠ node) : other.id ≠ node.id :=
  fun hid => hne (Node.eq_of_id_eq distinct hother h.node_mem hid)

theorem notMem_walk_of_survives (hother : Survives root node other) (hne : other ≠ node) :
    other ∉ node.walk :=
  fun hmem => (Rose.mem_walk.1 hmem).elim hne hother.2

include distinct h in
theorem survives_child (hother : Survives root node other) (hne : other ≠ node)
    (hchild : child ∈ other.children) : Survives root node child := by
  refine ⟨Rose.mem_walk_trans (Rose.mem_walk_of_mem_children hchild) hother.1, fun hbelow => ?_⟩
  obtain ⟨parent, hparent, hmem⟩ := Rose.exists_parent_of_mem_below hbelow
  have hwalk := Rose.mem_walk_trans hparent h.node_mem
  have hsame := Rose.parent_unique distinct hwalk hother.1 hmem hchild rfl
  exact notMem_walk_of_survives hother hne (hsame ▸ hparent)

include distinct h in
theorem filter_id_eq_singleton :
    (root.walk.filter fun (other : Node) => other.value.id == node.id) = [node] := by
  have hnodup : (root.walk.filter fun (other : Node) => other.value.id == node.id).Nodup :=
    distinct.of_map.filter _
  refine List.perm_singleton.1 ((List.perm_ext_iff_of_nodup hnodup (List.nodup_singleton _)).2 ?_)
  intro other
  rw [List.mem_filter, List.mem_singleton, beq_iff_eq]
  constructor
  · rintro ⟨hother, hid⟩
    exact Node.eq_of_id_eq distinct hother h.node_mem hid
  · rintro rfl
    exact ⟨h.node_mem, rfl⟩

include distinct h in
/-- The ids that are gone are those below the node. -/
theorem ids_shareAt_perm : ((shareAt node.id keeper.id root).ids ++
    (Rose.walkForest node.children).map Node.id).Perm root.ids := by
  have hvalues : ∀ t : Node, t.ids = t.values.map Beat.id := fun t => by
    rw [Rose.values, List.map_map]
    rfl
  have hnode : node.ids = node.id :: (Rose.walkForest node.children).map Node.id := by
    obtain ⟨beat, children⟩ := node
    rfl
  have hperm := (@Rose.values_editWhere_perm _ (fun beat : Beat => beat.id == node.id)
    (refer keeper.id) _ _ (filter_id_eq_singleton distinct h)).map Beat.id
  rw [List.map_append, List.map_append, ← hvalues, ← hvalues, ← hvalues, ← hvalues, hnode] at hperm
  have hleft : ((shareAt node.id keeper.id root).ids ++
      node.id :: (Rose.walkForest node.children).map Node.id).Perm
      (node.id :: ((shareAt node.id keeper.id root).ids ++
        (Rose.walkForest node.children).map Node.id)) := List.perm_middle
  have hright : (root.ids ++ (refer keeper.id node).ids).Perm (node.id :: root.ids) :=
    List.perm_append_singleton node.id root.ids
  exact (List.perm_cons _).1 (hleft.symm.trans (hperm.trans hright))

include distinct h in
theorem size_shareAt : (shareAt node.id keeper.id root).size + (node.size - 1) = root.size := by
  have hlength := (ids_shareAt_perm distinct h).length_eq
  rw [List.length_append, List.length_map, Node.length_ids, Node.length_ids,
    Rose.length_walkForest _ fun t _ => Rose.length_walk t] at hlength
  rw [Rose.size_eq node]
  omega

include distinct h in
theorem mem_walk_shareAt {after : Node} : after ∈ (shareAt node.id keeper.id root).walk ↔
    ∃ other, Survives root node other ∧ after = shareAt node.id keeper.id other := by
  constructor
  · intro hafter
    have hids := (ids_shareAt_perm distinct h).nodup_iff.2 distinct
    have hgone := (List.nodup_append.1 hids).2.2
    have hlost : ∀ other ∈ root.walk, after = shareAt node.id keeper.id other →
        Survives root node other := by
      rintro other hother rfl
      refine ⟨hother, fun hbelow => ?_⟩
      exact hgone _ (Node.id_mem_ids hafter) _ (List.mem_map_of_mem hbelow) (id_shareAt _ _ _)
    rcases Rose.mem_walk_editWhere hafter with ⟨other, hother, -, hsame⟩ | ⟨other, hother, hid, hmem⟩
    · exact ⟨other, hlost other hother hsame, hsame⟩
    · have hsame : after = refer keeper.id other := by
        rcases Rose.mem_walk.1 hmem with hsame | hbelow
        · exact hsame
        · cases hbelow
      rw [← shareAt_of_eq (eq_of_beq hid)] at hsame
      exact ⟨other, hlost other hother hsame, hsame⟩
  · rintro ⟨other, hother, rfl⟩
    apply Rose.editWhere_mem_walk hother.1
    intro found hfound hid
    rw [Node.eq_of_id_eq distinct hfound h.node_mem (eq_of_beq hid)]
    exact hother.2

include h in
/-- What a node that stays refers to stays, but for what the node lost refers to. -/
theorem survives_of_ref {target : Node} (hother : Survives root node other) (hne : other ≠ node)
    (htarget : target ∈ root.walk) (href : other.value.ref = some target.id) :
    Survives root node target :=
  ⟨htarget, fun hbelow =>
    h.guarded other hother.1 (notMem_walk_of_survives hother hne) target hbelow href⟩

/-! ### What a step keeps -/

include distinct h in
theorem bare_shareAt (bare : root.Bare) : (shareAt node.id keeper.id root).Bare := by
  intro after hafter href
  obtain ⟨other, hother, rfl⟩ := (mem_walk_shareAt distinct h).1 hafter
  by_cases hid : other.id = node.id
  · rw [shareAt_of_eq hid]
    rfl
  · rw [shareAt_of_ne hid] at href ⊢
    rw [Rose.children_node, bare other hother.1 href]
    rfl

include distinct h in
theorem wrapsOne_shareAt (wraps : root.WrapsOne) : (shareAt node.id keeper.id root).WrapsOne := by
  intro after hafter hkind
  obtain ⟨other, hother, rfl⟩ := (mem_walk_shareAt distinct h).1 hafter
  by_cases hid : other.id = node.id
  · rw [shareAt_of_eq hid, Node.eq_of_id_eq distinct hother.1 h.node_mem hid] at hkind
    exact absurd hkind h.kind
  · rw [shareAt_of_ne hid] at hkind ⊢
    rw [Rose.children_node, List.length_map]
    exact wraps other hother.1 hkind

include distinct h in
theorem unborrowed_shareAt (unborrowed : root.Unborrowed) :
    (shareAt node.id keeper.id root).Unborrowed := by
  intro after hafter
  obtain ⟨other, hother, rfl⟩ := (mem_walk_shareAt distinct h).1 hafter
  by_cases hid : other.id = node.id
  · rw [shareAt_of_eq hid]
    exact unborrowed other hother.1
  · rw [shareAt_of_ne hid]
    exact unborrowed other hother.1

include distinct h in
theorem id_mem_shareAt (hother : Survives root node other) :
    other.id ∈ (shareAt node.id keeper.id root).ids := by
  rw [← id_shareAt node.id keeper.id other]
  exact Node.id_mem_ids ((mem_walk_shareAt distinct h).2 ⟨other, hother, rfl⟩)

include distinct h in
/-- The new reference names the keeper, and no other has lost its target. -/
theorem resolves_shareAt (resolves : root.Resolves) :
    (shareAt node.id keeper.id root).Resolves := by
  intro after hafter target href
  obtain ⟨other, hother, rfl⟩ := (mem_walk_shareAt distinct h).1 hafter
  by_cases hid : other.id = node.id
  · rw [shareAt_of_eq hid] at href
    obtain rfl : keeper.id = target := Option.some.inj href
    exact id_mem_shareAt distinct h (survives_keeper h)
  · rw [shareAt_of_ne hid] at href
    obtain ⟨found, hfound, rfl⟩ := Node.mem_ids.1 (resolves other hother.1 target href)
    have hne : other ≠ node := fun hsame => hid (by rw [hsame])
    exact id_mem_shareAt distinct h (survives_of_ref h hother hne hfound href)

end Shares

/-! ### What any number of steps keeps -/

section Steps

variable {root after : Node}

theorem ids_step_subset (distinct : root.ids.Nodup) (h : Step root after) :
    after.ids.Nodup ∧ after.ids ⊆ root.ids := by
  cases h with
  | share h =>
      have hperm := ids_shareAt_perm distinct h
      refine ⟨(List.nodup_append.1 (hperm.nodup_iff.2 distinct)).1, fun id hid => ?_⟩
      exact hperm.mem_iff.1 (List.mem_append_left _ hid)

theorem ids_steps_subset (distinct : root.ids.Nodup) (h : Steps root after) :
    after.ids.Nodup ∧ after.ids ⊆ root.ids := by
  induction h with
  | refl => exact ⟨distinct, List.Subset.refl _⟩
  | tail _ hstep ih =>
      obtain ⟨hnodup, hsub⟩ := ids_step_subset ih.1 hstep
      exact ⟨hnodup, fun id hid => ih.2 (hsub hid)⟩

/-- What one step keeps in a tree with distinct ids, any number of steps keep. -/
theorem steps_induction {P : Node → Prop} (distinct : root.ids.Nodup)
    (hstep : ∀ {root after : Node}, root.ids.Nodup → Step root after → P root → P after)
    (h : Steps root after) (hroot : P root) : P after := by
  induction h with
  | refl => exact hroot
  | tail hsteps hlast ih => exact hstep (ids_steps_subset distinct hsteps).1 hlast ih

theorem sound_steps {bound : Int} (sound : root.Sound bound) (h : Steps root after) :
    after.Sound bound := by
  obtain ⟨hnodup, hsub⟩ := ids_steps_subset sound.distinct h
  refine ⟨hnodup, fun id hid => sound.below id (hsub hid), ?_⟩
  refine steps_induction sound.distinct (fun distinct hstep bare => ?_) h sound.bare
  cases hstep with
  | share hshares => exact bare_shareAt distinct hshares bare

theorem wrapsOne_steps (distinct : root.ids.Nodup) (wraps : root.WrapsOne) (h : Steps root after) :
    after.WrapsOne := by
  refine steps_induction distinct (fun distinct hstep wraps => ?_) h wraps
  cases hstep with
  | share hshares => exact wrapsOne_shareAt distinct hshares wraps

theorem unborrowed_steps (distinct : root.ids.Nodup) (unborrowed : root.Unborrowed)
    (h : Steps root after) : after.Unborrowed := by
  refine steps_induction distinct (fun distinct hstep unborrowed => ?_) h unborrowed
  cases hstep with
  | share hshares => exact unborrowed_shareAt distinct hshares unborrowed

theorem resolves_steps (distinct : root.ids.Nodup) (resolves : root.Resolves)
    (h : Steps root after) : after.Resolves := by
  refine steps_induction distinct (fun distinct hstep resolves => ?_) h resolves
  cases hstep with
  | share hshares => exact resolves_shareAt distinct hshares resolves

end Steps

end Share

end StoryAtlas
