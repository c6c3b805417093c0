import StoryAtlas.Proofs.Share.Faithful

/-!
# A shared node and its keeper stand apart

A node is never shared with a keeper above or below it. Below it the keeper cannot be, since it was
met before the node, and above it the keeper would have more nodes than the node that it is compared
with. Later steps cut subtrees off and move nothing, so as long as two nodes are in the tree, one
encloses the other exactly if it did in the tree that sharing started from. Hence the references that
sharing makes lead neither up nor down, before or after.
-/

namespace StoryAtlas

namespace Node

/-- The node of one id has the other id in its subtree. -/
def Encloses (root : Node) (upper lower : Int) : Prop :=
  ∃ node : Node, node ∈ root.walk ∧ node.id = upper ∧ lower ∈ node.ids

/-- Neither id is the other, or the id of a node above or below it. -/
structure Apart (root : Node) (one other : Int) : Prop where
  notAbove : ¬root.Encloses one other
  notBelow : ¬root.Encloses other one

end Node

namespace Share

/-! ### One step -/

section Shares

variable {root node keeper : Node}

theorem ids_shareAt_subset (id target : Int) (root : Node) :
    (shareAt id target root).ids ⊆ root.ids := by
  intro found hfound
  obtain ⟨after, hafter, rfl⟩ := Node.mem_ids.1 hfound
  rcases Rose.mem_walk_editWhere hafter with ⟨old, hold, -, rfl⟩ | ⟨old, hold, -, hmem⟩
  · exact Node.mem_ids.2 ⟨old, hold, (id_shareAt id target old).symm⟩
  · rcases Rose.mem_walk.1 hmem with rfl | hbelow
    · exact Node.mem_ids.2 ⟨old, hold, rfl⟩
    · cases hbelow

/-- Among the nodes that a step leaves, it changes nothing in who encloses whom. -/
theorem encloses_shareAt_iff (distinct : root.ids.Nodup) (h : Shares root node keeper)
    {upper lower : Int} (hupper : upper ∈ (shareAt node.id keeper.id root).ids)
    (hlower : lower ∈ (shareAt node.id keeper.id root).ids) :
    (shareAt node.id keeper.id root).Encloses upper lower ↔ root.Encloses upper lower := by
  have survivor {id : Int} (hid : id ∈ (shareAt node.id keeper.id root).ids) :
      ∃ other, Survives root node other ∧ Node.id other = id := by
    obtain ⟨after, hafter, rfl⟩ := Node.mem_ids.1 hid
    obtain ⟨other, hother, rfl⟩ := (mem_walk_shareAt distinct h).1 hafter
    exact ⟨other, hother, (id_shareAt _ _ other).symm⟩
  constructor
  · rintro ⟨after, hafter, rfl, hmem⟩
    obtain ⟨other, hother, rfl⟩ := (mem_walk_shareAt distinct h).1 hafter
    exact ⟨other, hother.1, (id_shareAt _ _ other).symm, ids_shareAt_subset _ _ other hmem⟩
  · rintro ⟨above, habove, rfl, hmem⟩
    obtain ⟨below, hbelow, rfl⟩ := Node.mem_ids.1 hmem
    have hwalk := Rose.mem_walk_trans hbelow habove
    obtain ⟨other, hother, hid⟩ := survivor hupper
    obtain rfl := Node.eq_of_id_eq distinct hother.1 habove hid
    obtain ⟨inner, hinner, hinnerId⟩ := survivor hlower
    obtain rfl := Node.eq_of_id_eq distinct hinner.1 hwalk hinnerId
    refine ⟨shareAt node.id keeper.id other, (mem_walk_shareAt distinct h).2 ⟨other, hother, rfl⟩,
      id_shareAt _ _ other, ?_⟩
    rw [← id_shareAt node.id keeper.id inner]
    apply Node.id_mem_ids
    apply Rose.editWhere_mem_walk hbelow
    intro found hfound hfoundId
    rw [Node.eq_of_id_eq distinct (Rose.mem_walk_trans hfound habove) h.node_mem
      (eq_of_beq hfoundId)]
    exact hinner.2

/-- Nodes with the same below them have the same size. -/
theorem size_eq_of_sameBelow (h : node.sameBelow keeper = true) : node.size = keeper.size := by
  have hsize (other : Node) :
      other.size = Rose.sizeForest (Rose.mapForest Beat.content other.children) + 1 := by
    rw [← Rose.size_map Beat.content other]
    obtain ⟨beat, children⟩ := other
    rfl
  rw [hsize node, hsize keeper, Rose.sameForest_iff.1 h]

theorem Shares.idsApart (distinct : root.ids.Nodup) (h : Shares root node keeper) :
    root.Apart node.id keeper.id := by
  have inside {upper lower : Node} (hupper : upper ∈ root.walk) (hlower : lower ∈ root.walk)
      (hencloses : root.Encloses upper.id lower.id) : lower ∈ upper.walk := by
    obtain ⟨found, hfound, hid, hmem⟩ := hencloses
    rw [Node.eq_of_id_eq distinct hfound hupper hid] at hmem
    obtain ⟨inner, hinner, hinnerId⟩ := Node.mem_ids.1 hmem
    rwa [← Node.eq_of_id_eq distinct (Rose.mem_walk_trans hinner hupper) hlower hinnerId]
  refine ⟨fun habove => h.apart (inside h.node_mem h.keeper_mem habove), fun hbelow => ?_⟩
  rcases Rose.mem_walk.1 (inside h.keeper_mem h.node_mem hbelow) with hsame | hmem
  · exact keeper_ne h hsame.symm
  · have hlt := Rose.size_lt_of_mem_below hmem
    rw [size_eq_of_sameBelow h.same] at hlt
    exact Nat.lt_irrefl _ hlt

end Shares

/-! ### Any number of steps -/

section Steps

variable {root after : Node}

theorem encloses_steps_iff (distinct : root.ids.Nodup) (h : Steps root after) {upper lower : Int}
    (hupper : upper ∈ after.ids) (hlower : lower ∈ after.ids) :
    after.Encloses upper lower ↔ root.Encloses upper lower := by
  induction h with
  | refl => rfl
  | tail hsteps hstep ih =>
      have hbetween := (ids_steps_subset distinct hsteps).1
      have hsub := (ids_step_subset hbetween hstep).2
      rw [← ih (hsub hupper) (hsub hlower)]
      cases hstep with
      | share hshares => exact encloses_shareAt_iff hbetween hshares hupper hlower

theorem apart_steps_iff (distinct : root.ids.Nodup) (h : Steps root after) {one other : Int}
    (hone : one ∈ after.ids) (hother : other ∈ after.ids) :
    after.Apart one other ↔ root.Apart one other := by
  have habove := encloses_steps_iff distinct h hone hother
  have hbelow := encloses_steps_iff distinct h hother hone
  exact ⟨fun ⟨first, second⟩ => ⟨mt habove.2 first, mt hbelow.2 second⟩,
    fun ⟨first, second⟩ => ⟨mt habove.1 first, mt hbelow.1 second⟩⟩

/-- A reference is one that the node had, or it stands apart from its target. -/
theorem kept_or_apart (distinct : root.ids.Nodup) (h : Steps root after) :
    ∀ node ∈ after.walk, ∀ target, (Rose.value node).ref = some target →
      (∃ old ∈ root.walk, Node.id old = Node.id node ∧ old.value.ref = some target) ∨
        root.Apart (Node.id node) target := by
  induction h with
  | refl => exact fun node hnode target href => .inl ⟨node, hnode, rfl, href⟩
  | tail hsteps hstep ih =>
      have hbetween := (ids_steps_subset distinct hsteps).1
      cases hstep with
      | @share shared keeper hshares =>
          intro node hnode target href
          obtain ⟨other, hother, rfl⟩ := (mem_walk_shareAt hbetween hshares).1 hnode
          rw [id_shareAt]
          by_cases hid : other.id = shared.id
          · rw [shareAt_of_eq hid] at href
            rw [hid, ← Option.some.inj href]
            right
            apply (apart_steps_iff distinct hsteps (Node.id_mem_ids hshares.node_mem)
              (Node.id_mem_ids hshares.keeper_mem)).1
            exact hshares.idsApart hbetween
          · rw [shareAt_of_ne hid] at href
            exact ih other hother.1 target href

end Steps

/-- If every reference names a node then so does every reference after sharing, and one that the node
did not have before leads neither to the node itself nor to a node above or below it, in the tree
that is left as little as in the tree that sharing began with. -/
theorem resolves_apart_run {root : Node} (options : Options) (unit : String)
    (distinct : root.ids.Nodup) (resolves : root.Resolves) :
    (run options unit root).1.root.Resolves ∧
      ∀ node ∈ (run options unit root).1.root.walk, ∀ target,
        (Rose.value node).ref = some target →
        (∀ old ∈ root.walk, Node.id old = Node.id node → (Rose.value old).ref ≠ some target) →
          root.Apart (Node.id node) target ∧
            (run options unit root).1.root.Apart (Node.id node) target := by
  obtain ⟨hsteps, -⟩ := steps_run options unit distinct
  have hresolves := resolves_steps distinct resolves hsteps
  refine ⟨hresolves, fun node hnode target href hnew => ?_⟩
  have hapart : root.Apart (Node.id node) target := by
    rcases kept_or_apart distinct hsteps node hnode target href with ⟨old, hold, hid, hsame⟩ | hapart
    · exact absurd hsame (hnew old hold hid)
    · exact hapart
  refine ⟨hapart, ?_⟩
  exact (apart_steps_iff distinct hsteps (Node.id_mem_ids hnode)
    (hresolves node hnode target href)).2 hapart

/-- The southern shrine becomes a reference to the northern one. -/
theorem resolves_apart_run_shrines :
    shrines.ids.Nodup ∧ shrines.Resolves ∧ (run {} "" shrines).1.root.Resolves ∧
      ∃ node ∈ (run {} "" shrines).1.root.walk, Node.id node = 6 ∧ node.value.ref = some 2 ∧
        shrines.Apart 6 2 ∧ (run {} "" shrines).1.root.Apart 6 2 := by
  have distinct : shrines.ids.Nodup := by decide
  have resolves : shrines.Resolves := Node.resolves_iff.2 (by decide)
  have hnew : ∀ old ∈ shrines.walk, Node.id old = 6 → (Rose.value old).ref ≠ some 2 := by decide
  have hmade : ∃ node ∈ (run {} "" shrines).1.root.walk,
      Node.id node = 6 ∧ (Rose.value node).ref = some 2 := by
    decide +kernel
  obtain ⟨hresolves, happly⟩ := resolves_apart_run {} "" distinct resolves
  obtain ⟨node, hnode, hid, href⟩ := hmade
  have hapart := happly node hnode 2 href
  rw [hid] at hapart
  exact ⟨distinct, resolves, hresolves, node, hnode, hid, href, hapart hnew⟩

end Share

end StoryAtlas
