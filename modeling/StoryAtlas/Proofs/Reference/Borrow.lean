import StoryAtlas.Proofs.Reference.Cousin

/-!
# Borrowing loses nothing

The conversions run one after the other, each on what the last has left. Together they do no more
than one could: a node that borrows has no reference any more, so no later conversion touches it, and
what it lists are still the children of its target, whatever has been rearranged since. Kin is gone
for good once its sort has been converted, so a second run finds nothing to do.
-/

namespace StoryAtlas.Reference

variable {kinship : Kinship} {sorts : List Kinship} {root middle after origin node : Node}
  {count more : Nat}

def sortsOf (skipCousins skipCrowded : Bool) : List Kinship :=
  if skipCousins then [.siblings]
  else if skipCrowded then [.cousins, .siblings]
  else [.crowdedCousins, .cousins, .siblings]

/-- Conversions of some sorts have made the second tree of the first. -/
structure Spent (sorts : List Kinship) (root after : Node) (count : Nat) : Prop where
  lent : Rose.Shuffled (Lent root) root after
  refs : refCount after + count = refCount root
  none : ∀ kinship ∈ sorts, ∀ node target, ¬Kin kinship after node target

theorem Spent.distinct (h : Spent sorts root after count) (distinct : root.ids.Nodup) :
    after.ids.Nodup :=
  (h.lent.map_walk_perm fun _ _ hlent => hlent.keeps.id.symm).nodup_iff.2 distinct

theorem spent_nil (root : Node) : Spent [] root root 0 where
  lent := .refl (fun _ => .inl rfl) root
  refs := rfl
  none := nofun

theorem Spent.next (h : Spent sorts root middle count)
    (hturned : Rose.Shuffled (Turned kinship middle) middle after)
    (hcount : refCount after + more = refCount middle) :
    Spent (kinship :: sorts) root after (count + more) where
  lent := lent_trans h.lent hturned
  refs := by
    have := h.refs
    omega
  none := by
    intro sort hsort
    rcases List.mem_cons.1 hsort with rfl | hsort
    · exact not_kin_of_turned hturned
    · exact not_kin_of_lent (h.none sort hsort) (hturned.imp fun _ _ => Turned.lent)

theorem spent_borrowAll (skipCousins skipCrowded : Bool) (distinct : root.ids.Nodup)
    (bare : root.Bare) :
    Spent (sortsOf skipCousins skipCrowded) root (borrowAll skipCousins skipCrowded root).1
      (borrowAll skipCousins skipCrowded root).2.1.total := by
  have hsiblings := (spent_nil root).next (Sibling.turned_convert distinct bare)
    (Sibling.refCount_convert distinct bare)
  have hdistinct := hsiblings.distinct distinct
  have hcousins := hsiblings.next (Cousin.turned_convertSimple hdistinct)
    (Cousin.refCount_convertSimple hdistinct)
  have hdistinct' := hcousins.distinct distinct
  have hcrowded := hcousins.next (Cousin.turned_convertCrowded hdistinct')
    (Cousin.refCount_convertCrowded hdistinct')
  rw [Nat.zero_add] at hsiblings hcousins hcrowded
  cases skipCousins with
  | true => exact hsiblings
  | false =>
      cases skipCrowded with
      | true => exact hcousins
      | false => exact hcrowded

/-- Borrowing moves nodes among their siblings only, and lists ids of the tree. -/
theorem relinked_borrowAll (skipCousins skipCrowded : Bool) (distinct : root.ids.Nodup)
    (bare : root.Bare) : root.Relinked (borrowAll skipCousins skipCrowded root).1 :=
  (spent_borrowAll skipCousins skipCrowded distinct bare).lent.imp fun _ _ => Lent.relinked

/-- Without kin nothing is borrowed. -/
theorem borrowAll_eq_self {skipCousins skipCrowded : Bool} (distinct : root.ids.Nodup)
    (hnone : ∀ kinship ∈ sortsOf skipCousins skipCrowded, ∀ node target,
      ¬Kin kinship root node target) :
    borrowAll skipCousins skipCrowded root = (root, {}, []) := by
  have hsiblings : Sibling.convert root = (root, 0, []) :=
    Sibling.convert_eq_self (hnone _ (by cases skipCousins <;> cases skipCrowded <;> simp [sortsOf]))
  unfold borrowAll
  rw [hsiblings]
  cases skipCousins with
  | true => rfl
  | false =>
      have hcousins : Cousin.convertSimple root = (root, 0, []) :=
        Cousin.convertSimple_eq_self distinct (hnone _ (by cases skipCrowded <;> simp [sortsOf]))
      dsimp only
      rw [hcousins]
      cases skipCrowded with
      | true => rfl
      | false =>
          dsimp only
          rw [Cousin.convertCrowded_eq_self distinct (hnone _ (by simp [sortsOf]))]
          rfl

/-! ### Nothing is lost -/

/-- The node stands for one that referred to the target, and now shows the target's children. Both
lie at one depth, and neither is in the other's subtree. -/
structure Converts (root after origin node target : Node) : Prop where
  ref : origin.value.ref = some target.id
  value : ∃ borrowed : List Int, borrowed.Perm (target.children.map Node.id) ∧
    node.value = { origin.value with ref := none, refChildren := some borrowed }
  lends : target.children ≠ []
  level : ∃ depth, Rose.Lies root depth origin ∧ Rose.Lies after depth node ∧
    Rose.Lies after depth target
  apart : target ∉ node.walk ∧ node ∉ target.walk

/-- The nodes stay, each with its children in some order and with all that it says, but for the
conversions, which are counted. -/
structure Lossless (root after : Node) (count : Nat) : Prop where
  ids : after.ids.Perm root.ids
  nodes : ∀ node ∈ after.walk, ∃ origin ∈ root.walk, Node.id node = Node.id origin ∧
    (node.children.map Node.id).Perm (origin.children.map Node.id) ∧
    (node.value = origin.value ∨ ∃ target ∈ after.walk, Converts root after origin node target)
  count : count = root.walk.countP fun node => node.value ∉ after.walk.map Rose.value

section Lent

variable (distinct : root.ids.Nodup) (bare : root.Bare)

include distinct bare in
theorem converts_of_borrows (h : Rose.Shuffled (Lent root) root after) {depth : Nat}
    (horigin : Rose.Lies root depth origin) (hnode : Rose.Lies after depth node)
    (hborrows : Borrows kinship root origin.value node.value) :
    ∃ target ∈ after.walk, Converts root after origin node target := by
  obtain ⟨borrower, lender, borrowed, hkin, hvalue, hperm, hborrowed⟩ := hborrows
  obtain rfl : borrower = origin :=
    List.inj_on_of_nodup_map distinct hkin.node_mem horigin.mem_walk (congrArg Beat.id hvalue)
  obtain ⟨other, hother, hlender⟩ := hkin.lies
  obtain rfl := horigin.unique distinct hother
  obtain ⟨target, htarget, hback⟩ := h.symm.exists_of_lies hlender
  have htargetRel := hback.symm
  have hafter : after.ids.Nodup :=
    (h.map_walk_perm fun _ _ hlent => hlent.keeps.id.symm).nodup_iff.2 distinct
  have hid : Node.id target = lender.id := htargetRel.value.keeps.id
  have hne : node ≠ target := by
    rintro rfl
    refine (hkin.apart distinct bare).1 ?_
    have hsame : lender = borrower := by
      refine List.inj_on_of_nodup_map distinct hlender.mem_walk horigin.mem_walk ?_
      rw [← hid, Node.id, hborrowed]
      rfl
    rw [hsame]
    exact Rose.self_mem_walk borrower
  have href : borrower.value.ref = some (Node.id target) := hkin.ref.trans (congrArg some hid.symm)
  refine ⟨target, htarget.mem_walk, ⟨href, ⟨borrowed, ?_, hborrowed⟩, ?_,
    ⟨depth, horigin, hnode, htarget⟩, ?_, ?_⟩⟩
  · exact hperm.trans (perm_ids_children (fun _ _ => Lent.keeps) htargetRel).symm
  · rw [Ne, htargetRel.children_eq_nil]
    exact hkin.lends
  · intro hmem
    exact hnode.notMem_below hafter htarget ((Rose.mem_walk.1 hmem).resolve_left hne.symm)
  · intro hmem
    exact htarget.notMem_below hafter hnode ((Rose.mem_walk.1 hmem).resolve_left hne)

include distinct in
/-- The beats that are there no more are those of nodes that have borrowed. -/
theorem count_of_refs (h : Rose.Shuffled (Lent root) root after)
    (hcount : refCount after + count = refCount root) :
    count = root.walk.countP fun node => node.value ∉ after.walk.map Rose.value := by
  have hafter : after.ids.Nodup :=
    (h.map_walk_perm fun _ _ hlent => hlent.keeps.id.symm).nodup_iff.2 distinct
  let refers (node : Node) : Bool := node.value.ref.isSome
  let stays (node : Node) : Bool := node.value ∈ after.walk.map Rose.value
  have hstays : refCount after = root.walk.countP fun node => refers node && stays node := by
    refine h.countP_walk (q := fun beat => beat.ref.isSome) fun origin _ node hnode hlent => ?_
    have hmem : node.value ∈ after.walk.map Rose.value := List.mem_map_of_mem hnode
    rcases hlent with hsame | ⟨kinship, hborrows⟩
    · rw [hsame] at hmem ⊢
      rw [show stays origin = true from decide_eq_true hmem, Bool.and_true]
    · obtain ⟨hrefers, hgone⟩ := hborrows.ref
      have hleft : stays origin = false := by
        refine decide_eq_false fun hthere => ?_
        obtain ⟨other, hother, hsame⟩ := List.mem_map.1 hthere
        have hid : Node.id other = Node.id node := by
          rw [Node.id, hsame]
          exact hborrows.keeps.id.symm
        rw [List.inj_on_of_nodup_map hafter hother hnode hid] at hsame
        rw [← hsame, hgone] at hrefers
        cases hrefers
      rw [hgone, hleft, Bool.and_false]
      rfl
  have hleaves : (root.walk.countP fun node => node.value ∉ after.walk.map Rose.value) =
      root.walk.countP fun node => refers node && !stays node := by
    refine List.countP_congr fun origin horigin => ?_
    simp only [stays, Bool.and_eq_true, Bool.not_eq_true', decide_eq_true_eq, decide_eq_false_iff_not]
    refine ⟨fun hgone => ⟨?_, hgone⟩, And.right⟩
    obtain ⟨node, hnode, hrel⟩ := h.exists_mem_walk horigin
    rcases hrel.value with hsame | ⟨kinship, hborrows⟩
    · exact absurd (hsame ▸ List.mem_map_of_mem hnode) hgone
    · exact hborrows.ref.1
  have hroot : refCount root = root.walk.countP refers := rfl
  rw [hroot, hstays, ← countP_and_add_countP_and_not refers stays root.walk] at hcount
  rw [hleaves]
  exact Nat.add_left_cancel hcount

include distinct bare in
theorem lossless_of_spent (h : Spent sorts root after count) : Lossless root after count where
  ids := h.lent.map_walk_perm fun _ _ hlent => hlent.keeps.id.symm
  nodes := by
    intro node hnode
    obtain ⟨depth, hdepth⟩ := Rose.exists_lies_of_mem_walk hnode
    obtain ⟨origin, horigin, hrel⟩ := h.lent.exists_of_lies hdepth
    refine ⟨origin, horigin.mem_walk, hrel.value.keeps.id,
      perm_ids_children (fun _ _ => Lent.keeps) hrel, ?_⟩
    rcases hrel.value with hsame | ⟨kinship, hborrows⟩
    · exact .inl hsame
    · exact .inr (converts_of_borrows distinct bare h.lent horigin hdepth hborrows)
  count := count_of_refs distinct h.lent h.refs

end Lent

/-- Borrowing loses nothing, and what it leaves is left as it is by a second run. -/
theorem borrowAll_lossless (skipCousins skipCrowded : Bool) (distinct : root.ids.Nodup)
    (bare : root.Bare) :
    Lossless root (borrowAll skipCousins skipCrowded root).1
      (borrowAll skipCousins skipCrowded root).2.1.total ∧
    borrowAll skipCousins skipCrowded (borrowAll skipCousins skipCrowded root).1 =
      ((borrowAll skipCousins skipCrowded root).1, {}, []) := by
  have hspent := spent_borrowAll skipCousins skipCrowded distinct bare
  exact ⟨lossless_of_spent distinct bare hspent,
    borrowAll_eq_self (hspent.distinct distinct) hspent.none⟩

def house (id : Int) (rooms : List Node) (ref : Option Int) : Node :=
  .node { id, kind := .dialogue, ref } rooms

def village : Node :=
  house 0 [
    house 1 [house 4 [house 5 [] none, house 6 [] none] none, house 7 [] (some 4)] none,
    house 2 [house 8 [house 9 [] none] none] none,
    house 3 [house 10 [] (some 8)] none,
    house 11 [house 12 [] none, house 13 [] (some 8)] none] none

/-- Each sort of kin is converted once. -/
theorem borrowAll_lossless_village :
    (village.ids.Nodup ∧ village.Bare) ∧
    (borrowAll false false village).2.1 = { siblings := 1, cousins := 1, crowdedCousins := 1 } ∧
    Lossless village (borrowAll false false village).1 3 ∧
    borrowAll false false (borrowAll false false village).1 =
      ((borrowAll false false village).1, {}, []) := by
  have distinct : village.ids.Nodup := by decide
  have bare : village.Bare := by simp [Node.Bare, village, house, Rose.everywhere_node]
  have hcounts : (borrowAll false false village).2.1 =
      { siblings := 1, cousins := 1, crowdedCousins := 1 } := by rfl
  have hlossless := borrowAll_lossless false false distinct bare
  rw [hcounts] at hlossless
  exact ⟨⟨distinct, bare⟩, hcounts, hlossless⟩

end StoryAtlas.Reference
