import StoryAtlas.Proofs.Reference.Pair
import StoryAtlas.Proofs.Reference.Sibling

/-!
# Borrowing from cousins loses no node

Pairs are found once, in the tree that the pass starts from, and used while the tree changes. Places
make that safe. The tree stays what it was but for the order of children and what the nodes of pairs
have borrowed, so a node still has the children it had, in some order, and the current version of a
pair's branch is still a child of the pair's ancestor. Putting the branches of an ancestor in a new
order therefore puts each of them down exactly once.
-/

namespace StoryAtlas.Reference

namespace Cousin

variable {numbers : List Int} {root placed : Placed}

/-- The nodes of these pairs have borrowed what their targets have, and all others stay. -/
def Given (done : List Pair) (old new : Nat × Beat) : Prop :=
  new.1 = old.1 ∧ ((new.2 = old.2 ∧ ∀ pair ∈ done, pair.node.place ≠ old.1) ∨
    ∃ pair ∈ done, pair.node.place = old.1 ∧ ∃ borrowed : List Int,
      borrowed.Perm (pair.target.children.map Placed.id) ∧
        new.2 = Borrowing.borrow borrowed old.2)

theorem Given.keeps {done : List Pair} {old new : Nat × Beat} (h : Given done old new) :
    new.1 = old.1 ∧ Keeps old.2 new.2 := by
  refine ⟨h.1, ?_⟩
  rcases h.2 with ⟨hsame, -⟩ | ⟨pair, -, -, borrowed, -, hnew⟩
  · rw [hsame]
    exact ⟨rfl, fun _ href => href⟩
  · rw [hnew]
    exact keeps_borrow borrowed old.2

theorem given_nil (placed : Placed) : Rose.Shuffled (Given []) placed placed :=
  .refl (fun _ => ⟨rfl, .inl ⟨rfl, nofun⟩⟩) placed

theorem Given.borrow {done : List Pair} {pair : Pair} {borrowed : List Int} {old new : Nat × Beat}
    (hperm : borrowed.Perm (pair.target.children.map Placed.id)) (h : Given done old new) :
    Given (done ++ [pair]) old
      (if new.1 = pair.node.place then (new.1, Borrowing.borrow borrowed new.2) else new) := by
  split
  · next hplace =>
    refine ⟨h.1, .inr ⟨pair, by simp, hplace.symm.trans h.1, borrowed, hperm, ?_⟩⟩
    -- what was borrowed before is given up
    rcases h.2 with ⟨hsame, -⟩ | ⟨_, -, -, _, -, hnew⟩
    · rw [hsame]
    · rw [hnew]
      rfl
  · next hplace =>
    refine ⟨h.1, h.2.imp (fun hidle => ⟨hidle.1, fun other hother => ?_⟩) ?_⟩
    · rcases List.mem_append.1 hother with hother | hother
      · exact hidle.2 other hother
      · rw [List.mem_singleton.1 hother, ← h.1]
        exact fun hsame => hplace hsame.symm
    · rintro ⟨other, hother, hrest⟩
      exact ⟨other, List.mem_append_left _ hother, hrest⟩

theorem Given.relinked {done : List Pair} (hdone : ∀ pair ∈ done, pair.target ∈ placed.walk)
    (h : Rose.Shuffled (Given done) placed root) :
    Placed.Relinked (Placed.ids placed) placed root := by
  refine h.imp fun old new hnew => ⟨hnew.1, ?_⟩
  rcases hnew.2 with ⟨hsame, -⟩ | ⟨pair, hpair, -, borrowed, hperm, hsame⟩
  · rw [hsame]
    exact .refl _
  · rw [hsame]
    refine ⟨⟨rfl, rfl, nofun⟩, fun link hlink => .inr ?_⟩
    obtain ⟨child, hchild, rfl⟩ := List.mem_map.1 (hperm.mem_iff.1 hlink)
    have htarget := hdone pair hpair
    exact Placed.id_mem_ids (Rose.mem_walk_trans (Rose.mem_walk_of_mem_children hchild) htarget)

/-! ### Groups of pairs -/

theorem groupBy_spec {key : Pair → Int} {found group : List Pair} (h : group ∈ groupBy key found) :
    (∀ pair ∈ group, pair ∈ found) ∧ ∀ pair ∈ group, ∀ other ∈ group, key pair = key other := by
  have hgroups : ∀ entry ∈ found.foldl (fun groups pair =>
      Register.put (key pair) ((Register.get? (key pair) groups).getD [] ++ [pair]) groups)
      ([] : Register Int (List Pair)), ∀ pair ∈ entry.2, pair ∈ found ∧ key pair = entry.1 := by
    refine List.foldlRecOn (motive := fun groups : Register Int (List Pair) =>
      ∀ entry ∈ groups, ∀ pair ∈ entry.2, pair ∈ found ∧ key pair = entry.1) found _ nofun ?_
    intro groups hgroups pair hpair entry hentry
    rcases Register.mem_put hentry with rfl | hentry
    · intro other hother
      rcases List.mem_append.1 hother with hother | hother
      · cases hget : Register.get? (key pair) groups with
        | none => simp [hget] at hother
        | some known =>
            rw [hget] at hother
            exact hgroups _ (Register.mem_of_get? hget) other hother
      · rw [List.mem_singleton.1 hother]
        exact ⟨hpair, rfl⟩
    · exact hgroups entry hentry
  obtain ⟨entry, hentry, rfl⟩ := List.mem_map.1 h
  refine ⟨fun pair hpair => (hgroups entry hentry pair hpair).1, fun pair hpair other hother => ?_⟩
  rw [(hgroups entry hentry pair hpair).2, (hgroups entry hentry other hother).2]

theorem mem_flatten_groupBy {key : Pair → Int} {found : List Pair} {pair : Pair} :
    pair ∈ (groupBy key found).flatten ↔ pair ∈ found := by
  constructor
  · intro h
    obtain ⟨group, hgroup, hpair⟩ := List.mem_flatten.1 h
    exact (groupBy_spec hgroup).1 pair hpair
  · suffices hall : ∀ groups : Register Int (List Pair),
        (pair ∈ found ∨ ∃ group, Register.get? (key pair) groups = some group ∧ pair ∈ group) →
          ∃ group, Register.get? (key pair) (found.foldl (fun groups pair =>
            Register.put (key pair) ((Register.get? (key pair) groups).getD [] ++ [pair]) groups)
            groups) = some group ∧ pair ∈ group by
      intro h
      obtain ⟨group, hgroup, hpair⟩ := hall [] (.inl h)
      exact List.mem_flatten.2
        ⟨group, List.mem_map_of_mem (Register.mem_of_get? hgroup), hpair⟩
    induction found with
    | nil => exact fun groups h => h.resolve_left List.not_mem_nil
    | cons first found ih =>
        intro groups h
        apply ih
        rcases h with h | ⟨group, hgroup, hpair⟩
        · rcases List.mem_cons.1 h with rfl | h
          · exact .inr ⟨_, by rw [Register.get?_put, if_pos rfl], by simp⟩
          · exact .inl h
        · refine .inr ?_
          rw [Register.get?_put]
          split
          · next hkey => exact ⟨_, rfl, by rw [← hkey, hgroup]; simp [hpair]⟩
          · exact ⟨group, hgroup, hpair⟩

theorem exists_of_mem_followers {group : List Pair} {entry : Int × Placed}
    (h : entry ∈ followers group) : ∃ pair ∈ group, entry.2 = pair.nodeHead := by
  have hall : ∀ entry ∈ followers group, ∃ pair ∈ group, entry.2 = pair.nodeHead := by
    refine List.foldlRecOn (motive := fun follows : Register Int Placed =>
      ∀ entry ∈ follows, ∃ pair ∈ group, entry.2 = pair.nodeHead) group _ nofun ?_
    intro follows hfollows pair hpair entry hentry
    split at hentry
    · exact hfollows entry hentry
    · rcases Register.mem_put hentry with rfl | hentry
      · exact ⟨pair, hpair, rfl⟩
      · exact hfollows entry hentry
  exact hall entry h

/-! ### What a tree has become -/

section Current

variable {node child : Placed}

/-- A child of a node is, in its current version, a child of the node's current version. -/
theorem current_mem_children (places : (Placed.places placed).Nodup)
    (h : Placed.Relinked numbers placed root) (hnode : node ∈ placed.walk)
    (hcurrent : root.current node ∈ root.walk) (hchild : child ∈ node.children) :
    root.current child ∈ (root.current node).children ∧ (root.current child).id = child.id := by
  have hrootPlaces : (Placed.places root).Nodup := h.places_perm.nodup_iff.2 places
  have hplace : (root.current node).place = node.place := by
    rcases Placed.current_cases root node with ⟨-, hplace⟩ | ⟨hsame, -⟩
    · exact hplace
    · rw [hsame]
  obtain ⟨origin, horigin, hrel⟩ := Rose.Shuffled.exists_of_mem_walk h hcurrent
  have horiginPlace : Placed.place origin = node.place := by
    rw [← hplace]
    exact hrel.value.1.symm
  rw [Placed.eq_of_place_eq places horigin hnode horiginPlace] at hrel
  obtain ⟨now, hnow, hchildRel⟩ := hrel.exists_child hchild
  have hwalk := Rose.mem_walk_trans (Rose.mem_walk_of_mem_children hnow) hcurrent
  have hsame : root.current child = now := by
    have hfound := Placed.atPlace?_of_mem hrootPlaces hwalk
    rw [show Placed.place now = child.place from hchildRel.value.1] at hfound
    rw [Placed.current, hfound, Option.getD_some]
  rw [hsame]
  exact ⟨hnow, hchildRel.value.2.id⟩

theorem perm_ids_current {done : List Pair} (places : (Placed.places placed).Nodup)
    (h : Rose.Shuffled (Given done) placed root) (hnode : node ∈ placed.walk) :
    ((root.current node).children.map Placed.id).Perm (node.children.map Placed.id) := by
  have hrootPlaces : (Placed.places root).Nodup :=
    (h.map_walk_perm fun _ _ hnew => hnew.1.symm).nodup_iff.2 places
  obtain ⟨now, hnow, hrel⟩ := h.exists_mem_walk hnode
  have hfound := Placed.atPlace?_of_mem hrootPlaces hnow
  rw [show Placed.place now = node.place from hrel.value.1] at hfound
  rw [Placed.current, hfound, Option.getD_some]
  exact hrel.map_children_perm fun _ _ hnew => hnew.keeps.2.id.symm

theorem reordered_setChildren_current {children : List Placed} (places : (Placed.places root).Nodup)
    (h : root.current node ∈ root.walk → children.Perm (root.current node).children) :
    Rose.Shuffled Eq root (root.setChildren (root.current node).place children) := by
  refine Rose.shuffled_editWhere (fun _ => rfl) fun other hother hplace => ?_
  have hplace : Placed.place other = (root.current node).place := eq_of_beq hplace
  rcases Placed.current_cases root node with ⟨hmem, -⟩ | ⟨hsame, hgone⟩
  · rw [Placed.eq_of_place_eq places hother hmem hplace]
    exact h hmem
  · rw [hsame] at hplace
    exact absurd hplace (hgone other hother)

end Current

/-! ### Putting branches down -/

/-- A row of distinct children, and their ids. -/
structure Rowed (children : List Placed) (row : Row) : Prop where
  placed : row.placed = row.done.map Placed.id
  distinct : row.placed.Nodup
  done : row.done ⊆ children

theorem rowed_push {children : List Placed} {row : Row} {branch : Placed}
    (h : Rowed children row) (hbranch : branch ∈ children) (hnew : branch.id ∉ row.placed) :
    Rowed children (row.push branch) where
  placed := by
    show row.placed ++ [branch.id] = (row.done ++ [branch]).map Placed.id
    rw [h.placed, List.map_append]
    rfl
  distinct := by
    apply List.Nodup.append h.distinct (List.nodup_singleton _)
    rw [List.disjoint_singleton]
    exact hnew
  done := by
    intro other hother
    rcases List.mem_append.1 hother with hother | hother
    · exact h.done hother
    · rw [List.mem_singleton.1 hother]
      exact hbranch

section Branches

variable {children : List Placed} {follows : Register Int Placed}
  (partners : ∀ entry ∈ follows,
    root.current entry.2 ∈ children ∧ (root.current entry.2).id = entry.2.id)

include partners in
theorem rowed_putBranch {row : Row} {branch : Placed} (h : Rowed children row)
    (hbranch : branch ∈ children) :
    Rowed children (putBranch root follows row branch) ∧
      row.placed ⊆ (putBranch root follows row branch).placed ∧
      branch.id ∈ (putBranch root follows row branch).placed := by
  unfold putBranch
  split
  · next hthere => exact ⟨h, List.Subset.refl _, List.contains_iff_mem.1 hthere⟩
  · next hnew =>
    rw [List.contains_iff_mem] at hnew
    have hpushed := rowed_push h hbranch hnew
    have hgrown : row.placed ⊆ (row.push branch).placed := List.subset_append_left _ _
    have hthere : branch.id ∈ (row.push branch).placed :=
      List.mem_append_right _ (List.mem_singleton_self _)
    dsimp only
    split
    · next partner hpartner =>
      obtain ⟨hmem, hid⟩ := partners _ (Register.mem_of_get? hpartner)
      split
      · exact ⟨hpushed, hgrown, hthere⟩
      · next hnewPartner =>
        rw [List.contains_iff_mem, ← hid] at hnewPartner
        exact ⟨rowed_push hpushed hmem hnewPartner, List.Subset.trans hgrown
          (List.subset_append_left _ _), List.mem_append_left _ hthere⟩
    · exact ⟨hpushed, hgrown, hthere⟩

include partners in
theorem rowed_foldl {row : Row} {branches : List Placed} (h : Rowed children row)
    (hbranches : branches ⊆ children) :
    Rowed children (branches.foldl (putBranch root follows) row) ∧
      row.placed ⊆ (branches.foldl (putBranch root follows) row).placed ∧
      ∀ branch ∈ branches,
        Placed.id branch ∈ (branches.foldl (putBranch root follows) row).placed := by
  induction branches generalizing row with
  | nil => exact ⟨h, List.Subset.refl _, nofun⟩
  | cons branch branches ih =>
      obtain ⟨hput, hgrown, hthere⟩ := rowed_putBranch partners h (hbranches List.mem_cons_self)
      obtain ⟨hend, hmore, hall⟩ :=
        ih hput fun other hother => hbranches (List.mem_cons_of_mem _ hother)
      refine ⟨hend, List.Subset.trans hgrown hmore, fun other hother => ?_⟩
      rcases List.mem_cons.1 hother with rfl | hother
      · exact hmore hthere
      · exact hall other hother

include partners in
theorem putBranches_perm (distinct : (children.map Placed.id).Nodup) :
    (children.foldl (putBranch root follows) {}).done.Perm children := by
  have hstart : Rowed children {} := ⟨rfl, List.nodup_nil, nofun⟩
  obtain ⟨hrow, -, hall⟩ := rowed_foldl partners hstart (List.Subset.refl children)
  have hdone : (children.foldl (putBranch root follows) {}).done.Nodup := by
    have := hrow.distinct
    rw [hrow.placed] at this
    exact this.of_map
  apply (List.perm_ext_iff_of_nodup hdone distinct.of_map).2
  intro branch
  refine ⟨fun hbranch => hrow.done hbranch, fun hbranch => ?_⟩
  have hid := hall branch hbranch
  rw [hrow.placed] at hid
  obtain ⟨other, hother, hsame⟩ := List.mem_map.1 hid
  rw [← List.inj_on_of_nodup_map distinct (hrow.done hother) hbranch hsame]
  exact hother

end Branches

/-! ### The passes -/

section Passes

variable (distinct : (Placed.ids placed).Nodup) (places : (Placed.places placed).Nodup)
  {done : List Pair}

theorem Given.reorder {after : Placed} (h : Rose.Shuffled (Given done) placed root)
    (horder : Rose.Shuffled Eq root after) : Rose.Shuffled (Given done) placed after :=
  h.trans (fun _ _ _ hnew hsame => hsame ▸ hnew) horder

include places in
theorem given_borrow {state : State} {pair : Pair} (htarget : pair.target ∈ placed.walk)
    (h : Rose.Shuffled (Given done) placed state.root) :
    Rose.Shuffled (Given (done ++ [pair])) placed (borrow state pair).root := by
  have hedit : Rose.Shuffled (fun old new => new = if old.1 = pair.node.place then (old.1,
      Borrowing.borrow ((state.root.current pair.target).children.map Placed.id) old.2) else old)
      state.root (borrow state pair).root := Rose.shuffled_map fun _ _ => rfl
  refine h.trans (fun old new last hnew hlast => ?_) hedit
  rw [hlast]
  exact hnew.borrow (perm_ids_current places h htarget)

include places in
theorem given_foldl_borrow {group : List Pair} {state : State}
    (hgroup : ∀ pair ∈ group, pair.target ∈ placed.walk)
    (h : Rose.Shuffled (Given done) placed state.root) :
    Rose.Shuffled (Given (done ++ group)) placed (group.foldl borrow state).root := by
  induction group generalizing done state with
  | nil => rwa [List.append_nil]
  | cons pair group ih =>
      rw [List.append_cons]
      exact ih (fun other hother => hgroup other (List.mem_cons_of_mem _ hother))
        (given_borrow places (hgroup pair List.mem_cons_self) h)

include distinct places in
theorem given_joinBranches {group : List Pair} {state : State}
    (hdone : ∀ pair ∈ done, pair.target ∈ placed.walk) (hgroup : ∀ pair ∈ group, Found placed pair)
    (hsame : ∀ pair ∈ group, ∀ other ∈ group, pair.ancestor.id = other.ancestor.id)
    (h : Rose.Shuffled (Given done) placed state.root) :
    Rose.Shuffled (Given (done ++ group)) placed (joinBranches state group).root := by
  cases group with
  | nil => rwa [List.append_nil]
  | cons first group =>
      refine given_foldl_borrow places (fun pair hpair => (hgroup pair hpair).target)
        (Given.reorder h ?_)
      have hrelinked := Given.relinked hdone h
      have hfirst := hgroup first List.mem_cons_self
      apply reordered_setChildren_current (hrelinked.places_perm.nodup_iff.2 places)
      intro hcurrent
      refine putBranches_perm (fun entry hentry => ?_) ?_
      · -- all branches of the group are children of the one ancestor
        obtain ⟨pair, hpair, hhead⟩ := exists_of_mem_followers hentry
        have hfound := hgroup pair hpair
        have hancestor : pair.ancestor = first.ancestor :=
          Placed.eq_of_id_eq distinct hfound.ancestor hfirst.ancestor
            (hsame pair hpair first List.mem_cons_self)
        rw [hhead]
        apply current_mem_children places hrelinked hfirst.ancestor hcurrent
        rw [← hancestor]
        exact hfound.nodeHead
      · have hids : (Placed.ids state.root).Nodup := hrelinked.ids_perm.nodup_iff.2 distinct
        exact Rose.nodup_children hids hcurrent

include distinct places in
theorem given_foldl_joinBranches {groups : List (List Pair)} {state : State}
    (hdone : ∀ pair ∈ done, pair.target ∈ placed.walk)
    (hgroups : ∀ group ∈ groups, (∀ pair ∈ group, Found placed pair) ∧
      ∀ pair ∈ group, ∀ other ∈ group, pair.ancestor.id = other.ancestor.id)
    (h : Rose.Shuffled (Given done) placed state.root) :
    Rose.Shuffled (Given (done ++ groups.flatten)) placed
      (groups.foldl joinBranches state).root := by
  induction groups generalizing done state with
  | nil => rwa [List.flatten_nil, List.append_nil]
  | cons group groups ih =>
      obtain ⟨hgroup, hsame⟩ := hgroups group List.mem_cons_self
      rw [List.flatten_cons, ← List.append_assoc]
      refine ih (fun pair hpair => ?_)
        (fun other hother => hgroups other (List.mem_cons_of_mem _ hother))
        (given_joinBranches distinct places hdone hgroup hsame h)
      rcases List.mem_append.1 hpair with hpair | hpair
      · exact hdone pair hpair
      · exact (hgroup pair hpair).target

theorem reordered_regroup {parentOf memberOf : Pair → Placed} {toFront : Bool} {group : List Pair}
    (hplaces : (Placed.places root).Nodup) :
    Rose.Shuffled Eq root (regroup parentOf memberOf toFront root group) := by
  unfold regroup
  split
  · exact .refl (fun _ => rfl) root
  · next first rest =>
    apply reordered_setChildren_current hplaces
    intro _
    split
    · exact List.filter_append_perm _ _
    · exact List.perm_append_comm.trans (List.filter_append_perm _ _)

include places in
theorem given_foldl_regroup {parentOf memberOf : Pair → Placed} {toFront : Bool}
    {groups : List (List Pair)} (h : Rose.Shuffled (Given done) placed root) :
    Rose.Shuffled (Given done) placed (groups.foldl (regroup parentOf memberOf toFront) root) := by
  refine List.foldlRecOn (motive := fun root => Rose.Shuffled (Given done) placed root) groups _ h ?_
  intro root hroot group _
  have hplaces := (hroot.map_walk_perm fun _ _ hnew => hnew.1.symm).nodup_iff.2 places
  exact Given.reorder hroot (reordered_regroup hplaces)

theorem pair_of_mem_pairs (distinct : (Placed.ids placed).Nodup)
    (places : (Placed.places placed).Nodup) {onlyChildren : Bool} {pair : Pair}
    (h : pair ∈ pairs onlyChildren placed) : pair.node ∈ placed.walk ∧ Found placed pair ∧
      Kin (sought onlyChildren) placed.forget pair.node.forget pair.target.forget := by
  obtain ⟨node, hnode, hpair⟩ := List.mem_filterMap.1 h
  obtain ⟨rfl, hspec⟩ := kin_of_pair? distinct places hnode hpair
  exact ⟨hnode, hspec⟩

end Passes

section Tree

variable {root : Node}

/-- A pass that gives to the nodes of all pairs lets all borrow who have such kin. -/
theorem turned_of_given (distinct : root.ids.Nodup) {onlyChildren : Bool} {after : Placed}
    (h : Rose.Shuffled (Given (pairs onlyChildren root.placed)) root.placed after) :
    Rose.Shuffled (Turned (sought onlyChildren) root) root after.forget := by
  have hids : root.placed.ids.Nodup := (Placed.ids_placed root).symm ▸ distinct
  have places := Placed.nodup_places_placed root
  have hroot := Node.forget_placed root
  have hvalues : Rose.Shuffled (fun old new => Turned (sought onlyChildren) root old.2 new.2)
      root.placed after := by
    refine h.imp_of_mem fun node hnode new hnew => ?_
    rcases hnew.2 with ⟨hsame, hidle⟩ | ⟨pair, hpair, hplace, borrowed, hperm, hsame⟩
    · refine .inl ⟨hsame, fun other target hvalue hkin => ?_⟩
      have hother : other = Placed.forget node := by
        refine List.inj_on_of_nodup_map distinct hkin.node_mem ?_ ?_
        · rw [← hroot]
          exact Placed.forget_mem_walk hnode
        · rw [Node.id, hvalue, Placed.id_forget]
          rfl
      rw [hother, ← hroot] at hkin
      obtain ⟨pair, hpair⟩ := Option.isSome_iff_exists.1 (isSome_pair? hids places hnode hkin)
      obtain ⟨rfl, -⟩ := kin_of_pair? hids places hnode hpair
      exact hidle pair (List.mem_filterMap.2 ⟨_, hnode, hpair⟩) rfl
    · obtain ⟨hmem, -, hkin⟩ := pair_of_mem_pairs hids places hpair
      obtain rfl := Placed.eq_of_place_eq places hmem hnode hplace
      rw [hroot] at hkin
      refine .inr ⟨_, _, borrowed, hkin, Placed.value_forget _, hperm.trans (.of_eq ?_), hsame⟩
      rw [Placed.forget, Rose.children_map, List.map_map]
      exact List.map_congr_left fun child _ => (Placed.id_forget child).symm
  have hforget := Rose.Shuffled.map_map (f := Prod.snd) (g := Prod.snd) hvalues
  rwa [show Rose.map Prod.snd root.placed = root from hroot] at hforget

/-- Only which pairs have been done matters, not their order. -/
theorem Given.congr {done other : List Pair} {placed after : Placed}
    (hmem : ∀ pair, pair ∈ done ↔ pair ∈ other) (h : Rose.Shuffled (Given done) placed after) :
    Rose.Shuffled (Given other) placed after := by
  refine h.imp fun old new hnew => ⟨hnew.1, hnew.2.imp (fun hidle => ?_) ?_⟩
  · exact ⟨hidle.1, fun pair hpair => hidle.2 pair ((hmem pair).2 hpair)⟩
  · rintro ⟨pair, hpair, hrest⟩
    exact ⟨pair, (hmem pair).1 hpair, hrest⟩

theorem given_convertSimple (distinct : root.ids.Nodup) :
    ∃ after, (convertSimple root).1 = Placed.forget after ∧
      Rose.Shuffled (Given (pairs true root.placed)) root.placed after := by
  have hids : root.placed.ids.Nodup := (Placed.ids_placed root).symm ▸ distinct
  have places := Placed.nodup_places_placed root
  have hnone : ∀ pair ∈ ([] : List Pair), pair.target ∈ root.placed.walk := fun _ hpair =>
    absurd hpair List.not_mem_nil
  refine ⟨_, rfl, Given.congr (fun pair => ?_) (given_foldl_joinBranches hids places hnone
    (fun group hgroup => ?_) (given_nil root.placed))⟩
  · rw [List.nil_append, mem_flatten_groupBy]
  · obtain ⟨hmem, hsame⟩ := groupBy_spec hgroup
    exact ⟨fun pair hpair => (pair_of_mem_pairs hids places (hmem pair hpair)).2.1, hsame⟩

theorem given_convertCrowded (distinct : root.ids.Nodup) :
    ∃ after, (convertCrowded root).1 = Placed.forget after ∧
      Rose.Shuffled (Given (pairs false root.placed)) root.placed after := by
  have hids : root.placed.ids.Nodup := (Placed.ids_placed root).symm ▸ distinct
  have places := Placed.nodup_places_placed root
  refine ⟨_, rfl, Given.congr (fun pair => by rw [List.nil_append]) (given_foldl_borrow places
    (fun pair hpair => ?_) (given_foldl_regroup places (given_foldl_regroup places
      (given_nil root.placed))))⟩
  exact (pair_of_mem_pairs hids places hpair).2.1.target

/-- Whoever has a cousin to borrow from borrows, and each takes one reference away. -/
theorem turned_convertSimple (distinct : root.ids.Nodup) :
    Rose.Shuffled (Turned .cousins root) root (convertSimple root).1 := by
  obtain ⟨after, hafter, hgiven⟩ := given_convertSimple distinct
  exact hafter ▸ turned_of_given distinct hgiven

theorem turned_convertCrowded (distinct : root.ids.Nodup) :
    Rose.Shuffled (Turned .crowdedCousins root) root (convertCrowded root).1 := by
  obtain ⟨after, hafter, hgiven⟩ := given_convertCrowded distinct
  exact hafter ▸ turned_of_given distinct hgiven

theorem refCount_forget (root : Placed) :
    refCount root.forget = root.walk.countP fun node => (Placed.beat node).ref.isSome := by
  rw [refCount, Placed.forget, Rose.walk_map, List.countP_map]
  refine List.countP_congr fun node _ => ?_
  rw [Function.comp_apply, Rose.value_map]
  exact Iff.rfl

def paired (root : Placed) (onlyChildren : Bool) (node : Placed) : Bool :=
  (pair? (Index.ofPlaced root) onlyChildren node).isSome

theorem length_pairs (root : Node) (onlyChildren : Bool) :
    (pairs onlyChildren root.placed).length = root.placed.walk.countP fun node =>
      (Placed.beat node).ref.isSome && paired root.placed onlyChildren node := by
  rw [pairs, List.length_filterMap_eq_countP]
  refine List.countP_congr fun node hnode => ⟨fun hsome => ?_, fun hboth => ?_⟩
  · obtain ⟨pair, hpair⟩ := Option.isSome_iff_exists.1 hsome
    obtain ⟨ref, href, -⟩ := (tested_of_pair? hpair).ref
    exact Bool.and_eq_true_iff.2 ⟨Option.isSome_iff_exists.2 ⟨ref, href⟩, hsome⟩
  · exact (Bool.and_eq_true_iff.1 hboth).2

/-- The references that are left are those for which no pair was found. -/
theorem refCount_left {onlyChildren : Bool} {after : Placed}
    (h : Rose.Shuffled (Given (pairs onlyChildren root.placed)) root.placed after) :
    refCount after.forget = root.placed.walk.countP fun node =>
      (Placed.beat node).ref.isSome && !paired root.placed onlyChildren node := by
  have places := Placed.nodup_places_placed root
  rw [refCount_forget]
  refine h.countP_walk (q := fun entry => entry.2.ref.isSome) fun node hnode new _ hnew => ?_
  rcases hnew.2 with ⟨hsame, hidle⟩ | ⟨pair, hpair, hplace, borrowed, -, hsame⟩
  · have hnone : paired root.placed onlyChildren node = false := by
      rw [paired, Option.isSome_eq_false_iff, Option.isNone_iff_eq_none,
        Option.eq_none_iff_forall_ne_some]
      intro pair hpair
      refine hidle pair (List.mem_filterMap.2 ⟨node, hnode, hpair⟩) ?_
      rw [(tested_of_pair? hpair).owner]
      rfl
    rw [hsame, hnone, Bool.not_false, Bool.and_true]
    rfl
  · obtain ⟨other, hother, hfound⟩ := List.mem_filterMap.1 hpair
    obtain rfl := (tested_of_pair? hfound).owner
    obtain rfl := Placed.eq_of_place_eq places hother hnode hplace
    have hsome : paired root.placed onlyChildren pair.node = true :=
      Option.isSome_iff_exists.2 ⟨pair, hfound⟩
    rw [hsame, hsome, Bool.not_true, Bool.and_false]
    rfl

/-- As many references go as pairs were found. -/
theorem refCount_of_given {onlyChildren : Bool} {after : Placed}
    (h : Rose.Shuffled (Given (pairs onlyChildren root.placed)) root.placed after) :
    refCount after.forget + (pairs onlyChildren root.placed).length = refCount root := by
  have hroot : refCount root = refCount root.placed.forget :=
    congrArg refCount (Node.forget_placed root).symm
  rw [refCount_left h, length_pairs, hroot, refCount_forget, Nat.add_comm]
  exact countP_and_add_countP_and_not _ _ root.placed.walk

theorem refCount_convertSimple (distinct : root.ids.Nodup) :
    refCount (convertSimple root).1 + (convertSimple root).2.1 = refCount root := by
  obtain ⟨after, hafter, hgiven⟩ := given_convertSimple distinct
  exact hafter ▸ refCount_of_given hgiven

theorem refCount_convertCrowded (distinct : root.ids.Nodup) :
    refCount (convertCrowded root).1 + (convertCrowded root).2.1 = refCount root := by
  obtain ⟨after, hafter, hgiven⟩ := given_convertCrowded distinct
  exact hafter ▸ refCount_of_given hgiven

theorem pairs_eq_nil (distinct : root.ids.Nodup) {onlyChildren : Bool}
    (hnone : ∀ node target, ¬Kin (sought onlyChildren) root node target) :
    pairs onlyChildren root.placed = [] := by
  have hids : root.placed.ids.Nodup := (Placed.ids_placed root).symm ▸ distinct
  rw [List.eq_nil_iff_forall_not_mem]
  intro pair hpair
  obtain ⟨-, -, hkin⟩ := pair_of_mem_pairs hids (Placed.nodup_places_placed root) hpair
  rw [show root.placed.forget = root from Node.forget_placed root] at hkin
  exact hnone _ _ hkin

theorem convertSimple_eq_self (distinct : root.ids.Nodup)
    (hnone : ∀ node target, ¬Kin .cousins root node target) :
    convertSimple root = (root, 0, []) := by
  have hpairs : pairs true root.placed = [] := pairs_eq_nil distinct hnone
  rw [convertSimple, hpairs]
  exact Prod.ext (Node.forget_placed root) rfl

theorem convertCrowded_eq_self (distinct : root.ids.Nodup)
    (hnone : ∀ node target, ¬Kin .crowdedCousins root node target) :
    convertCrowded root = (root, 0, []) := by
  have hpairs : pairs false root.placed = [] := pairs_eq_nil distinct hnone
  rw [convertCrowded, hpairs]
  exact Prod.ext (Node.forget_placed root) rfl

end Tree

end Cousin

end StoryAtlas.Reference
