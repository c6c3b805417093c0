import Mathlib.Data.List.Perm.Basic
import StoryAtlas.Proofs.Reference.Kin

/-!
# Borrowing from siblings loses no node

A node that waits for a sibling waits for one with children. Such a sibling refers to nothing, so it
does not wait itself, and it is put down at some time. With it all that wait for it are put down, so
in the end nobody waits, and the list is a rearrangement of what it was. Lists are rearranged from
the root down, and what is rearranged above a list changes neither its nodes nor whom they refer to.
-/

namespace StoryAtlas.Reference

variable {children : List Node} {node child : Node}

namespace Sibling

def borrowFrom (child node : Node) : Node :=
  node.withValue (Borrowing.borrow (child.children.map Node.id) node.value)

theorem lastWithId_mem {id : Int} {found : Node × Nat} (h : lastWithId children id = some found) :
    found.1 ∈ children ∧ found.1.id = id := by
  obtain ⟨target, place⟩ := found
  have hmem := List.mem_of_find?_eq_some h
  have hid := List.find?_some h
  exact ⟨List.fst_mem_of_mem_zipIdx (List.mem_reverse.1 hmem), eq_of_beq hid⟩

theorem exists_target_of_convertible {entry : Node × Nat} (h : convertible children entry = true) :
    ∃ target ∈ children, entry.1.value.ref = some (Node.id target) ∧ target.children ≠ [] := by
  unfold convertible at h
  split at h
  · next target place hfound =>
    obtain ⟨id, href, hlast⟩ := Option.bind_eq_some_iff.1 hfound
    obtain ⟨hmem, hid⟩ := lastWithId_mem hlast
    rw [Bool.and_eq_true, Bool.not_eq_true', List.isEmpty_eq_false_iff] at h
    exact ⟨target, hmem, by rw [href, hid], h.2⟩
  · cases h

def Joins (children : List Node) (node after : Node) : Prop :=
  ∃ child ∈ children, node.value.ref = some (Node.id child) ∧ after = borrowFrom child node

/-- Where a row stands: what was put down are the settled children and, with what they borrow, those
who no longer wait. -/
structure Laid (children settled waiting : List Node) (row : Row) : Prop where
  done : ∃ joined, (joined ++ row.waiting).Perm waiting ∧ joined.length = row.converted ∧
    ∃ borrowed, List.Forall₂ (Joins children) joined borrowed ∧ row.done.Perm (settled ++ borrowed)
  left : ∀ child ∈ settled, ∀ node ∈ row.waiting, (Rose.value node).ref ≠ some (Node.id child)

theorem laid_settle {settled waiting : List Node} {row : Row} (hchild : child ∈ children)
    (h : Laid children settled waiting row) :
    Laid children (settled ++ [child]) waiting (settle row child) := by
  obtain ⟨joined, hjoined, hlength, borrowed, hborrowed, hdone⟩ := h.done
  let joins (node : Node) : Bool := node.value.ref == some child.id
  refine ⟨⟨joined ++ row.waiting.filter joins, ?_, ?_, borrowed ++ (row.waiting.filter joins).map
    (borrowFrom child), ?_, ?_⟩, ?_⟩
  · refine List.Perm.trans ?_ hjoined
    rw [List.append_assoc]
    exact (List.filter_append_perm joins row.waiting).append_left _
  · rw [List.length_append, hlength]
    rfl
  · apply List.rel_append hborrowed
    rw [List.forall₂_map_right_iff]
    refine List.forall₂_same.2 fun node hnode => ⟨child, hchild, ?_, rfl⟩
    exact eq_of_beq (List.mem_filter.1 hnode).2
  · show (row.done ++ child :: (row.waiting.filter joins).map (borrowFrom child)).Perm _
    apply (hdone.append_right _).trans
    rw [List.append_assoc, List.append_assoc, List.singleton_append]
    exact (List.perm_middle).append_left _
  · intro other hother node hnode href
    obtain ⟨hwaits, hnot⟩ := List.mem_filter.1 hnode
    rcases List.mem_append.1 hother with hother | hother
    · exact h.left other hother node hwaits href
    · rw [List.mem_singleton.1 hother] at href
      simp [href] at hnot

theorem laid_foldl {settled waiting later : List Node} {row : Row} (hlater : later ⊆ children)
    (h : Laid children settled waiting row) :
    Laid children (settled ++ later) waiting (later.foldl settle row) := by
  induction later generalizing settled row with
  | nil => rwa [List.append_nil]
  | cons child later ih =>
      rw [List.append_cons]
      exact ih (fun node hnode => hlater (List.mem_cons_of_mem _ hnode))
        (laid_settle (hlater List.mem_cons_self) h)

def pending (children : List Node) : List Int :=
  (children.zipIdx.filter (convertible children)).map fun (child, _) => Node.id child

theorem exists_target_of_pending (distinct : (children.map Node.id).Nodup) (hnode : node ∈ children)
    (h : node.id ∈ pending children) :
    ∃ target ∈ children, node.value.ref = some (Node.id target) ∧ target.children ≠ [] := by
  obtain ⟨entry, hentry, hid⟩ := List.mem_map.1 h
  obtain ⟨hmem, hconvertible⟩ := List.mem_filter.1 hentry
  have hsame := List.inj_on_of_nodup_map distinct (List.fst_mem_of_mem_zipIdx hmem) hnode hid
  rw [← hsame]
  exact exists_target_of_convertible hconvertible

theorem mem_pending (distinct : (children.map Node.id).Nodup)
    (bare : ∀ child ∈ children, child.Bare) {target : Node} (hnode : node ∈ children)
    (htarget : target ∈ children) (href : node.value.ref = some (Node.id target))
    (hlends : target.children ≠ []) : node.id ∈ pending children := by
  obtain ⟨place, hplace⟩ := List.mem_iff_getElem?.1 hnode
  have hentry : (node, place) ∈ children.zipIdx := List.mem_zipIdx_iff_getElem?.2 hplace
  refine List.mem_map.2 ⟨(node, place), List.mem_filter.2 ⟨hentry, ?_⟩, rfl⟩
  cases hlast : lastWithId children target.id with
  | none =>
      obtain ⟨number, hnumber⟩ := List.mem_iff_getElem?.1 htarget
      have hmissed := List.find?_eq_none.1 hlast _
        (List.mem_reverse.2 (List.mem_zipIdx_iff_getElem? (x := (target, number)).2 hnumber))
      simp at hmissed
  | some found =>
      obtain ⟨hmem, hid⟩ := lastWithId_mem hlast
      obtain ⟨other, number⟩ := found
      obtain rfl := List.inj_on_of_nodup_map distinct hmem htarget hid
      have hnumber : (other, number) ∈ children.zipIdx :=
        List.mem_reverse.1 (List.mem_of_find?_eq_some hlast)
      rw [convertible, href, Option.bind_some, hlast]
      simp only [Bool.and_eq_true, bne_iff_ne, Bool.not_eq_true', List.isEmpty_eq_false_iff]
      refine ⟨fun hsame => hlends ?_, hlends⟩
      -- the node that is found last is not the one that refers, since that has no children
      have hother := List.mem_zipIdx_iff_getElem?.1 hnumber
      rw [hsame, hplace, Option.some.injEq] at hother
      exact hother ▸ bare node hnode node (Rose.self_mem_walk node) (by rw [href]; rfl)

/-- The children that wait, and those that are put down first. -/
def waiters (children : List Node) : List Node :=
  children.filter fun node => (pending children).contains node.id

def settlers (children : List Node) : List Node :=
  children.filter fun node => !(pending children).contains node.id

theorem mem_waiters : node ∈ waiters children ↔ node ∈ children ∧ node.id ∈ pending children := by
  rw [waiters, List.mem_filter, List.contains_iff_mem]

theorem mem_settlers : node ∈ settlers children ↔ node ∈ children ∧ node.id ∉ pending children := by
  rw [settlers, List.mem_filter, Bool.not_eq_true', ← Bool.not_eq_true, List.contains_iff_mem]

theorem settlers_append_waiters (children : List Node) :
    (settlers children ++ waiters children).Perm children :=
  List.perm_append_comm.trans (List.filter_append_perm _ children)

theorem waiting_eq_nil (distinct : (children.map Node.id).Nodup)
    (bare : ∀ child ∈ children, child.Bare) {row : Row}
    (h : Laid children (settlers children) (waiters children) row) : row.waiting = [] := by
  obtain ⟨joined, hjoined, -, -⟩ := h.done
  rw [List.eq_nil_iff_forall_not_mem]
  intro node hwaits
  have hmem := hjoined.mem_iff.1 (List.mem_append_right _ hwaits)
  obtain ⟨hnode, hpending⟩ := mem_waiters.1 hmem
  obtain ⟨target, htarget, href, hchildren⟩ := exists_target_of_pending distinct hnode hpending
  refine h.left target (mem_settlers.2 ⟨htarget, ?_⟩) node hwaits href
  -- the target has children, so it refers to nothing and does not wait
  intro hwaiting
  obtain ⟨_, -, htargetRef, -⟩ := exists_target_of_pending distinct htarget hwaiting
  exact hchildren (bare target htarget target (Rose.self_mem_walk target) (by rw [htargetRef]; rfl))

/-- What a list of children becomes: those who waited have borrowed. -/
theorem arrange_laid (distinct : (children.map Node.id).Nodup)
    (bare : ∀ child ∈ children, child.Bare) :
    ∃ joined borrowed, joined.Perm (waiters children) ∧
      joined.length = (arrange children).converted ∧ List.Forall₂ (Joins children) joined borrowed ∧
      (arrange children).done.Perm (settlers children ++ borrowed) := by
  unfold arrange
  dsimp only
  split
  · next hnobody =>
    rw [← pending, List.isEmpty_iff] at hnobody
    rw [settlers, waiters, hnobody]
    exact ⟨[], [], by simp, rfl, .nil, by simp⟩
  · have hstart : Laid children [] (waiters children) { waiting := waiters children } :=
      ⟨⟨[], .refl _, rfl, [], .nil, .refl _⟩, nofun⟩
    have hsettlers : settlers children ⊆ children := List.filter_sublist.subset
    have hend := laid_foldl hsettlers hstart
    rw [List.nil_append] at hend
    obtain ⟨joined, hjoined, hlength, borrowed, hborrowed, hdone⟩ := hend.done
    rw [waiting_eq_nil distinct bare hend, List.append_nil] at hjoined
    exact ⟨joined, borrowed, hjoined, hlength, hborrowed, hdone⟩

/-- What becomes of a child: it borrows from the sibling that it refers to, or there is none to
borrow from and it stays. -/
def Sits (children : List Node) (node after : Node) : Prop :=
  (after = node ∧ ∀ target ∈ children, node.value.ref = some (Node.id target) →
    target.children = []) ∨
  ∃ target ∈ children, node.value.ref = some (Node.id target) ∧ target.children ≠ [] ∧
    after = borrowFrom target node

theorem Sits.children_eq {after : Node} (h : Sits children node after) :
    after.children = node.children := by
  rcases h with ⟨rfl, -⟩ | ⟨target, -, -, -, rfl⟩ <;> rfl

theorem arrange_perm (distinct : (children.map Node.id).Nodup)
    (bare : ∀ child ∈ children, child.Bare) :
    ∃ arranged, (arrange children).done.Perm arranged ∧
      List.Forall₂ (Sits children) children arranged := by
  obtain ⟨joined, borrowed, hjoined, -, hborrowed, hdone⟩ := arrange_laid distinct bare
  have hchildren : children.Perm (settlers children ++ joined) :=
    (settlers_append_waiters children).symm.trans (hjoined.symm.append_left _)
  have hsettlers : ∀ node ∈ settlers children, Sits children node node := by
    intro node hnode
    obtain ⟨hmem, hidle⟩ := mem_settlers.1 hnode
    refine .inl ⟨rfl, fun target htarget href => ?_⟩
    by_contra hlends
    exact hidle (mem_pending distinct bare hmem htarget href hlends)
  have hjoins : List.Forall₂ (Sits children) joined borrowed := by
    refine Rose.forall₂_imp_of_mem (fun node hnode after _ hjoins => ?_) hborrowed
    obtain ⟨child, hchild, href, hafter⟩ := hjoins
    obtain ⟨hmem, hpending⟩ := mem_waiters.1 (hjoined.mem_iff.1 hnode)
    obtain ⟨target, htarget, hsame, hlends⟩ := exists_target_of_pending distinct hmem hpending
    rw [href, Option.some.injEq] at hsame
    obtain rfl := List.inj_on_of_nodup_map distinct hchild htarget hsame
    exact .inr ⟨child, hchild, href, hlends, hafter⟩
  refine (List.perm_comp_forall₂ hchildren
    (List.rel_append (List.forall₂_same.2 hsettlers) hjoins)).imp fun arranged h => ?_
  exact ⟨hdone.trans h.2.symm, h.1⟩

/-- Each conversion takes one reference away. -/
theorem refCount_arrange (distinct : (children.map Node.id).Nodup)
    (bare : ∀ child ∈ children, child.Bare) :
    total ((arrange children).done.map refCount) + (arrange children).converted =
      total (children.map refCount) := by
  obtain ⟨joined, borrowed, hjoined, hlength, hborrowed, hdone⟩ := arrange_laid distinct bare
  have hcount : total (borrowed.map refCount) + joined.length = total (joined.map refCount) := by
    clear hlength hjoined hdone
    induction hborrowed with
    | nil => rfl
    | @cons node after joined borrowed hjoins _ ih =>
        obtain ⟨child, -, href, rfl⟩ := hjoins
        obtain ⟨beat, grandchildren⟩ := node
        rw [Rose.value_node] at href
        have hnode : refCount (borrowFrom child (.node beat grandchildren)) + 1 =
            refCount (.node beat grandchildren) := by
          rw [borrowFrom, Rose.withValue, refCount_node, refCount_node, href]
          simp [Borrowing.borrow, Nat.add_comm]
        simp only [List.map_cons, total_cons, List.length_cons]
        omega
  rw [← total_perm ((settlers_append_waiters children).map refCount),
    total_perm (hdone.map refCount), List.map_append, List.map_append, total_append, total_append,
    ← total_perm (hjoined.map refCount), ← hcount, hlength]
  omega

/-! ### The pass -/

/-- A node as the pass leaves it that goes so many levels down, and how much it converts below. -/
def turn : Nat → Node → Node
  | 0, node => node
  | levels + 1, node => node.withChildren ((arrange node.children).done.map (turn levels))

def converted : Nat → Node → Nat
  | 0, _ => 0
  | levels + 1, node =>
    (arrange node.children).converted + total ((arrange node.children).done.map (converted levels))

theorem convertForest_eq (levels : Nat) (nodes : List Node) :
    (convertForest levels nodes).nodes = nodes.map (turn levels) ∧
      (convertForest levels nodes).count = total (nodes.map (converted levels)) := by
  induction levels generalizing nodes with
  | zero =>
      have hturn : turn 0 = id := rfl
      have hconverted : converted 0 = fun _ => 0 := rfl
      rw [convertForest, hturn, hconverted, List.map_id]
      exact ⟨rfl, (total_map_zero nodes).symm⟩
  | succ levels ih =>
      rw [convertForest]
      suffices h : ∀ done : Converted,
          let result := nodes.foldl (fun done node =>
            let row := arrange node.children
            let below := convertForest levels row.done
            { nodes := done.nodes ++ [node.withChildren below.nodes]
              count := done.count + row.converted + below.count
              journal := done.journal ++ row.journal ++ below.journal }) done
          result.nodes = done.nodes ++ nodes.map (turn (levels + 1)) ∧
            result.count = done.count + total (nodes.map (converted (levels + 1))) by
        obtain ⟨hnodes, hcount⟩ := h { nodes := [] }
        exact ⟨hnodes, hcount.trans (Nat.zero_add _)⟩
      induction nodes with
      | nil => exact fun done => ⟨(List.append_nil _).symm, rfl⟩
      | cons node nodes ihn =>
          intro done
          obtain ⟨hnodes, hcount⟩ := ihn _
          obtain ⟨hbelow, hbelowCount⟩ := ih (arrange node.children).done
          refine ⟨hnodes.trans ?_, hcount.trans ?_⟩
          · dsimp only
            rw [hbelow, List.append_assoc, List.map_cons]
            rfl
          · dsimp only
            rw [hbelowCount, List.map_cons, total_cons, converted]
            omega

/-- A node of the tree as it stands when its children are looked at: it may have borrowed, and its
children are those it had. -/
structure Stands (root origin node : Node) : Prop where
  mem : origin ∈ root.walk
  children : node.children = Rose.children origin
  turned : Turned .siblings root (Rose.value origin) node.value

section Tree

variable {root : Node} (distinct : root.ids.Nodup) (bare : root.Bare)

include distinct in
/-- Who sits among the children of a node stands there. -/
theorem stands_of_sits {parent after : Node} (hparent : parent ∈ root.walk)
    (hnode : node ∈ parent.children) (h : Sits parent.children node after) :
    Stands root node after := by
  have hmem := Rose.mem_walk_trans (Rose.mem_walk_of_mem_children hnode) hparent
  refine ⟨hmem, h.children_eq, ?_⟩
  rcases h with ⟨rfl, hnone⟩ | ⟨target, htarget, href, hlends, rfl⟩
  · refine .inl ⟨rfl, fun other target hvalue hkin => ?_⟩
    have hid : Node.id other = Node.id after := congrArg Beat.id hvalue
    obtain rfl := List.inj_on_of_nodup_map distinct hkin.node_mem hmem hid
    obtain ⟨depth, parent', other', hparent', hother', hchild, htarget, hsame⟩ := hkin.related
    obtain rfl := List.inj_on_of_nodup_map distinct hparent'.mem_walk hother'.mem_walk hsame
    obtain rfl := Rose.parent_unique distinct hparent hparent'.mem_walk hnode hchild rfl
    exact hkin.lends (hnone target htarget hkin.ref)
  · obtain ⟨depth, hdepth⟩ := Rose.exists_lies_of_mem_walk hparent
    refine .inr ⟨node, target, target.children.map Node.id, ⟨href, hlends, ?_⟩, rfl, .refl _, rfl⟩
    exact ⟨depth, parent, parent, hdepth, hdepth, hnode, htarget, rfl⟩

include distinct in
theorem stands_root : Stands root root root := by
  refine ⟨Rose.self_mem_walk root, rfl, .inl ⟨rfl, fun node target hvalue hkin => ?_⟩⟩
  have hid : Node.id node = root.id := congrArg Beat.id hvalue
  obtain rfl := List.inj_on_of_nodup_map distinct hkin.node_mem (Rose.self_mem_walk root) hid
  obtain ⟨depth, parent, -, hparent, -, hchild, -⟩ := hkin.related
  have := (hparent.child hchild).add_size_le
  omega

include distinct bare in
/-- The nodes below are turned as far as the levels go. -/
theorem turned_turn (levels : Nat) {origin : Node} (h : Stands root origin node)
    (hsize : node.size ≤ levels) :
    Rose.Shuffled (Turned .siblings root) origin (turn levels node) := by
  induction levels generalizing origin node with
  | zero => exact absurd (Rose.size_pos node) (Nat.not_lt.2 hsize)
  | succ levels ih =>
      obtain ⟨beat, children⟩ := origin
      obtain ⟨hmem, hchildren, hturned⟩ := h
      obtain ⟨arranged, hperm, hsits⟩ := arrange_perm (Rose.nodup_children distinct hmem)
        fun child hchild => bare.of_mem_walk
          (Rose.mem_walk_trans (Rose.mem_walk_of_mem_children hchild) hmem)
      rw [turn, hchildren]
      refine Rose.shuffled_iff.2 ⟨hturned, arranged.map (turn levels), hperm.map _, ?_⟩
      rw [List.forall₂_map_right_iff]
      refine Rose.forall₂_imp_of_mem (fun child hchild after _ hafter => ?_) hsits
      refine ih (stands_of_sits distinct hmem hchild hafter) ?_
      have hsame : after.size = child.size := by
        rw [Rose.size_eq, Rose.size_eq, hafter.children_eq]
      have hle := Rose.size_le_of_mem hchild
      rw [Rose.size_eq, hchildren, Rose.children_node] at hsize
      omega

include distinct in
theorem turned_convert (bare : root.Bare) :
    Rose.Shuffled (Turned .siblings root) root (convert root).1 := by
  have hroot := turned_turn distinct bare root.size (stands_root distinct) (Nat.le_refl _)
  rw [convert, (convertForest_eq root.size [root]).1]
  exact hroot

theorem refCount_turn (distinct : root.ids.Nodup) (bare : root.Bare) (levels : Nat) {origin : Node}
    (hmem : origin ∈ root.walk) (hchildren : node.children = origin.children) :
    refCount (turn levels node) + converted levels node = refCount node := by
  induction levels generalizing origin node with
  | zero => rfl
  | succ levels ih =>
      obtain ⟨beat, children⟩ := node
      rw [Rose.children_node] at hchildren
      have hids : (children.map Node.id).Nodup := hchildren ▸ Rose.nodup_children distinct hmem
      have hbare : ∀ child ∈ children, Node.Bare child := fun child hchild => bare.of_mem_walk
        (Rose.mem_walk_trans (Rose.mem_walk_of_mem_children (hchildren ▸ hchild)) hmem)
      have hbelow : ∀ after ∈ (arrange children).done,
          refCount (turn levels after) + converted levels after = refCount after := by
        intro after hafter
        obtain ⟨arranged, hperm, hsits⟩ := arrange_perm hids hbare
        obtain ⟨child, hchild, hsit⟩ := Rose.exists_of_mem_right hsits (hperm.mem_iff.1 hafter)
        refine ih (Rose.mem_walk_trans (Rose.mem_walk_of_mem_children ?_) hmem) hsit.children_eq
        exact hchildren ▸ hchild
      have hcount := refCount_arrange hids hbare
      rw [← List.map_congr_left hbelow, total_map_add] at hcount
      rw [turn, converted, Rose.withChildren, Rose.value_node, Rose.children_node, refCount_node,
        refCount_node, List.map_map]
      rw [← Function.comp_def] at hcount
      omega

theorem refCount_convert (distinct : root.ids.Nodup) (bare : root.Bare) :
    refCount (convert root).1 + (convert root).2.1 = refCount root := by
  obtain ⟨hnodes, hcount⟩ := convertForest_eq root.size [root]
  rw [convert, hnodes, hcount]
  exact refCount_turn distinct bare root.size (Rose.self_mem_walk root) rfl

theorem convertForest_eq_self (levels : Nat) (nodes : List Node)
    (h : ∀ node ∈ Rose.walkForest nodes, pending (Rose.children node) = []) :
    convertForest levels nodes = { nodes := nodes } := by
  induction levels generalizing nodes with
  | zero => rfl
  | succ levels ih =>
      rw [convertForest]
      suffices hfold : ∀ done : List Node, nodes.foldl (fun done node =>
          let row := arrange node.children
          let below := convertForest levels row.done
          ({ nodes := done.nodes ++ [node.withChildren below.nodes]
             count := done.count + row.converted + below.count
             journal := done.journal ++ row.journal ++ below.journal } : Converted))
          { nodes := done } = { nodes := done ++ nodes } from hfold []
      induction nodes with
      | nil => exact fun done => by rw [List.append_nil]; rfl
      | cons node nodes ihn =>
          intro done
          have hnode : arrange node.children = { done := node.children, waiting := [] } := by
            have hnobody := h node (Rose.mem_walkForest.2 ⟨node, by simp, Rose.self_mem_walk node⟩)
            rw [pending] at hnobody
            rw [arrange, hnobody]
            rfl
          have hbelow := ih node.children fun below hbelow => h below <|
            Rose.mem_walkForest.2 ⟨node, by simp, Rose.mem_walk.2 (.inr hbelow)⟩
          have hstep := ihn (fun other hother => h other (List.mem_append_right _ hother))
            (done ++ [node])
          rw [List.foldl_cons]
          dsimp only
          rw [hnode, hbelow]
          rw [List.append_assoc, List.singleton_append] at hstep
          obtain ⟨beat, children⟩ := node
          exact hstep

theorem convert_eq_self (hnone : ∀ node target, ¬Kin .siblings root node target) :
    convert root = (root, 0, []) := by
  have hpending : ∀ parent ∈ Rose.walkForest [root], pending (Rose.children parent) = [] := by
    intro parent hparent
    rw [Rose.walkForest, Rose.walkForest, List.append_nil] at hparent
    obtain ⟨depth, hdepth⟩ := Rose.exists_lies_of_mem_walk hparent
    rw [List.eq_nil_iff_forall_not_mem]
    intro id hid
    obtain ⟨entry, hentry, -⟩ := List.mem_map.1 hid
    obtain ⟨hmem, hconvertible⟩ := List.mem_filter.1 hentry
    obtain ⟨target, htarget, href, hlends⟩ := exists_target_of_convertible hconvertible
    have hchild : entry.1 ∈ parent.children := List.fst_mem_of_mem_zipIdx hmem
    exact hnone entry.1 target
      ⟨href, hlends, depth, parent, parent, hdepth, hdepth, hchild, htarget, rfl⟩
  rw [convert, convertForest_eq_self root.size [root] hpending]
  rfl

end Tree

end Sibling

end StoryAtlas.Reference
