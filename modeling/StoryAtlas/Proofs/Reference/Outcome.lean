import StoryAtlas.Proofs.Run.Retelling
import StoryAtlas.Proofs.Split.Wrapper
import StoryAtlas.Proofs.Total

/-!
# References past wrappers

A wrapper is a choice with one child. From the target of a reference the way leads down past
wrappers, each the only child of the one before, to the first node that is none. A reference is
moved along this way, but no more than one step beyond the limit on hops. It gets to the end of the
way if there are not more choices on it than that, and then the reference stays where it is the next
time.

What a pass does with a reference depends on the types and the children of the tree alone, and these
it leaves as they are. So the order in which references are moved does not matter, and the pass
comes to a change of every beat by itself.
-/

namespace StoryAtlas.Reference

open Split (Lone)

mutual

/-- The nodes on the way down from a node, which comes first. -/
def passage : Node → List Node
  | .node beat children =>
    .node beat children :: if beat.kind = .choice then passageIn children else []

def passageIn : List Node → List Node
  | [child] => passage child
  | _ => []

end

def choices (target : Node) : Nat :=
  (passage target).countP fun node => node.value.kind = .choice

/-- The number of steps by which a reference to the target is moved. -/
def hops (target : Node) : Nat := min (hopLimit + 1) ((passage target).length - 1)

/-- The node to which a reference to the target is moved. -/
def arrival (target : Node) : Node := (passage target).getD (hops target) target

/-- The node that a beat refers to, if the beat is no choice itself. -/
def referent (root : Node) (beat : Beat) : Option Node :=
  if beat.kind = .choice then none
  else root.walk.find? fun node => beat.ref == some (Node.id node)

def moved (root : Node) (beat : Beat) : Beat :=
  match referent root beat with
  | some target => { beat with ref := some (arrival target).id }
  | none => beat

def targets (root : Node) : List Node :=
  root.walk.filterMap fun node => referent root (Rose.value node)

variable {root node target : Node} {beat : Beat}

/-! ### The way down -/

theorem passage_of_lone {child : Node} (hkind : beat.kind = .choice) :
    passage (.node beat [child]) = .node beat [child] :: passage child := by
  rw [passage, if_pos hkind, passageIn]

theorem passage_of_not_lone (h : ¬Lone node) : passage node = [node] := by
  obtain ⟨beat, children⟩ := node
  rw [passage]
  split
  · next hkind =>
    match children with
    | [] => rfl
    | [child] => exact absurd ⟨hkind, rfl⟩ h
    | _ :: _ :: _ => rfl
  · rfl

theorem exists_child_of_lone (h : Lone node) :
    ∃ beat child, node = .node beat [child] ∧ beat.kind = .choice := by
  obtain ⟨beat, children⟩ := node
  obtain ⟨hkind, hlength⟩ := h
  obtain ⟨child, rfl⟩ := List.length_eq_one_iff.1 hlength
  exact ⟨beat, child, rfl, hkind⟩

theorem exists_passage_eq (target : Node) : ∃ wrappers last, passage target = wrappers ++ [last] ∧
    (∀ wrapper ∈ wrappers, Lone wrapper) ∧ ¬Lone last := by
  induction target using Rose.induction_on with
  | node beat children ih =>
      by_cases hlone : Lone (.node beat children)
      · obtain ⟨_, child, heq, hkind⟩ := exists_child_of_lone hlone
        cases heq
        obtain ⟨wrappers, last, hpassage, hwrappers, hlast⟩ := ih child List.mem_cons_self
        refine ⟨.node beat [child] :: wrappers, last, ?_,
          List.forall_mem_cons.2 ⟨hlone, hwrappers⟩, hlast⟩
        rw [passage_of_lone hkind, hpassage]
        rfl
      · exact ⟨[], _, passage_of_not_lone hlone, nofun, hlone⟩

theorem passage_subset_walk (target : Node) : passage target ⊆ target.walk := by
  induction target using Rose.induction_on with
  | node beat children ih =>
      by_cases hlone : Lone (.node beat children)
      · obtain ⟨_, child, heq, hkind⟩ := exists_child_of_lone hlone
        cases heq
        rw [passage_of_lone hkind]
        refine List.cons_subset.2 ⟨Rose.self_mem_walk _, fun node hnode => ?_⟩
        exact Rose.mem_walk_of_mem List.mem_cons_self (ih child List.mem_cons_self hnode)
      · rw [passage_of_not_lone hlone]
        exact List.cons_subset.2 ⟨Rose.self_mem_walk _, List.nil_subset _⟩

theorem getElem?_zero_passage (target : Node) : (passage target)[0]? = some target := by
  obtain ⟨beat, children⟩ := target
  rw [passage]
  rfl

theorem length_passage_pos (target : Node) : 0 < (passage target).length :=
  (List.getElem?_eq_some_iff.1 (getElem?_zero_passage target)).1

theorem hops_of_not_lone (h : ¬Lone target) : hops target = 0 := by
  rw [hops, passage_of_not_lone h]
  rfl

theorem getElem?_hops (target : Node) : (passage target)[hops target]? = some (arrival target) := by
  have hpos := length_passage_pos target
  have hlt : hops target < (passage target).length := by
    unfold hops
    omega
  rw [arrival, List.getD_eq_getElem?_getD, List.getElem?_eq_getElem hlt, Option.getD_some]

theorem arrival_mem_walk (target : Node) : arrival target ∈ target.walk :=
  passage_subset_walk target (List.mem_of_getElem? (getElem?_hops target))

theorem arrival_of_hops_eq_zero (h : hops target = 0) : arrival target = target := by
  have harrival := getElem?_hops target
  rw [h, getElem?_zero_passage] at harrival
  exact (Option.some.inj harrival).symm

theorem exists_passage_eq_arrival (h : choices target ≤ hopLimit + 1) :
    ∃ wrappers, passage target = wrappers ++ [arrival target] ∧
      (∀ wrapper ∈ wrappers, Lone wrapper) ∧ ¬Lone (arrival target) := by
  obtain ⟨wrappers, last, hpassage, hwrappers, hlast⟩ := exists_passage_eq target
  have hcount : wrappers.length ≤ choices target := by
    rw [choices, hpassage, List.countP_append]
    refine (Nat.le_of_eq ?_).trans (Nat.le_add_right _ _)
    exact (List.countP_eq_length.2 fun wrapper hwrapper =>
      decide_eq_true (hwrappers wrapper hwrapper).1).symm
  have hhops : hops target = wrappers.length := by
    rw [hops, hpassage, List.length_append, List.length_singleton]
    omega
  have harrival := getElem?_hops target
  rw [hhops, hpassage, List.getElem?_concat_length] at harrival
  obtain rfl := Option.some.inj harrival
  exact ⟨wrappers, hpassage, hwrappers, hlast⟩

/-! ### What a beat refers to -/

theorem referent_eq_some_iff (distinct : root.ids.Nodup) :
    referent root beat = some target ↔
      beat.kind ≠ .choice ∧ target ∈ root.walk ∧ beat.ref = some (Node.id target) := by
  unfold referent
  split
  · next hkind => simp [hkind]
  · next hkind =>
    constructor
    · intro hfound
      exact ⟨hkind, List.mem_of_find?_eq_some hfound, by simpa using List.find?_some hfound⟩
    · rintro ⟨-, htarget, href⟩
      cases hfound : root.walk.find? fun node => beat.ref == some (Node.id node) with
      | none => exact absurd (beq_iff_eq.2 href) (List.find?_eq_none.1 hfound target htarget)
      | some found =>
          have hid : beat.ref = some (Node.id found) := by simpa using List.find?_some hfound
          rw [href, Option.some.injEq] at hid
          rw [Node.eq_of_id_eq distinct (List.mem_of_find?_eq_some hfound) htarget hid.symm]

theorem moved_of_referent (h : referent root beat = some target) :
    moved root beat = { beat with ref := some (arrival target).id } := by
  rw [moved, h]

theorem moved_of_no_referent (h : referent root beat = none) : moved root beat = beat := by
  rw [moved, h]

theorem moved_eq (root : Node) (beat : Beat) :
    ∃ ref, moved root beat = { beat with ref := ref } := by
  unfold moved
  split
  · exact ⟨_, rfl⟩
  · exact ⟨beat.ref, rfl⟩

@[simp] theorem id_moved : (moved root beat).id = beat.id := by
  obtain ⟨ref, hmoved⟩ := moved_eq root beat
  rw [hmoved]

@[simp] theorem kind_moved : (moved root beat).kind = beat.kind := by
  obtain ⟨ref, hmoved⟩ := moved_eq root beat
  rw [hmoved]

theorem moved_eq_self (distinct : root.ids.Nodup)
    (h : ∀ target, referent root beat = some target → ¬Lone target) : moved root beat = beat := by
  cases hfound : referent root beat with
  | none => exact moved_of_no_referent hfound
  | some target =>
      obtain ⟨-, -, href⟩ := (referent_eq_some_iff distinct).1 hfound
      rw [moved_of_referent hfound, arrival_of_hops_eq_zero (hops_of_not_lone (h target hfound)),
        ← href]

/-! ### The pass -/

/-- Going down counts the hops of the way and ends where they lead. -/
theorem descend_spec (unit : String) (referrer : Int) (left : Nat) (target : Placed) :
    (descend unit referrer left target).hops = min left ((passage target.forget).length - 1) ∧
      ((passage target.forget)[(descend unit referrer left target).hops]?).map Node.id =
        some (descend unit referrer left target).ref := by
  induction left generalizing target with
  | zero =>
      rw [descend, Nat.zero_min, getElem?_zero_passage, Option.map_some, Placed.id_forget]
      exact ⟨rfl, rfl⟩
  | succ left ih =>
      have hstays : ∀ journal : Journal, ¬Lone target.forget →
          let stay : Descent := { ref := target.id, journal := journal }
          stay.hops = min (left + 1) ((passage target.forget).length - 1) ∧
            ((passage target.forget)[stay.hops]?).map Node.id = some stay.ref := by
        intro journal hlone
        rw [passage_of_not_lone hlone]
        exact ⟨rfl, congrArg some (Placed.id_forget target)⟩
      obtain ⟨⟨place, beat⟩, children⟩ := target
      rw [descend]
      split
      · next hkind =>
        split
        · next child hchildren =>
          obtain rfl : children = [child] := hchildren
          obtain ⟨hhops, href⟩ := ih child
          have hpos := length_passage_pos (Placed.forget child)
          have hforget : Placed.forget (.node (place, beat) [child]) =
            .node beat [Placed.forget child] := rfl
          rw [hforget, passage_of_lone (show beat.kind = .choice from hkind)]
          refine ⟨?_, href⟩
          dsimp only
          rw [hhops, List.length_cons]
          omega
        · next hfork =>
          refine hstays _ fun hlone => ?_
          have hlength := hlone.2
          rw [Placed.forget, Rose.children_map, List.length_map] at hlength
          obtain ⟨child, hchildren⟩ := List.length_eq_one_iff.1 hlength
          exact hfork child hchildren
      · next hkind => exact hstays _ fun hlone => hkind hlone.1

/-- What becomes of the reference of a node, and by how many hops. -/
theorem map_pastWrappers (distinct : root.ids.Nodup) (unit : String) (node : Placed) :
    (pastWrappers unit (Index.ofPlaced root.placed) node).map (fun descent =>
        (descent.hops, descent.ref)) =
      (referent root node.beat).map fun target => (hops target, (arrival target).id) := by
  have hplaced : root.placed.ids.Nodup := (Placed.ids_placed root).symm ▸ distinct
  cases hreferent : referent root node.beat with
  | none =>
      have hnone : pastWrappers unit (Index.ofPlaced root.placed) node = none := by
        rw [← Option.not_isSome_iff_eq_none, Option.isSome_iff_exists]
        rintro ⟨descent, hdescent⟩
        unfold pastWrappers at hdescent
        obtain ⟨link, href, hdescent⟩ := Option.bind_eq_some_iff.1 hdescent
        split at hdescent
        · cases hdescent
        next hkind =>
        obtain ⟨found, hfound, -⟩ := Option.bind_eq_some_iff.1 hdescent
        obtain ⟨hmem, hid⟩ := Index.node?_eq_some hfound
        have hforget := Placed.forget_mem_walk hmem
        rw [Node.forget_placed] at hforget
        rw [(referent_eq_some_iff distinct).2 ⟨hkind, hforget, by rw [Placed.id_forget, hid, href]⟩]
          at hreferent
        cases hreferent
      rw [hnone]
      rfl
  | some target =>
      obtain ⟨hkind, htarget, href⟩ := (referent_eq_some_iff distinct).1 hreferent
      rw [← Node.forget_placed root] at htarget
      obtain ⟨origin, horigin, rfl⟩ := Placed.exists_of_mem_walk_forget htarget
      have hfound := Index.node?_of_mem hplaced horigin
      rw [Placed.id_forget] at href
      obtain ⟨hhops, hend⟩ := descend_spec unit node.id (hopLimit + 1) origin
      rw [hhops, ← hops, getElem?_hops, Option.map_some, Option.some.injEq] at hend
      simp only [pastWrappers, href, hfound, if_neg hkind, Option.bind_eq_bind, Option.bind_some,
        Option.pure_def, Option.map_some, hhops, ← hend]
      rfl

theorem root_skipWrappers (distinct : root.ids.Nodup) (unit : String) :
    (skipWrappers unit root).root = root.map (moved root) := by
  rw [skipWrappers]
  refine (Rose.annotate_eq_map (g := fun entry => moved root entry.2) fun node _ => ?_).trans ?_
  · have hmap := map_pastWrappers distinct unit node
    change _ = moved root (Placed.beat node)
    cases hreferent : referent root (Placed.beat node) with
    | none =>
        rw [hreferent, Option.map_none, Option.map_eq_none_iff] at hmap
        rw [hmap, moved_of_no_referent hreferent]
    | some target =>
        rw [hreferent, Option.map_some] at hmap
        obtain ⟨descent, hdescent, hpair⟩ := Option.map_eq_some_iff.1 hmap
        obtain ⟨hhops, href⟩ := Prod.mk.inj hpair
        rw [hdescent, moved_of_referent hreferent, ← href]
        dsimp only
        split
        · next hzero =>
          rw [hzero] at hhops
          rw [arrival_of_hops_eq_zero hhops.symm] at href
          obtain ⟨-, -, hnamed⟩ := (referent_eq_some_iff distinct).1 hreferent
          rw [href, ← hnamed]
        · rfl
  · change root.placed.map (moved root ∘ Prod.snd) = _
    rw [← Rose.map_map, ← Placed.forget, Node.forget_placed]

theorem count_skipWrappers (distinct : root.ids.Nodup) (unit : String) :
    (skipWrappers unit root).count = total ((targets root).map hops) := by
  have hwalk : root.walk = root.placed.walk.map Placed.forget :=
    (congrArg Rose.walk (Node.forget_placed root).symm).trans (Rose.walk_map _ _)
  have hcount : (skipWrappers unit root).count = total ((root.placed.walk.filterMap
      (pastWrappers unit (Index.ofPlaced root.placed))).map Descent.hops) := rfl
  rw [hcount, targets, hwalk, List.filterMap_map, List.map_filterMap, List.map_filterMap]
  congr 1
  refine List.filterMap_congr fun node _ => ?_
  have hmap := congrArg (Option.map Prod.fst) (map_pastWrappers distinct unit node)
  rw [Option.map_map, Option.map_map] at hmap
  rw [Function.comp_apply, Placed.value_forget]
  exact hmap

theorem ids_map_moved (root : Node) : Node.ids (root.map (moved root)) = root.ids :=
  Node.ids_map (f := moved root) (fun _ => id_moved) root

theorem lone_map_moved (root : Node) : Lone (node.map (moved root)) ↔ Lone node := by
  rw [Lone, Lone, Rose.value_map, kind_moved, Rose.children_map, List.length_map]

/-- Where references get to the ends of their ways, they name no wrappers afterwards. -/
theorem not_lone_of_moved (distinct : root.ids.Nodup)
    (hshort : ∀ target ∈ targets root, choices target ≤ hopLimit + 1)
    (hnode : node ∈ (root.map (moved root)).walk)
    (htarget : referent (root.map (moved root)) node.value = some target) : ¬Lone target := by
  have hagain : (Node.ids (root.map (moved root))).Nodup := (ids_map_moved root).symm ▸ distinct
  obtain ⟨hkind, hmem, href⟩ := (referent_eq_some_iff hagain).1 htarget
  rw [Rose.walk_map] at hnode hmem
  obtain ⟨old, hold, rfl⟩ := List.mem_map.1 hnode
  obtain ⟨origin, horigin, rfl⟩ := List.mem_map.1 hmem
  rw [Rose.value_map] at hkind href
  rw [kind_moved] at hkind
  rw [lone_map_moved]
  rw [Node.id, Rose.value_map, id_moved] at href
  cases hfound : referent root old.value with
  | none =>
      rw [moved_of_no_referent hfound] at href
      rw [(referent_eq_some_iff distinct).2 ⟨hkind, horigin, href⟩] at hfound
      cases hfound
  | some first =>
      obtain ⟨-, hfirst, -⟩ := (referent_eq_some_iff distinct).1 hfound
      rw [moved_of_referent hfound, Option.some.injEq] at href
      have hsame := Node.eq_of_id_eq distinct
        (Rose.mem_walk_trans (arrival_mem_walk first) hfirst) horigin href
      obtain ⟨-, -, -, hend⟩ :=
        exists_passage_eq_arrival (hshort first (List.mem_filterMap.2 ⟨old, hold, hfound⟩))
      exact hsame ▸ hend

theorem skipWrappers_of_not_lone (distinct : root.ids.Nodup) (unit : String)
    (h : ∀ node ∈ root.walk, ∀ target, referent root (Rose.value node) = some target →
      ¬Lone target) :
    (skipWrappers unit root).root = root ∧ (skipWrappers unit root).count = 0 := by
  constructor
  · rw [root_skipWrappers distinct]
    refine (Rose.map_congr fun node hnode => ?_).trans (Rose.map_id root)
    exact moved_eq_self distinct (h node hnode)
  · have hnone : (targets root).map hops = (targets root).map fun _ => 0 := by
      refine List.map_congr_left fun target htarget => ?_
      obtain ⟨node, hnode, hfound⟩ := List.mem_filterMap.1 htarget
      exact hops_of_not_lone (h node hnode target hfound)
    rw [count_skipWrappers distinct, hnone, total_map_zero]

/-- References of nodes that are no choices are moved past wrappers, each to the first node on its
way down that is no wrapper unless there are too many choices on the way. Nothing else changes. The
count is that of all hops. What a reference names afterwards is a node of the tree if it was before.
If no way is too long, a second pass changes nothing. -/
theorem skipWrappers_moves (distinct : root.ids.Nodup) (unit : String) :
    (skipWrappers unit root).root = root.map (moved root) ∧
    (∀ node ∈ root.walk, ∀ target ∈ root.walk, (Rose.value node).kind ≠ .choice →
      (Rose.value node).ref = some (Node.id target) →
        moved root (Rose.value node) =
            { Rose.value node with ref := some (arrival target).id } ∧
          (choices target ≤ hopLimit + 1 → ∃ wrappers,
            passage target = wrappers ++ [arrival target] ∧
              (∀ wrapper ∈ wrappers, Lone wrapper) ∧ ¬Lone (arrival target))) ∧
    (∀ node ∈ root.walk,
      ((Rose.value node).kind = .choice ∨
        ∀ target ∈ root.walk, (Rose.value node).ref = some (Node.id target) →
          (Rose.value target).kind ≠ .choice) →
        moved root (Rose.value node) = Rose.value node) ∧
    (skipWrappers unit root).count = total ((targets root).map hops) ∧
    (∀ node ∈ root.walk, ∀ link ∈ root.ids, (Rose.value node).ref = some link →
      ∃ next ∈ (skipWrappers unit root).root.ids, (moved root (Rose.value node)).ref = some next) ∧
    ((∀ target ∈ targets root, choices target ≤ hopLimit + 1) →
      (skipWrappers unit (skipWrappers unit root).root).root = (skipWrappers unit root).root ∧
        (skipWrappers unit (skipWrappers unit root).root).count = 0) := by
  rw [root_skipWrappers distinct, ids_map_moved]
  refine ⟨rfl, fun node _ target htarget hkind href => ⟨?_, exists_passage_eq_arrival⟩,
    fun node _ hrest => moved_eq_self distinct fun target hfound => ?_,
    count_skipWrappers distinct unit, fun node _ link hlink href => ?_, fun hshort => ?_⟩
  · exact moved_of_referent ((referent_eq_some_iff distinct).2 ⟨hkind, htarget, href⟩)
  · obtain ⟨hkind, htarget, href⟩ := (referent_eq_some_iff distinct).1 hfound
    rintro ⟨hchoice, -⟩
    exact hrest.elim hkind fun hnone => hnone target htarget href hchoice
  · cases hfound : referent root (Rose.value node) with
    | none => exact ⟨link, hlink, by rw [moved_of_no_referent hfound, href]⟩
    | some target =>
        obtain ⟨-, htarget, -⟩ := (referent_eq_some_iff distinct).1 hfound
        refine ⟨(arrival target).id, Node.id_mem_ids ?_, by rw [moved_of_referent hfound]⟩
        exact Rose.mem_walk_trans (arrival_mem_walk target) htarget
  · exact skipWrappers_of_not_lone ((ids_map_moved root).symm ▸ distinct) unit
      fun node hnode target hfound => not_lone_of_moved distinct hshort hnode hfound

def stairs : Node :=
  .node { id := 0, kind := .dialogue, text := some "A stair." }
    [.node { id := 1, kind := .choice, label := some "Climb" }
        [.node { id := 2, kind := .choice }
          [.node { id := 3, kind := .dialogue, text := some "A landing." } []]],
      .node { id := 4, kind := .choice, label := some "Wait", ref := some 1 } [],
      .node { id := 5, kind := .dialogue, text := some "Steps.", ref := some 1 } [],
      .node { id := 6, kind := .choice } [
        .node { id := 7, kind := .ending, text := some "East." } [],
        .node { id := 8, kind := .dialogue, text := some "West.", ref := some 6 } []]]

theorem skipWrappers_moves_stairs :
    stairs.ids.Nodup ∧ (∀ target ∈ targets stairs, choices target ≤ hopLimit + 1) ∧
    (skipWrappers "Stairs" stairs).root.walk.filterMap (fun node => (Rose.value node).ref) =
      [1, 3, 6] ∧
    (skipWrappers "Stairs" stairs).count = 2 ∧
    (skipWrappers "Stairs" (skipWrappers "Stairs" stairs).root).root =
      (skipWrappers "Stairs" stairs).root := by
  have distinct : stairs.ids.Nodup := by decide
  have hshort : ∀ target ∈ targets stairs, choices target ≤ hopLimit + 1 := by decide
  obtain ⟨hroot, -, -, hcount, -, hagain⟩ := skipWrappers_moves distinct "Stairs"
  refine ⟨distinct, hshort, ?_, ?_, (hagain hshort).1⟩
  · rw [hroot]
    decide
  · rw [hcount]
    decide

end StoryAtlas.Reference
