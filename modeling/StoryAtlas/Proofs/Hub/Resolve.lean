import StoryAtlas.Proofs.Hub.Redirect

/-!
# What folding hubs leaves of the references

Members of a hub group collapse without regard to what refers to the nodes below them. A reference to
a member that is gone is redirected and ends at a node that stays, but a reference to any other node
that is gone stays as it was.
-/

namespace StoryAtlas.Hub

section Run

variable {root : Placed} {bound : Nat} {state : State}

/-- What the collapsed tree refers to is what the nodes that stay referred to, and what members were
redirected to. -/
theorem Folding.refs_collapse (distinct : root.ids.Nodup) (h : Folding root bound state) :
    (∀ node ∈ (root.collapse state.collapsed).walk, ∀ target, (Placed.beat node).ref = some target →
      target ∈ (root.collapse state.collapsed).ids ∨ Register.holds target state.redirects) ↔
    ∀ node ∈ root.walk, Placed.id node ∈ (root.collapse state.collapsed).ids →
      ∀ target, (Placed.beat node).ref = some target →
        target ∈ (root.collapse state.collapsed).ids ∨ Register.holds target state.redirects := by
  constructor
  · intro hgood node hnode hid target href
    obtain ⟨after, hafter, hsame⟩ := Placed.mem_ids.1 hid
    obtain ⟨origin, horigin, rfl⟩ := Placed.mem_walk_collapse hafter
    rw [Placed.id_collapse] at hsame
    obtain rfl := Placed.eq_of_id_eq distinct horigin hnode hsame
    refine hgood _ hafter target ?_
    rw [Placed.collapse_of_none (h.open_of_free horigin ?_)]
    · exact href
    · by_contra hkey
      rw [h.ref_eq_none distinct horigin (Option.isSome_iff_ne_none.2 hkey)] at href
      cases href
  · intro hgood node hnode target href
    obtain ⟨origin, horigin, rfl⟩ := Placed.mem_walk_collapse hnode
    cases hget : Register.get? (Placed.place origin) state.collapsed with
    | none =>
        refine hgood origin horigin (Placed.mem_ids.2 ⟨_, hnode, Placed.id_collapse _ _⟩) target ?_
        rwa [Placed.collapse_of_none hget] at href
    | some stays =>
        rw [Placed.collapse_of_some hget] at href
        obtain rfl : stays = target := Option.some.inj href
        cases hend : Register.get? stays state.redirects with
        | some next => exact .inr (by rw [Register.holds, hend]; rfl)
        | none =>
            obtain ⟨last, hlast, hid, -⟩ :=
              (h.fits distinct).settled _ stays (h.alike origin horigin stays hget) hend
            exact .inl (Placed.mem_ids.2 ⟨last, hlast, hid⟩)

end Run

/-- After folding all references resolve exactly if those of the nodes that stay named nodes that
stay or members that were redirected. -/
theorem resolves_run_iff {root : Node} (distinct : root.ids.Nodup) (minChoices : Int) (unit : String) :
    (run minChoices true unit root).1.root.Resolves ↔
      ∀ node ∈ root.walk, Node.id node ∈ (run minChoices true unit root).1.root.ids →
        ∀ target, node.value.ref = some target →
          target ∈ (run minChoices true unit root).1.root.ids ∨
            Register.holds target (folded minChoices root).redirects := by
  rw [root_run]
  split
  · next hempty =>
    rw [List.isEmpty_iff.1 hempty]
    constructor
    · exact fun h node hnode _ target href => .inl (h node hnode target href)
    · intro h node hnode target href
      exact (h node hnode (Node.id_mem_ids hnode) target href).resolve_right Bool.false_ne_true
  · obtain ⟨bound, h⟩ := folding_folded minChoices root
    rw [← Placed.ids_placed] at distinct
    have hcollapsed := distinct.sublist
      (Placed.ids_collapse_sublist (folded minChoices root).collapsed root.placed)
    rw [Reference.resolves_resolvePlaced_iff hcollapsed (h.fits distinct),
      h.refs_collapse distinct, Placed.ids_forget, Reference.ids_resolvePlaced hcollapsed]
    have hwalk : root.walk = root.placed.walk.map Placed.forget :=
      (congrArg Rose.walk (Node.forget_placed root)).symm.trans (Rose.walk_map _ _)
    rw [hwalk, List.forall_mem_map]
    simp only [Placed.id_forget, Placed.value_forget]

/-- A crossroads whose signs stand again at a mill, with a path that ends at another node. -/
def crossroads (target : Int) : Node :=
  .node { id := 0, kind := .dialogue, text := some "A crossroads." } [
    .node { id := 1, kind := .dialogue, text := some "A mill.", label := some "East" } [
      .node { id := 4, kind := .ending, text := some "A barn.", label := some "East" } [],
      .node { id := 5, kind := .ending, text := some "A pond.", label := some "North" } []],
    .node { id := 2, kind := .ending, text := some "A hill.", label := some "North" } [],
    .node { id := 3, kind := .dialogue, text := some "A path.", label := some "West",
            ref := some target } []]

section Crossroads

variable (target : Int)

def crossing : Member := ⟨(crossroads target).placed, 0⟩

def mill : Member := ⟨((crossroads target).placed.children.head?).getD default, 1⟩

def signs : Group := ⟨sortTexts ["East", "North", "West"], [crossing target, mill target]⟩

theorem groups_crossroads : groups 3 (crossroads target).placed = [signs target] := rfl

theorem folded_crossroads : folded 3 (crossroads target) =
    { redirects := [(1, 0)], removed := [4, 5], collapsed := [(1, 0)] } := by
  have hsorted : (signs target).members.mergeSort (State.before {}) =
      [crossing target, mill target] := by
    refine List.mergeSort_of_pairwise (List.pairwise_pair.2 ?_)
    exact State.before_iff.2 (.inl Nat.zero_lt_one)
  rw [folded, groups_crossroads, List.filter_cons_of_pos (by rfl), List.filter_nil, List.foldl_cons,
    List.foldl_nil, State.foldGroup, hsorted]
  rfl

theorem ids_crossroads : (run 3 true "" (crossroads target)).1.root.ids = [0, 1, 2, 3] := by
  have hids : Placed.ids ((crossroads target).placed.collapse [(1, 0)]) = [0, 1, 2, 3] := rfl
  rw [root_run, folded_crossroads, if_neg (by decide), Placed.ids_forget,
    Reference.ids_resolvePlaced (by rw [hids]; decide), hids]

end Crossroads

/-- A path to the mill leads to the crossroads afterwards. -/
theorem resolves_run_crossroads :
    (crossroads 1).ids.Nodup ∧ (run 3 true "" (crossroads 1)).1.root.Resolves := by
  refine ⟨by decide, (resolves_run_iff (by decide) 3 "").2 fun node hnode _ target href => .inr ?_⟩
  have hmem : target ∈ (crossroads 1).walk.filterMap fun node => node.value.ref :=
    List.mem_filterMap.2 ⟨node, hnode, href⟩
  rw [show ((crossroads 1).walk.filterMap fun node => node.value.ref) = [1] from rfl,
    List.mem_singleton] at hmem
  rw [hmem, folded_crossroads]
  rfl

/-- A path to the barn still does lead there when the barn is gone. -/
theorem not_resolves_run_crossroads :
    (crossroads 4).ids.Nodup ∧ (crossroads 4).Bare ∧ (crossroads 4).Resolves ∧
      ¬(run 3 true "" (crossroads 4)).1.root.Resolves := by
  refine ⟨by decide, ?_, Node.resolves_iff.2 (by decide), fun h => ?_⟩
  · simp [Node.Bare, crossroads, Rose.everywhere_node]
  · have hrefs : ((run 3 true "" (crossroads 4)).1.root.walk.map fun node =>
        (Node.id node, node.value.ref)) = [(0, none), (1, some 0), (2, none), (3, some 4)] := by
      rw [root_run, folded_crossroads]
      rfl
    have hpath : ((3, some 4) : Int × Option Int) ∈ (run 3 true "" (crossroads 4)).1.root.walk.map
        fun node => (Node.id node, node.value.ref) := by
      rw [hrefs]
      decide
    obtain ⟨path, hpath, hpair⟩ := List.mem_map.1 hpath
    have hmem := h path hpath 4 (congrArg Prod.snd hpair)
    rw [ids_crossroads] at hmem
    revert hmem
    decide

end StoryAtlas.Hub
