import StoryAtlas.Proofs.Hub.Resolve
import StoryAtlas.Proofs.Reference.Settle

/-!
# Folding hubs settles references

The groups of a tree may overlap, so the node that one group collapses onto may collapse with
another, and members may be gone before their group comes up. The table of redirections still does
not go round, and where it leads in the end nothing leads on. So a circle of the table and the tree
would pass no key of the table: it would be made of references that the tree had before. Unless there
was one, every reference names the end of its chain afterwards.
-/

namespace StoryAtlas.Hub

open Reference

/-! ### What becomes of what is redirected -/

section Duplicates

variable {root : Placed} {state : State}

/-- Ids that are known to be gone are those of nodes below one that is collapsed, and what is
redirected is collapsed or gone. -/
structure Accounted (root : Placed) (state : State) : Prop where
  removed : ∀ id ∈ state.removed, ∃ upper ∈ root.walk,
    Register.holds (Placed.place upper) state.collapsed ∧
      ∃ node ∈ Rose.walkForest upper.children, Placed.id node = id
  keys : ∀ key, Register.holds key state.redirects → key ∈ state.removed ∨
    ∃ node ∈ root.walk, Placed.id node = key ∧
      Register.holds (Placed.place node) state.collapsed

theorem accounted_empty (root : Placed) : Accounted root {} := ⟨nofun, nofun⟩

theorem exists_below_of_mem_descendantIds {targets : Register Nat Int} {node : Placed} {id : Int}
    (h : id ∈ (node.collapse targets).descendantIds) :
    ∃ below ∈ Rose.walkForest node.children, Placed.id below = id := by
  obtain ⟨after, hafter, rfl⟩ := List.mem_map.1 h
  cases hget : Register.get? node.place targets with
  | some target =>
      rw [Placed.collapse_of_some hget] at hafter
      cases hafter
  | none =>
      rw [Placed.collapse_of_none hget] at hafter
      obtain ⟨_, hmap, hafter⟩ := Rose.mem_walkForest.1 hafter
      obtain ⟨child, hchild, rfl⟩ := List.mem_map.1 hmap
      obtain ⟨below, hbelow, rfl⟩ := Placed.mem_walk_collapse hafter
      exact ⟨below, Rose.mem_walkForest.2 ⟨child, hchild, hbelow⟩, (Placed.id_collapse _ _).symm⟩

namespace Accounted

theorem fold {canonical : Int} {member : Member} (hmember : Belongs root member)
    (h : Accounted root state) : Accounted root (state.fold canonical member) := by
  unfold State.fold
  dsimp only
  split
  · exact h
  · split
    · next hgone =>
      refine ⟨h.removed, fun key hkey => ?_⟩
      rcases Register.holds_put.1 hkey with rfl | hkey
      · exact .inl (List.contains_iff_mem.1 hgone)
      · exact h.keys key hkey
    · refine ⟨fun id hid => ?_, fun key hkey => ?_⟩
      · rcases List.mem_append.1 hid with hid | hid
        · obtain ⟨upper, hupper, hheld, hbelow⟩ := h.removed id hid
          exact ⟨upper, hupper, Register.holds_put.2 (.inr hheld), hbelow⟩
        · exact ⟨member.node, hmember.mem_walk, Register.holds_put.2 (.inl rfl),
            exists_below_of_mem_descendantIds hid⟩
      · rcases Register.holds_put.1 hkey with rfl | hkey
        · exact .inr ⟨member.node, hmember.mem_walk, rfl, Register.holds_put.2 (.inl rfl)⟩
        · rcases h.keys key hkey with hgone | ⟨node, hnode, hid, hheld⟩
          · exact .inl (List.mem_append_left _ hgone)
          · exact .inr ⟨node, hnode, hid, Register.holds_put.2 (.inr hheld)⟩

theorem foldGroup {group : Group} (hgroup : ∀ member ∈ group.members, Belongs root member)
    (h : Accounted root state) : Accounted root (state.foldGroup group) := by
  unfold State.foldGroup
  split
  · next canonical others hsorted =>
    have hothers : ∀ member ∈ others, Belongs root member := fun member hmember =>
      hgroup member ((List.mergeSort_perm _ state.before).mem_iff.1
        (hsorted ▸ List.mem_cons_of_mem _ hmember))
    split
    · exact h
    · exact List.foldlRecOn others _ h fun later hlater member hmember =>
        hlater.fold (hothers member hmember)
  · exact h

/-- What is redirected and still there refers to where it is redirected. -/
theorem ref_collapse {bound : Nat} (distinct : root.ids.Nodup) (h : Accounted root state)
    (hfolding : Folding root bound state) {after : Placed}
    (hafter : after ∈ (root.collapse state.collapsed).walk) {target : Int}
    (hkey : Redirects state.redirects after.id target) : after.beat.ref = some target := by
  obtain ⟨origin, horigin, rfl⟩ := Placed.mem_walk_collapse hafter
  have hstays := Placed.id_mem_ids hafter
  rw [Placed.id_collapse] at hkey hstays
  rcases h.keys _ (Option.isSome_iff_exists.2 ⟨target, hkey⟩) with
    hgone | ⟨node, hnode, hid, hheld⟩
  · obtain ⟨upper, hupper, hheld, node, hbelow, hid⟩ := h.removed _ hgone
    exact absurd (hid ▸ hstays) (Placed.id_notMem_ids_collapse distinct hupper hheld hbelow)
  · obtain rfl := Placed.eq_of_id_eq distinct hnode horigin hid
    obtain ⟨other, hother⟩ := Option.isSome_iff_exists.1 hheld
    have hsame := hfolding.alike node hnode other hother
    rw [Redirects, hkey, Option.some.injEq] at hsame
    rw [Placed.collapse_of_some hother, hsame]
    rfl

end Accounted

end Duplicates

section Run

variable {root : Node} {minChoices : Int} {unit : String}

theorem accounted_folded (minChoices : Int) (root : Node) :
    Accounted root.placed (folded minChoices root) :=
  List.foldlRecOn _ _ (accounted_empty root.placed) fun _ h _ hgroup =>
    h.foldGroup (belongs_of_mem_groups (List.mem_filter.1 hgroup).1)

/-- The tree with its groups collapsed and no reference followed yet. -/
def collapsedTree (minChoices : Int) (root : Node) : Node :=
  (root.placed.collapse (folded minChoices root).collapsed).forget

/-! ### Chains of the table and the tree -/

theorem nodup_collapsed (distinct : root.ids.Nodup) (minChoices : Int) :
    (root.placed.collapse (folded minChoices root).collapsed).ids.Nodup :=
  ((Placed.ids_placed root).symm ▸ distinct).sublist (Placed.ids_collapse_sublist _ _)

theorem nodup_collapsedTree (distinct : root.ids.Nodup) (minChoices : Int) :
    (collapsedTree minChoices root).ids.Nodup := by
  rw [collapsedTree, Placed.ids_forget]
  exact nodup_collapsed distinct minChoices

theorem refers_collapsedTree (distinct : root.ids.Nodup) {id target : Int} :
    Refers (refsIn (collapsedTree minChoices root)) id target ↔
      ∃ node ∈ (root.placed.collapse (folded minChoices root).collapsed).walk,
        Placed.id node = id ∧ (Placed.beat node).ref = some target := by
  rw [collapsedTree, ← refsOf_eq_refsIn (nodup_collapsed distinct minChoices)]
  constructor
  · exact exists_of_refers_refsOf
  · rintro ⟨node, hnode, rfl, href⟩
    rw [Refers, get?_refsOf (nodup_collapsed distinct minChoices) hnode, href]
    rfl

theorem refers_of_mem_walk (distinct : root.ids.Nodup) {node : Placed}
    (hnode : node ∈ root.placed.walk) {target : Int} :
    Refers (refsIn root) node.id target ↔ node.beat.ref = some target := by
  have hplaced : root.placed.ids.Nodup := (Placed.ids_placed root).symm ▸ distinct
  rw [← congrArg refsIn (Node.forget_placed root), ← refsOf_eq_refsIn hplaced, Refers,
    get?_refsOf hplaced hnode, Option.join_some]

/-- A chain leaves a node that is not redirected by the reference that it had before. -/
theorem leads_of_leads_collapsedTree (distinct : root.ids.Nodup) {place next : Int}
    (h : Leads (folded minChoices root).redirects (refsIn (collapsedTree minChoices root)) place next)
    (hkey : Register.get? place (folded minChoices root).redirects = none) :
    Leads [] (refsIn root) place next := by
  obtain ⟨bound, hfolding⟩ := folding_folded minChoices root
  rw [Leads, onward_of_not_redirected hkey] at h
  obtain ⟨node, hnode, rfl, href⟩ := (refers_collapsedTree distinct).1 h
  obtain ⟨origin, horigin, rfl⟩ := Placed.mem_walk_collapse hnode
  rw [Placed.id_collapse] at hkey ⊢
  rw [Placed.collapse_of_none (hfolding.open_of_free horigin hkey)] at href
  exact leads_of_refers rfl ((refers_of_mem_walk distinct horigin).2 href)

/-- Folding brings no circle about. -/
theorem not_round_collapsedTree (distinct : root.ids.Nodup)
    (acyclic : ∀ id, ¬Round [] (refsIn root) id) (place : Int) :
    ¬Round (folded minChoices root).redirects (refsIn (collapsedTree minChoices root)) place := by
  obtain ⟨bound, hfolding⟩ := folding_folded minChoices root
  have hfits := hfolding.fits ((Placed.ids_placed root).symm ▸ distinct)
  intro hround
  by_cases hkeys : ∃ key, Register.holds key (folded minChoices root).redirects ∧
      Relation.ReflTransGen (Leads (folded minChoices root).redirects
        (refsIn (collapsedTree minChoices root))) place key
  · obtain ⟨key, hkey, hreaches⟩ := hkeys
    have hsettled : ∀ key value, Redirects (folded minChoices root).redirects key value →
        Register.get? value (folded minChoices root).redirects = none →
          (Register.get? value (refsIn (collapsedTree minChoices root))).join = none := by
      intro key value hvalue hend
      obtain ⟨node, hnode, rfl, hnone⟩ := hfits.settled key value hvalue hend
      rw [collapsedTree, ← refsOf_eq_refsIn (nodup_collapsed distinct minChoices),
        get?_refsOf (nodup_collapsed distinct minChoices) hnode, hnone]
      rfl
    obtain ⟨last, hlast, hend⟩ := exists_end_of_holds hfits.ends hsettled hkey
    exact not_round_of_ends hlast hend (hround.of_reaches hreaches)
  · refine acyclic place (transGen_of_reachable (fun a b ha hstep => ?_) hround)
    refine leads_of_leads_collapsedTree distinct hstep ?_
    by_contra hkey
    exact hkeys ⟨a, Option.isSome_iff_ne_none.2 hkey, ha⟩

theorem straight_collapsedTree (distinct : root.ids.Nodup)
    (acyclic : ∀ id, ¬Round [] (refsIn root) id) {id target : Int}
    (href : Refers (refsIn (collapsedTree minChoices root)) id target) :
    Straight (folded minChoices root).redirects (refsIn (collapsedTree minChoices root)) id
      target := by
  have hround : ∀ place, ¬Round (folded minChoices root).redirects
      (refsIn (collapsedTree minChoices root)) place := not_round_collapsedTree distinct acyclic
  refine ⟨fun hback => hround id ?_, fun place _ => hround place⟩
  cases hkey : Register.get? id (folded minChoices root).redirects with
  | none => exact .head' (leads_of_refers hkey href) hback
  | some next =>
      obtain ⟨bound, hfolding⟩ := folding_folded minChoices root
      have hfits := hfolding.fits ((Placed.ids_placed root).symm ▸ distinct)
      obtain ⟨node, hnode, rfl, hnode'⟩ := (refers_collapsedTree distinct).1 href
      rw [hfits.own node hnode target next hnode' hkey] at hback
      exact .head' (onward_of_redirected hkey) hback

/-! ### The pass -/

theorem refsCreated_run (minChoices : Int) (unit : String) (root : Node) :
    (run minChoices true unit root).1.refsCreated =
      if (folded minChoices root).redirects.isEmpty then 0
      else (folded minChoices root).collapsed.length := by
  unfold run
  dsimp only
  rw [if_pos rfl]
  exact apply_ite (fun result : Outcome × Journal => result.1.refsCreated) _ _ _

theorem root_run_of_created (distinct : root.ids.Nodup)
    (created : 1 ≤ (run minChoices true unit root).1.refsCreated) :
    (run minChoices true unit root).1.root =
      (resolve (folded minChoices root).redirects (collapsedTree minChoices root)).1 := by
  rw [refsCreated_run] at created
  rw [root_run, if_neg, forget_resolvePlaced_eq (nodup_collapsed distinct minChoices), collapsedTree]
  intro hempty
  rw [if_pos hempty] at created
  cases created

/-- What a node that stays refers to once groups are collapsed: where it is redirected, or else what
it referred to before. -/
theorem refers_of_stays (distinct : root.ids.Nodup) {id target : Int}
    (hstays : id ∈ (collapsedTree minChoices root).ids)
    (h : Redirects (folded minChoices root).redirects id target ∨ Refers (refsIn root) id target) :
    Refers (refsIn (collapsedTree minChoices root)) id target := by
  obtain ⟨bound, hfolding⟩ := folding_folded minChoices root
  have hplaced : root.placed.ids.Nodup := (Placed.ids_placed root).symm ▸ distinct
  rw [collapsedTree, Placed.ids_forget] at hstays
  obtain ⟨node, hnode, rfl⟩ := Placed.mem_ids.1 hstays
  refine (refers_collapsedTree distinct).2 ⟨node, hnode, rfl, ?_⟩
  rcases h with hkey | href
  · exact (accounted_folded minChoices root).ref_collapse hplaced hfolding hnode hkey
  · obtain ⟨origin, horigin, rfl⟩ := Placed.mem_walk_collapse hnode
    rw [Placed.id_collapse, refers_of_mem_walk distinct horigin] at href
    have hfree : Register.get? (Placed.id origin) (folded minChoices root).redirects = none := by
      by_contra hkey
      rw [hfolding.ref_eq_none hplaced horigin (Option.isSome_iff_ne_none.2 hkey)] at href
      cases href
    rw [Placed.collapse_of_none (hfolding.open_of_free horigin hfree)]
    exact href

/-- If the references of a tree do not go round and folding makes any, then afterwards no node refers
to one that refers on. Members that have collapsed, and nodes that had a reference before, all refer
to the ends of their chains. -/
theorem run_settles (distinct : root.ids.Nodup) (acyclic : ∀ id, ¬Round [] (refsIn root) id)
    (created : 1 ≤ (run minChoices true unit root).1.refsCreated) :
    (∀ node ∈ (run minChoices true unit root).1.root.walk,
      ∀ target ∈ (run minChoices true unit root).1.root.walk,
        node.value.ref = some (Node.id target) → target.value.ref = none) ∧
    ∀ id ∈ (run minChoices true unit root).1.root.ids, ∀ target,
      Redirects (folded minChoices root).redirects id target ∨ Refers (refsIn root) id target →
        ∃ last, ChainEnds (folded minChoices root).redirects
            (refsIn (collapsedTree minChoices root)) target last ∧
          Refers (refsIn (run minChoices true unit root).1.root) id last := by
  have hcollapsed := nodup_collapsedTree distinct minChoices
  obtain ⟨hends, hlast, -⟩ := ends_of_straight hcollapsed fun id target =>
    straight_collapsedTree distinct acyclic
  rw [root_run_of_created distinct created]
  have hids := ids_resolve hcollapsed (folded minChoices root).redirects
  refine ⟨fun node hnode target htarget href => ?_, fun id hid target h => ?_⟩
  · have hrefers := (refers_refsIn (hids.symm ▸ hcollapsed) hnode).2 href
    exact (hlast _ _ hrefers).2.2 target htarget rfl
  · rw [hids] at hid
    exact hends id target (refers_of_stays distinct hid h)

/-- The path and the mill both lead to the crossroads, where the chain from the mill ends. -/
theorem run_settles_crossroads :
    ((crossroads 1).ids.Nodup ∧ (∀ id, ¬Round [] (refsIn (crossroads 1)) id) ∧
      1 ≤ (run 3 true "" (crossroads 1)).1.refsCreated) ∧
    Refers (refsIn (run 3 true "" (crossroads 1)).1.root) 3 0 ∧
      Refers (refsIn (run 3 true "" (crossroads 1)).1.root) 1 0 := by
  have distinct : (crossroads 1).ids.Nodup := by decide
  have acyclic : ∀ id, ¬Round [] (refsIn (crossroads 1)) id :=
    not_round_of_descends Int.toNat (by decide)
  have created : 1 ≤ (run 3 true "" (crossroads 1)).1.refsCreated := by
    rw [refsCreated_run, folded_crossroads]
    decide
  obtain ⟨-, hsettles⟩ := run_settles distinct acyclic created
  rw [ids_crossroads, collapsedTree, folded_crossroads] at hsettles
  obtain ⟨last, hpath, hlast⟩ := hsettles 3 (by decide) 1 (.inr rfl)
  obtain ⟨other, hmill, hother⟩ := hsettles 1 (by decide) 0 (.inl rfl)
  have hsame := eq_of_reaches_of_ends (hpath.of_reaches (.single (by rfl))).1 (by rfl)
  have hsame' := eq_of_reaches_of_ends hmill.1 (by rfl)
  rw [hsame] at hlast
  rw [hsame'] at hother
  exact ⟨⟨distinct, acyclic, created⟩, hlast, hother⟩

end Run

end StoryAtlas.Hub
