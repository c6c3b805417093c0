import StoryAtlas.Proofs.Hub.Fold
import StoryAtlas.Proofs.Hub.Order
import StoryAtlas.Proofs.Reference.Follow

/-!
# Where the members of hubs are redirected

The member of a group that stays is its shallowest, so it is no deeper than where the group opened,
and all others are no shallower. Groups come in the order in which they opened. So nothing that is
collapsed later lies above a node that members were redirected to before: each stays in the tree,
unless it is collapsed itself and redirected in turn, and redirections never go round.
-/

namespace StoryAtlas.Hub

/-! ### The member that stays -/

namespace State

variable {state : State}

theorem before_iff {a b : Member} : state.before a b ↔ a.depth < b.depth ∨ a.depth = b.depth ∧
    (state.childCount b.node < state.childCount a.node ∨
      state.childCount a.node = state.childCount b.node ∧ a.node.id ≤ b.node.id) := by
  unfold before
  dsimp only
  split
  · rw [decide_eq_true_eq]
    omega
  · split
    · rw [decide_eq_true_eq]
      omega
    · rw [decide_eq_true_eq]
      omega

theorem before_trans (state : State) (a b c : Member) (hab : state.before a b)
    (hbc : state.before b c) : state.before a c := by
  rw [before_iff] at *
  omega

theorem before_total (state : State) (a b : Member) : state.before a b || state.before b a := by
  rw [Bool.or_eq_true, before_iff, before_iff]
  omega

/-- The one that stays is no deeper than where the group opened, and the others no shallower. -/
theorem depth_of_sorted {group : Group} {canonical : Member} {others : List Member}
    (hopened : group.Opened) (h : group.members.mergeSort state.before = canonical :: others) :
    canonical.depth ≤ group.opening ∧ ∀ other ∈ others, group.opening ≤ other.depth := by
  have hperm : (canonical :: others).Perm group.members := h ▸ List.mergeSort_perm _ _
  have hfirst : ∀ other ∈ others, canonical.depth ≤ other.depth := by
    have hsorted : (canonical :: others).Pairwise fun a b => state.before a b :=
      h ▸ List.pairwise_mergeSort (before_trans state) (before_total state) group.members
    intro other hother
    have hbefore := before_iff.1 ((List.pairwise_cons.1 hsorted).1 other hother)
    omega
  cases hmembers : group.members with
  | nil => rw [hmembers] at hperm; cases hperm.eq_nil
  | cons hub later =>
      have hhub : hub.depth ≤ group.opening := by
        have := hopened.hub
        rwa [Group.hubDepth, hmembers] at this
      have hlater : ∀ member ∈ later, group.opening ≤ member.depth := fun member hmember =>
        hopened.later member (by rwa [hmembers])
      rw [hmembers] at hperm
      by_cases hsame : canonical = hub
      · subst hsame
        exact ⟨hhub, fun other hother => hlater other (hperm.cons_inv.mem_iff.1 hother)⟩
      · -- the hub is deeper than the one that stays, so it is as deep as those that came later
        have hcanonical : canonical ∈ later :=
          (List.mem_cons.1 (hperm.mem_iff.1 List.mem_cons_self)).resolve_left hsame
        have hmem : hub ∈ others :=
          (List.mem_cons.1 (hperm.mem_iff.2 List.mem_cons_self)).resolve_left (Ne.symm hsame)
        exact ⟨(hfirst hub hmem).trans hhub,
          fun other hother => (hlater canonical hcanonical).trans (hfirst other hother)⟩

end State

/-! ### What is known while groups are folded -/

section Folding

variable {root : Placed} {bound : Nat} {collapsed : Register Nat Int} {state : State}
  {member canonical : Member}

/-- A member no deeper than a bound, with nothing collapsed above it. -/
structure Stays (root : Placed) (bound : Nat) (collapsed : Register Nat Int) (member : Member) :
    Prop where
  belongs : Belongs root member
  shallow : member.depth ≤ bound
  above : ∀ upper ∈ root.walk, Register.holds (Placed.place upper) collapsed →
    member.node ∉ Rose.walkForest upper.children

/-- Redirected ids are those of members, and members are redirected to members that stay. What is
collapsed is redirected alike, and all ids below it are known to be gone. -/
structure Folding (root : Placed) (bound : Nat) (state : State) : Prop where
  ends : Reference.Ends state.redirects
  keys : ∀ key, Register.holds key state.redirects →
    ∃ member, Belongs root member ∧ member.node.id = key
  kept : ∀ key value, Reference.Redirects state.redirects key value →
    ∃ member, Stays root bound state.collapsed member ∧ member.node.id = value
  alike : ∀ node ∈ root.walk, ∀ target,
    Register.get? (Placed.place node) state.collapsed = some target →
      Reference.Redirects state.redirects (Placed.id node) target
  gone : ∀ upper ∈ root.walk, Register.holds (Placed.place upper) state.collapsed →
    ∀ node ∈ Rose.walkForest upper.children, Placed.id node ∈ state.removed

theorem folding_empty (root : Placed) (bound : Nat) : Folding root bound {} where
  ends := Reference.ends_nil
  keys := nofun
  kept := nofun
  alike := nofun
  gone := nofun

theorem Stays.mono {deeper : Nat} (h : Stays root bound collapsed member) (hle : bound ≤ deeper) :
    Stays root deeper collapsed member :=
  { h with shallow := h.shallow.trans hle }

theorem Folding.mono {deeper : Nat} (h : Folding root bound state) (hle : bound ≤ deeper) :
    Folding root deeper state :=
  { h with
    kept := fun key value hvalue => by
      obtain ⟨member, hmember, hid⟩ := h.kept key value hvalue
      exact ⟨member, hmember.mono hle, hid⟩ }

theorem Stays.put {kept : Member} {target : Int} (distinct : root.places.Nodup)
    (h : Stays root bound collapsed kept) (hmember : Belongs root member)
    (hdepth : bound ≤ member.depth) :
    Stays root bound (Register.put member.node.place target collapsed) kept where
  belongs := h.belongs
  shallow := h.shallow
  above upper hupper hholds hbelow := by
    rw [Register.holds, Register.get?_put] at hholds
    split at hholds
    · next hplace =>
      rw [Placed.eq_of_place_eq distinct hupper hmember.mem_walk hplace] at hbelow
      have hless := Rose.depth_lt_of_mem_below distinct.of_map hmember.1 h.belongs.1 hbelow
      have := h.shallow
      omega
    · exact h.above upper hupper hholds hbelow

namespace Folding

/-- What is not redirected is not collapsed. -/
theorem open_of_free {node : Placed} (h : Folding root bound state) (hnode : node ∈ root.walk)
    (hfree : Register.get? node.id state.redirects = none) :
    Register.get? node.place state.collapsed = none := by
  by_contra hheld
  obtain ⟨target, htarget⟩ := Option.ne_none_iff_exists'.1 hheld
  have hkey := h.alike node hnode target htarget
  rw [Reference.Redirects, hfree] at hkey
  cases hkey

theorem redirect (h : Folding root bound state)
    (hcanonical : Stays root bound state.collapsed canonical)
    (hfree : Register.get? canonical.node.id state.redirects = none) (hmember : Belongs root member)
    (hnew : Register.get? member.node.id state.redirects = none)
    (hne : canonical.node.id ≠ member.node.id) :
    Folding root bound { state with
      redirects := Register.put member.node.id canonical.node.id state.redirects } where
  ends := h.ends.put hnew hfree hne
  keys key hkey := by
    rw [Register.holds, Register.get?_put] at hkey
    split at hkey
    · next hsame => exact ⟨member, hmember, hsame.symm⟩
    · exact h.keys key hkey
  kept key value hvalue := by
    rw [Reference.Redirects, Register.get?_put] at hvalue
    split at hvalue
    · exact ⟨canonical, hcanonical, Option.some.inj hvalue⟩
    · exact h.kept key value hvalue
  alike node hnode target htarget := by
    have hold := h.alike node hnode target htarget
    rw [Reference.Redirects, Register.get?_put, if_neg]
    · exact hold
    · intro hsame
      rw [Reference.Redirects, hsame, hnew] at hold
      cases hold
  gone := h.gone

theorem collapse (places : root.places.Nodup) (h : Folding root bound state)
    (hmember : Belongs root member) (hdepth : bound ≤ member.depth)
    (hopen : Register.get? member.node.place state.collapsed = none)
    (hredirected : Reference.Redirects state.redirects member.node.id canonical.node.id) :
    Folding root bound { state with
      removed := state.removed ++ (member.node.collapse state.collapsed).descendantIds
      collapsed := Register.put member.node.place canonical.node.id state.collapsed } where
  ends := h.ends
  keys := h.keys
  kept key value hvalue := by
    obtain ⟨kept, hkept, hid⟩ := h.kept key value hvalue
    exact ⟨kept, hkept.put places hmember hdepth, hid⟩
  alike node hnode target htarget := by
    dsimp only at htarget
    rw [Register.get?_put] at htarget
    split at htarget
    · next hplace =>
      rw [Placed.eq_of_place_eq places hnode hmember.mem_walk hplace, ← Option.some.inj htarget]
      exact hredirected
    · exact h.alike node hnode target htarget
  gone upper hupper hholds node hnode := by
    dsimp only at hholds
    rw [Register.holds, Register.get?_put] at hholds
    apply List.mem_append.2
    split at hholds
    · next hplace =>
      rw [Placed.eq_of_place_eq places hupper hmember.mem_walk hplace] at hnode
      -- what is no longer below the member had gone before with something else
      rcases Placed.id_mem_descendantIds_or_below hopen hnode with
        hbelow | ⟨other, hother, hheld, hunder⟩
      · exact .inr hbelow
      · exact .inl (h.gone other (Rose.mem_walk_trans hother hmember.mem_walk) hheld node hunder)
    · exact .inl (h.gone upper hupper hholds node hnode)

theorem fold (places : root.places.Nodup) (h : Folding root bound state)
    (hcanonical : Stays root bound state.collapsed canonical)
    (hfree : Register.get? canonical.node.id state.redirects = none) (hmember : Belongs root member)
    (hdepth : bound ≤ member.depth) :
    Folding root bound (state.fold canonical.node.id member) ∧
      Stays root bound (state.fold canonical.node.id member).collapsed canonical ∧
      Register.get? canonical.node.id (state.fold canonical.node.id member).redirects = none := by
  unfold State.fold
  dsimp only
  split
  · exact ⟨h, hcanonical, hfree⟩
  · next hskip =>
    rw [not_or, Register.holds, Option.isSome_iff_ne_none, not_not] at hskip
    obtain ⟨hnew, hne⟩ := hskip
    have hstep := h.redirect hcanonical hfree hmember hnew (Ne.symm hne)
    have hstill : Register.get? canonical.node.id
        (Register.put member.node.id canonical.node.id state.redirects) = none := by
      rw [Register.get?_put, if_neg (Ne.symm hne), hfree]
    split
    · exact ⟨hstep, hcanonical, hstill⟩
    · have hredirected : Reference.Redirects
          (Register.put member.node.id canonical.node.id state.redirects) member.node.id
          canonical.node.id := by
        rw [Reference.Redirects, Register.get?_put, if_pos rfl]
      exact ⟨hstep.collapse places hmember hdepth (h.open_of_free hmember.mem_walk hnew) hredirected,
        hcanonical.put places hmember hdepth, hstill⟩

/-- Folding a group that opened no earlier than those before. -/
theorem foldGroup {group : Group} (places : root.places.Nodup) (h : Folding root bound state)
    (hbound : bound ≤ group.opening) (hopened : group.Opened)
    (hmembers : ∀ member ∈ group.members, Belongs root member) :
    Folding root group.opening (state.foldGroup group) := by
  unfold State.foldGroup
  split
  · next canonical others hsorted =>
    obtain ⟨hshallow, hothers⟩ := State.depth_of_sorted hopened hsorted
    have hbelongs : ∀ member ∈ canonical :: others, Belongs root member := fun member hmember =>
      hmembers member ((List.mergeSort_perm _ state.before).mem_iff.1 (hsorted ▸ hmember))
    split
    · exact h.mono hbound
    · next hrefers =>
      simp only [State.refersOn, Bool.or_eq_true, not_or] at hrefers
      obtain ⟨⟨⟨hkey, hremoved⟩, -⟩, -⟩ := hrefers
      rw [Register.holds, Option.isSome_iff_ne_none, not_not] at hkey
      rw [List.contains_iff_mem] at hremoved
      have hstays : Stays root group.opening state.collapsed canonical :=
        ⟨hbelongs canonical List.mem_cons_self, hshallow, fun upper hupper hheld hbelow =>
          hremoved (h.gone upper hupper hheld _ hbelow)⟩
      refine (List.foldlRecOn (motive := fun later : State => Folding root group.opening later ∧
        Stays root group.opening later.collapsed canonical ∧
        Register.get? canonical.node.id later.redirects = none) others _
        ⟨h.mono hbound, hstays, hkey⟩ fun later hlater member hmember => ?_).1
      exact hlater.1.fold places hlater.2.1 hlater.2.2
        (hbelongs member (List.mem_cons_of_mem _ hmember)) (hothers member hmember)
  · exact h.mono hbound

theorem foldl_foldGroup {found : List Group} (places : root.places.Nodup)
    (h : Folding root bound state) (hfound : ∀ group ∈ found, bound ≤ group.opening)
    (hopened : ∀ group ∈ found, group.Opened ∧ ∀ member ∈ group.members, Belongs root member)
    (horder : found.Pairwise fun first second => first.opening ≤ second.opening) :
    ∃ last, Folding root last (found.foldl State.foldGroup state) := by
  induction found generalizing bound state with
  | nil => exact ⟨bound, h⟩
  | cons group found ih =>
      rw [List.pairwise_cons] at horder
      obtain ⟨hgroup, hmembers⟩ := hopened group List.mem_cons_self
      exact ih (h.foldGroup places (hfound group List.mem_cons_self) hgroup hmembers) horder.1
        (fun later hlater => hopened later (List.mem_cons_of_mem _ hlater)) horder.2

/-- What is redirected had no reference. -/
theorem ref_eq_none (distinct : root.ids.Nodup) (h : Folding root bound state) {node : Placed}
    (hnode : node ∈ root.walk) (hkey : Register.holds node.id state.redirects) :
    node.beat.ref = none := by
  obtain ⟨member, hmember, hid⟩ := h.keys _ hkey
  rw [← Placed.eq_of_id_eq distinct hmember.mem_walk hnode hid]
  exact hmember.ref

/-- What is redirected fits the tree that is left: nothing that a chain needs is gone. -/
theorem fits (distinct : root.ids.Nodup) (h : Folding root bound state) :
    Reference.Fits state.redirects (root.collapse state.collapsed) where
  ends := h.ends
  settled key value hvalue hend := by
    obtain ⟨member, hmember, rfl⟩ := h.kept key value hvalue
    rcases Placed.collapse_mem_walk_or_below state.collapsed hmember.belongs.mem_walk with
      hstays | ⟨upper, hupper, hheld, hbelow⟩
    · refine ⟨_, hstays, Placed.id_collapse _ _, ?_⟩
      rw [Placed.collapse_of_none (h.open_of_free hmember.belongs.mem_walk hend)]
      exact hmember.belongs.ref
    · exact absurd hbelow (hmember.above upper hupper hheld)
  own node hnode target next href hnext := by
    obtain ⟨origin, horigin, rfl⟩ := Placed.mem_walk_collapse hnode
    rw [Placed.id_collapse] at hnext
    cases hget : Register.get? (Placed.place origin) state.collapsed with
    | some stays =>
        have hkey := h.alike origin horigin stays hget
        rw [Reference.Redirects, hnext, Option.some.injEq] at hkey
        rw [Placed.collapse_of_some hget] at href
        exact (Option.some.inj href).symm.trans hkey.symm
    | none =>
        rw [Placed.collapse_of_none hget] at href
        have hnone := h.ref_eq_none distinct horigin (Option.isSome_iff_exists.2 ⟨next, hnext⟩)
        exact absurd (hnone.symm.trans href) (Option.some_ne_none target).symm

end Folding

end Folding

theorem folding_folded (minChoices : Int) (root : Node) :
    ∃ bound, Folding root.placed bound (folded minChoices root) := by
  have places := Placed.nodup_places_placed root
  obtain ⟨hopened, horder⟩ := opened_groups places minChoices
  refine (folding_empty root.placed 0).foldl_foldGroup places (fun _ _ => Nat.zero_le _)
    (fun group hgroup => ?_) (horder.filter _)
  have hmem := (List.mem_filter.1 hgroup).1
  exact ⟨hopened group hmem, belongs_of_mem_groups hmem⟩

end StoryAtlas.Hub
