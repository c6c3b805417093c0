import Mathlib.Data.List.Perm.Subperm
import Mathlib.Logic.Relation
import StoryAtlas.Proofs.Reference.Chase

/-!
# Where references end up

Only ids that the table or the tree knows lead on, so a chain that repeats nothing is no longer than
the two together, and following it stops where nothing leads on, at the node that it started from, or
on a circle. A table whose own chains end at nodes that stay and refer to nothing has no circles.
Then every reference ends at a node of the tree, unless it names one that is neither in the tree nor
in the table: such a reference is left as it is.
-/

namespace StoryAtlas.Reference

variable {redirects : Register Int Int} {refs : Register Int (Option Int)}

/-- One step of a chain. -/
def Leads (redirects : Register Int Int) (refs : Register Int (Option Int)) (target next : Int) :
    Prop :=
  onward redirects refs target = some next

/-- The ids that may lead on. -/
def known (redirects : Register Int Int) (refs : Register Int (Option Int)) : List Int :=
  redirects.map Prod.fst ++ refs.map Prod.fst

theorem onward_of_redirected {target next : Int} (h : Register.get? target redirects = some next) :
    onward redirects refs target = some next := by
  rw [onward, h]

theorem onward_of_not_redirected {target : Int} (h : Register.get? target redirects = none) :
    onward redirects refs target = (Register.get? target refs).join := by
  rw [onward, h]

theorem mem_known {target next : Int} (h : Leads redirects refs target next) :
    target ∈ known redirects refs := by
  unfold Leads onward at h
  split at h
  · next found hfound =>
    exact List.mem_append_left _ (List.mem_map_of_mem (Register.mem_of_get? hfound))
  · next hnone =>
    rw [Option.join_eq_some_iff] at h
    exact List.mem_append_right _ (List.mem_map_of_mem (Register.mem_of_get? h))

/-! ### Following a chain -/

/-- Where a chain may be left: nothing leads on, it has been there before, or it goes round. -/
def Stops (redirects : Register Int Int) (refs : Register Int (Option Int)) (seen : List Int)
    (last : Int) : Prop :=
  onward redirects refs last = none ∨ last ∈ seen ∨
    Relation.TransGen (Leads redirects refs) last last

/-- Whoever follows long enough gets to where the chain stops. -/
theorem stops_follow {steps : Nat} {seen : List Int} (target : Int) (hnodup : seen.Nodup)
    (hseen : seen ⊆ known redirects refs)
    (hsteps : (known redirects refs).length < steps + seen.length) :
    Relation.ReflTransGen (Leads redirects refs) target (follow redirects refs steps seen target) ∧
      Stops redirects refs seen (follow redirects refs steps seen target) := by
  induction steps generalizing seen target with
  | zero =>
      have hlength := (hnodup.subperm hseen).length_le
      omega
  | succ steps ih =>
      rw [follow]
      split
      · next hrepeats => exact ⟨.refl, .inr (.inl (List.contains_iff_mem.1 hrepeats))⟩
      · next hfresh =>
        rw [List.contains_iff_mem] at hfresh
        split
        · next next hnext =>
          obtain ⟨hreaches, hstops⟩ := ih next (List.nodup_cons.2 ⟨hfresh, hnodup⟩)
            (List.cons_subset.2 ⟨mem_known hnext, hseen⟩) (by rw [List.length_cons]; omega)
          refine ⟨.head hnext hreaches, ?_⟩
          rcases hstops with hend | hmem | hround
          · exact .inl hend
          · -- only now can the chain be seen to have come back to the target
            rcases List.mem_cons.1 hmem with hback | hmem
            · rw [hback] at hreaches ⊢
              exact .inr (.inr (.head' hnext hreaches))
            · exact .inr (.inl hmem)
          · exact .inr (.inr hround)
        · next hend => exact ⟨.refl, .inl hend⟩

/-- The limit on steps is never what ends a chain. -/
theorem stops_chainEnd {id : Int} (target : Int) (hid : id ∈ known redirects refs) :
    Relation.ReflTransGen (Leads redirects refs) target (chainEnd redirects refs id target) ∧
      Stops redirects refs [id] (chainEnd redirects refs id target) := by
  refine stops_follow target (List.nodup_singleton id) (List.cons_subset.2 ⟨hid, List.nil_subset _⟩) ?_
  rw [known, List.length_append, List.length_map, List.length_map, chaseLimit]
  omega

theorem not_round_of_ends {start last : Int}
    (h : Relation.ReflTransGen (Leads redirects refs) start last)
    (hlast : onward redirects refs last = none) :
    ¬Relation.TransGen (Leads redirects refs) start start := by
  induction h using Relation.ReflTransGen.head_induction_on with
  | refl =>
      intro hround
      obtain ⟨next, hnext, -⟩ := Relation.TransGen.head'_iff.1 hround
      rw [Leads, hlast] at hnext
      cases hnext
  | head hstep _ ih =>
      intro hround
      obtain ⟨next, hnext, hback⟩ := Relation.TransGen.head'_iff.1 hround
      -- there is only one step to take, so the circle goes through the rest of the chain
      rw [Leads] at hstep hnext
      rw [hnext, Option.some.injEq] at hstep
      exact ih (hstep ▸ .tail' hback hnext)

/-! ### Tables whose chains end -/

/-- One step of a chain by the table alone. -/
def Redirects (redirects : Register Int Int) (key value : Int) : Prop :=
  Register.get? key redirects = some value

/-- Following the table alone gets from each of its keys to an id that is not a key. -/
def Ends (redirects : Register Int Int) : Prop :=
  ∀ key value, Redirects redirects key value → ∃ last,
    Relation.ReflTransGen (Redirects redirects) value last ∧ Register.get? last redirects = none

theorem ends_nil : Ends [] := nofun

theorem Ends.put {key target : Int} (h : Ends redirects)
    (hnew : Register.get? key redirects = none) (htarget : Register.get? target redirects = none)
    (hne : target ≠ key) : Ends (Register.put key target redirects) := by
  have hstep : ∀ a b, Redirects redirects a b →
      Redirects (Register.put key target redirects) a b := by
    intro a b hab
    rw [Redirects, Register.get?_put, if_neg]
    · exact hab
    · rintro rfl
      rw [Redirects, hnew] at hab
      cases hab
  have hend : Register.get? target (Register.put key target redirects) = none := by
    rw [Register.get?_put, if_neg hne, htarget]
  have hkey : Redirects (Register.put key target redirects) key target := by
    rw [Redirects, Register.get?_put, if_pos rfl]
  intro other value hvalue
  by_cases hsame : other = key
  · rw [hsame, Redirects, hkey, Option.some.injEq] at hvalue
    exact ⟨target, hvalue ▸ .refl, hend⟩
  · rw [Redirects, Register.get?_put, if_neg hsame] at hvalue
    obtain ⟨last, hreaches, hlast⟩ := h other value hvalue
    have hlifted := Relation.ReflTransGen.mono hstep _ _ hreaches
    by_cases hlastKey : last = key
    · exact ⟨target, hlifted.tail (hlastKey ▸ hkey), hend⟩
    · exact ⟨last, hlifted, by rw [Register.get?_put, if_neg hlastKey, hlast]⟩

theorem exists_end_of_holds (hends : Ends redirects)
    (hsettled : ∀ key value, Redirects redirects key value → Register.get? value redirects = none →
      (Register.get? value refs).join = none) {key : Int} (hkey : Register.holds key redirects) :
    ∃ last, Relation.ReflTransGen (Leads redirects refs) key last ∧
      onward redirects refs last = none := by
  obtain ⟨value, hvalue⟩ : ∃ value, Redirects redirects key value := Option.isSome_iff_exists.1 hkey
  obtain ⟨last, hreaches, hlast⟩ := hends key value hvalue
  obtain ⟨before, -, hbefore⟩ := Relation.TransGen.tail'_iff.1 (.head' hvalue hreaches)
  refine ⟨last, .head (onward_of_redirected hvalue) ?_, ?_⟩
  · exact Relation.ReflTransGen.mono (fun a b => onward_of_redirected) _ _ hreaches
  · rw [onward_of_not_redirected hlast]
    exact hsettled before last hbefore hlast

/-! ### Moving references one by one -/

def Refers (refs : Register Int (Option Int)) (id target : Int) : Prop :=
  (Register.get? id refs).join = some target

def Resolved (ids : List Int) (refs : Register Int (Option Int)) (id : Int) : Prop :=
  ∀ target, Refers refs id target → target ∈ ids

/-- What holds while references are moved. The ends of the table are nodes without reference, and a
key refers to where the table leads unless its reference has been moved. -/
structure Chasing (ids : List Int) (redirects : Register Int Int)
    (refs : Register Int (Option Int)) : Prop where
  names : ∀ id target, Refers refs id target → id ∈ ids
  settled : ∀ key value, Register.get? key redirects = some value →
    Register.get? value redirects = none → value ∈ ids ∧ (Register.get? value refs).join = none
  own : ∀ id target next, Refers refs id target → Register.get? id redirects = some next →
    target ∈ ids ∨ target = next
  good : ∀ id target, Refers refs id target → target ∈ ids ∨ Register.holds target redirects

theorem mem_known_of_refers {id target : Int} (h : Refers refs id target) :
    id ∈ known redirects refs := by
  rw [Refers, Option.join_eq_some_iff] at h
  exact List.mem_append_right _ (List.mem_map_of_mem (Register.mem_of_get? h))

namespace Chasing

variable {ids : List Int} {id target last : Int}

theorem key_ends (h : Chasing ids redirects refs) (hends : Ends redirects) {key : Int}
    (hkey : Register.holds key redirects) :
    ∃ last, Relation.ReflTransGen (Leads redirects refs) key last ∧
      onward redirects refs last = none :=
  exists_end_of_holds hends (fun key value hvalue hlast => (h.settled key value hvalue hlast).2) hkey

/-- Chains stay among the nodes of the tree and the keys of the table. -/
theorem reaches_good (h : Chasing ids redirects refs)
    (hreaches : Relation.ReflTransGen (Leads redirects refs) target last)
    (htarget : target ∈ ids ∨ Register.holds target redirects) :
    last ∈ ids ∨ Register.holds last redirects := by
  induction hreaches with
  | refl => exact htarget
  | tail _ hstep _ =>
      unfold Leads onward at hstep
      split at hstep
      · next next hnext =>
        rw [Option.some.injEq] at hstep
        subst hstep
        cases hvalue : Register.get? next redirects with
        | none => exact .inl (h.settled _ next hnext hvalue).1
        | some value => exact .inr (by rw [Register.holds, hvalue]; rfl)
      · exact h.good _ _ hstep

theorem chainEnd_mem (h : Chasing ids redirects refs) (hends : Ends redirects)
    (href : Refers refs id target) (hne : chainEnd redirects refs id target ≠ id) :
    chainEnd redirects refs id target ∈ ids := by
  obtain ⟨hreaches, hstops⟩ := stops_chainEnd target (mem_known_of_refers href)
  refine (h.reaches_good hreaches (h.good id target href)).resolve_right fun hkey => ?_
  obtain ⟨last, hlast, hnone⟩ := h.key_ends hends hkey
  rcases hstops with hend | hback | hround
  · obtain ⟨value, hvalue⟩ := Option.isSome_iff_exists.1 hkey
    rw [onward_of_redirected hvalue] at hend
    cases hend
  · exact hne (List.mem_singleton.1 hback)
  · exact not_round_of_ends hlast hnone hround

/-- A reference that is not moved names a node of the tree. -/
theorem target_mem (h : Chasing ids redirects refs) (hends : Ends redirects)
    (href : Refers refs id target) (hstays : chainEnd redirects refs id target = target ∨
      chainEnd redirects refs id target = id) : target ∈ ids := by
  by_contra hgone
  have hkey := (h.good id target href).resolve_left hgone
  have hback : chainEnd redirects refs id target = id := by
    by_contra hne
    exact hgone (hstays.resolve_right hne ▸ h.chainEnd_mem hends href hne)
  have hleads : Leads redirects refs id target := by
    cases hid : Register.get? id redirects with
    | none => exact (onward_of_not_redirected hid).trans href
    | some next =>
        rw [(h.own id target next href hid).resolve_left hgone]
        exact onward_of_redirected hid
  -- the chain of the target comes back to it by way of the node, but it is the chain of a key
  obtain ⟨hreaches, -⟩ := stops_chainEnd target (mem_known_of_refers href)
  obtain ⟨last, hlast, hnone⟩ := h.key_ends hends hkey
  exact not_round_of_ends hlast hnone (.tail' (hback ▸ hreaches) hleads)

theorem put (h : Chasing ids redirects refs) (href : Refers refs id target) (hlast : last ∈ ids) :
    Chasing ids redirects (Register.put id (some last) refs) where
  names other next hrefers := by
    by_cases hsame : other = id
    · exact hsame ▸ h.names id target href
    · rw [Refers, Register.get?_put, if_neg hsame] at hrefers
      exact h.names other next hrefers
  settled key value hkey hvalue := by
    obtain ⟨hmem, hnone⟩ := h.settled key value hkey hvalue
    refine ⟨hmem, ?_⟩
    rw [Register.get?_put, if_neg, hnone]
    rintro rfl
    rw [Refers, hnone] at href
    cases href
  own other next value hrefers hvalue := by
    rw [Refers, Register.get?_put] at hrefers
    split at hrefers
    · rw [Option.join_some, Option.some.injEq] at hrefers
      exact .inl (hrefers ▸ hlast)
    · exact h.own other next value hrefers hvalue
  good other next hrefers := by
    rw [Refers, Register.get?_put] at hrefers
    split at hrefers
    · rw [Option.join_some, Option.some.injEq] at hrefers
      exact .inl (hrefers ▸ hlast)
    · exact h.good other next hrefers

end Chasing

theorem chaseOne_cases (redirects : Register Int Int) (state : Chased) (id : Int) :
    (chaseOne redirects state id = state ∧ ∀ target, Refers state.refs id target →
      chainEnd redirects state.refs id target = target ∨
        chainEnd redirects state.refs id target = id) ∨
      ∃ target, Refers state.refs id target ∧
        chainEnd redirects state.refs id target ≠ target ∧
        chainEnd redirects state.refs id target ≠ id ∧
        (chaseOne redirects state id).refs =
          Register.put id (some (chainEnd redirects state.refs id target)) state.refs := by
  unfold chaseOne
  cases href : (Register.get? id state.refs).join with
  | none =>
      refine .inl ⟨rfl, fun target htarget => ?_⟩
      rw [Refers, href] at htarget
      cases htarget
  | some target =>
      dsimp only
      split
      · next hstays =>
        refine .inl ⟨rfl, fun other hother => ?_⟩
        rw [Refers, href, Option.some.injEq] at hother
        exact hother ▸ hstays
      · next hmoves =>
        rw [not_or] at hmoves
        exact .inr ⟨target, href, hmoves.1, hmoves.2, rfl⟩

variable {ids : List Int} {state : Chased}

/-- Moving a reference makes it one that resolves, and leaves those that do. -/
theorem Chasing.chaseOne (h : Chasing ids redirects state.refs) (hends : Ends redirects) (id : Int) :
    Chasing ids redirects (chaseOne redirects state id).refs ∧
      ∀ other, other = id ∨ Resolved ids state.refs other →
        Resolved ids (chaseOne redirects state id).refs other := by
  rcases chaseOne_cases redirects state id with ⟨hsame, hstays⟩ | ⟨target, href, -, hne, hput⟩
  · rw [hsame]
    refine ⟨h, fun other hother => hother.elim ?_ fun hresolved => hresolved⟩
    rintro rfl target href
    exact h.target_mem hends href (hstays target href)
  · have hlast := h.chainEnd_mem hends href hne
    rw [hput]
    refine ⟨h.put href hlast, fun other hother next hnext => ?_⟩
    rw [Refers, Register.get?_put] at hnext
    split at hnext
    · rw [Option.join_some, Option.some.injEq] at hnext
      exact hnext ▸ hlast
    · next hne => exact hother.resolve_left hne next hnext

theorem Chasing.foldl_chaseOne (h : Chasing ids redirects state.refs) (hends : Ends redirects)
    (order : List Int) :
    ∀ id, id ∈ order ∨ Resolved ids state.refs id →
      Resolved ids (order.foldl (Reference.chaseOne redirects) state).refs id := by
  induction order generalizing state with
  | nil => exact fun id hid => hid.resolve_left (by simp)
  | cons first order ih =>
      obtain ⟨hstep, hresolved⟩ := h.chaseOne hends first
      intro id hid
      refine ih hstep id ?_
      rcases hid with hmem | hid
      · exact (List.mem_cons.1 hmem).elim (fun hsame => .inr (hresolved id (.inl hsame))) .inl
      · exact .inr (hresolved id (.inr hid))

/-! ### References that lead nowhere -/

theorem onward_of_unknown {target : Int} (h : target ∉ known redirects refs) :
    onward redirects refs target = none := by
  cases hnext : onward redirects refs target with
  | none => rfl
  | some next => exact absurd (mem_known hnext) h

theorem known_chaseOne (redirects : Register Int Int) (state : Chased) (id : Int) :
    known redirects (chaseOne redirects state id).refs = known redirects state.refs := by
  rcases chaseOne_cases redirects state id with ⟨hsame, -⟩ | ⟨target, href, -, -, hput⟩
  · rw [hsame]
  · have hkeys := Register.keys_put id (some (chainEnd redirects state.refs id target)) state.refs
    rw [Refers, Option.join_eq_some_iff] at href
    have hmem : id ∈ Register.keys state.refs := List.mem_map_of_mem (Register.mem_of_get? href)
    rw [if_pos hmem] at hkeys
    rw [known, hput]
    exact congrArg _ hkeys

theorem chainEnd_of_unknown {target : Int} (h : target ∉ known redirects refs) (id : Int) :
    chainEnd redirects refs id target = target := by
  rw [chainEnd, chaseLimit, follow, onward_of_unknown h]
  exact ite_self _

theorem refers_chaseOne {id target : Int} (h : Refers state.refs id target)
    (hunknown : target ∉ known redirects state.refs) (other : Int) :
    Refers (chaseOne redirects state other).refs id target := by
  rcases chaseOne_cases redirects state other with ⟨hsame, -⟩ | ⟨next, href, hne, -, hput⟩
  · rwa [hsame]
  · rw [hput, Refers, Register.get?_put, if_neg]
    · exact h
    · rintro rfl
      rw [Refers, h, Option.some.injEq] at href
      exact hne (href ▸ chainEnd_of_unknown hunknown id)

theorem refers_foldl_chaseOne {id target : Int} (h : Refers state.refs id target)
    (hunknown : target ∉ known redirects state.refs) (order : List Int) :
    Refers (order.foldl (chaseOne redirects) state).refs id target := by
  refine (List.foldlRecOn (motive := fun later : Chased =>
    Refers later.refs id target ∧ target ∉ known redirects later.refs) order _
    ⟨h, hunknown⟩ fun later hlater next _ => ?_).1
  exact ⟨refers_chaseOne hlater.1 hlater.2 next, (known_chaseOne redirects later next) ▸ hlater.2⟩

/-! ### All references of a tree -/

section Tree

variable {root : Placed}

def refsOf (root : Placed) : Register Int (Option Int) :=
  Register.ofList (root.walk.map fun node => (Placed.id node, (Placed.beat node).ref))

/-- What a table of redirections has to do with a tree for no chain to be lost: its chains end at
nodes without a reference, and a key refers to where the table leads. -/
structure Fits (redirects : Register Int Int) (root : Placed) : Prop where
  ends : Ends redirects
  settled : ∀ key value, Redirects redirects key value → Register.get? value redirects = none →
    ∃ node ∈ root.walk, Placed.id node = value ∧ (Placed.beat node).ref = none
  own : ∀ node ∈ root.walk, ∀ target next, (Placed.beat node).ref = some target →
    Redirects redirects (Placed.id node) next → target = next

theorem refsOf_eq (distinct : root.ids.Nodup) :
    refsOf root = root.walk.map fun node => (Placed.id node, (Placed.beat node).ref) := by
  apply Register.ofList_of_nodup
  rw [List.map_map]
  exact distinct

theorem keys_refsOf (distinct : root.ids.Nodup) : (refsOf root).map Prod.fst = root.ids := by
  rw [refsOf_eq distinct, List.map_map]
  rfl

theorem chaseAll_eq (distinct : root.ids.Nodup) :
    chaseAll redirects root = root.ids.foldl (chaseOne redirects) ⟨refsOf root, 0⟩ := by
  rw [← keys_refsOf distinct]
  rfl

theorem get?_refsOf (distinct : root.ids.Nodup) {node : Placed} (h : node ∈ root.walk) :
    Register.get? node.id (refsOf root) = some node.beat.ref := by
  refine Register.get?_of_mem ((keys_refsOf distinct).symm ▸ distinct) ?_
  rw [refsOf_eq distinct]
  exact List.mem_map_of_mem h

theorem exists_of_refers_refsOf {id target : Int} (h : Refers (refsOf root) id target) :
    ∃ node ∈ root.walk, Placed.id node = id ∧ (Placed.beat node).ref = some target := by
  rw [Refers, Option.join_eq_some_iff] at h
  obtain ⟨node, hnode, hpair⟩ := List.mem_map.1 (Register.mem_of_get?_ofList h)
  rw [Prod.mk.injEq] at hpair
  exact ⟨node, hnode, hpair.1, hpair.2⟩

theorem chasing_refsOf (distinct : root.ids.Nodup) (h : Fits redirects root)
    (hgood : ∀ node ∈ root.walk, ∀ target, (Placed.beat node).ref = some target →
      target ∈ root.ids ∨ Register.holds target redirects) :
    Chasing root.ids redirects (refsOf root) where
  names id target hrefers := by
    obtain ⟨node, hnode, rfl, -⟩ := exists_of_refers_refsOf hrefers
    exact Placed.id_mem_ids hnode
  settled key value hvalue hend := by
    obtain ⟨node, hnode, rfl, href⟩ := h.settled key value hvalue hend
    refine ⟨Placed.id_mem_ids hnode, ?_⟩
    rw [get?_refsOf distinct hnode, href]
    rfl
  own id target next hrefers hnext := by
    obtain ⟨node, hnode, rfl, href⟩ := exists_of_refers_refsOf hrefers
    exact .inr (h.own node hnode target next href hnext)
  good id target hrefers := by
    obtain ⟨node, hnode, rfl, href⟩ := exists_of_refers_refsOf hrefers
    exact hgood node hnode target href

def settle (redirects : Register Int Int) (root : Placed) (entry : Nat × Beat) : Nat × Beat :=
  (entry.1, { entry.2 with ref :=
    (Register.get? entry.2.id (chaseAll redirects root).refs).join })

theorem resolvePlaced_eq_map (distinct : root.ids.Nodup) (redirects : Register Int Int) :
    (resolvePlaced redirects root).1 = root.map (settle redirects root) := by
  refine Rose.map_congr fun node hnode => ?_
  have hkeys : ((root.walk.map fun node => (Placed.id node, Placed.place node)).map
      (·.1)).Nodup := by
    rw [List.map_map]
    exact distinct
  have hfound := Register.get?_ofList_of_mem hkeys (List.mem_map_of_mem hnode)
  obtain ⟨⟨place, beat⟩, children⟩ := node
  exact if_pos hfound

theorem ids_resolvePlaced (distinct : root.ids.Nodup) (redirects : Register Int Int) :
    Placed.ids (resolvePlaced redirects root).1 = root.ids := by
  rw [resolvePlaced_eq_map distinct, Placed.ids, Rose.walk_map, List.map_map]
  refine List.map_congr_left fun node _ => ?_
  rw [Function.comp_apply, Placed.id, Placed.beat, Rose.value_map]
  rfl

theorem resolves_resolvePlaced (distinct : root.ids.Nodup) :
    (resolvePlaced redirects root).1.forget.Resolves ↔
      ∀ id ∈ root.ids, Resolved root.ids (chaseAll redirects root).refs id := by
  have hwalk : (resolvePlaced redirects root).1.forget.walk =
      root.walk.map fun node => Placed.forget (Rose.map (settle redirects root) node) := by
    rw [Placed.forget, resolvePlaced_eq_map distinct, Rose.walk_map, Rose.walk_map, List.map_map]
    rfl
  have href : ∀ node : Placed, (Placed.forget (Rose.map (settle redirects root) node)).value.ref =
      (Register.get? (Placed.id node) (chaseAll redirects root).refs).join := by
    intro node
    rw [Placed.forget, Rose.value_map, Rose.value_map]
    rfl
  rw [Node.Resolves, Placed.ids_forget, ids_resolvePlaced distinct, hwalk]
  constructor
  · intro h id hid target htarget
    obtain ⟨node, hnode, rfl⟩ := Placed.mem_ids.1 hid
    exact h _ (List.mem_map_of_mem hnode) target ((href node).trans htarget)
  · intro h _ hmem target htarget
    obtain ⟨node, hnode, rfl⟩ := List.mem_map.1 hmem
    exact h _ (Placed.id_mem_ids hnode) target ((href node).symm.trans htarget)

/-- References resolve in the end exactly if each names a node of the tree or a key of the table. -/
theorem resolves_resolvePlaced_iff (distinct : root.ids.Nodup) (h : Fits redirects root) :
    (resolvePlaced redirects root).1.forget.Resolves ↔
      ∀ node ∈ root.walk, ∀ target, (Placed.beat node).ref = some target →
        target ∈ root.ids ∨ Register.holds target redirects := by
  rw [resolves_resolvePlaced distinct]
  constructor
  · intro hresolved node hnode target href
    by_contra hlost
    rw [not_or] at hlost
    have hunknown : target ∉ known redirects (refsOf root) := by
      intro hmem
      rcases List.mem_append.1 hmem with hkey | hid
      · obtain ⟨next, hnext⟩ := Register.exists_get?_of_mem_keys hkey
        exact hlost.2 (Option.isSome_iff_exists.2 ⟨next, hnext⟩)
      · exact hlost.1 (keys_refsOf distinct ▸ hid)
    refine hlost.1 (hresolved _ (Placed.id_mem_ids hnode) target ?_)
    rw [chaseAll_eq distinct]
    refine refers_foldl_chaseOne ?_ hunknown root.ids
    rw [Refers, get?_refsOf distinct hnode, href]
    rfl
  · intro hgood id hid
    rw [chaseAll_eq distinct]
    exact Chasing.foldl_chaseOne (chasing_refsOf distinct h hgood) h.ends root.ids id (.inl hid)

end Tree

end StoryAtlas.Reference
