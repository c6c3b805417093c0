import StoryAtlas.Proofs.Reference.Shorten

/-!
# References that are settled

All references of a tree are moved in one round. Where no chain comes back to a place it passed, each
of them names the end of its chain from then on. Where chains do, and no table leads elsewhere, the
nodes on a circle are left as they are. A second round finds nothing to move.
-/

namespace StoryAtlas

def Beat.withoutRef (beat : Beat) : Beat := { beat with ref := none }

namespace Register

theorem eq_map_keys_get? {κ α : Type} [DecidableEq κ] {register : Register κ (Option α)}
    (hkeys : (register.map Prod.fst).Nodup) :
    register = (register.map Prod.fst).map fun key => (key, (get? key register).join) := by
  rw [List.map_map]
  refine (List.map_id'' (fun _ => rfl) register).symm.trans ?_
  refine List.map_congr_left fun entry hentry => ?_
  have hfound : get? entry.1 register = some entry.2 := get?_of_mem hkeys hentry
  rw [Function.comp_apply, hfound, Option.join_some]

end Register

namespace Reference

variable {redirects : Register Int Int} {refs : Register Int (Option Int)} {root : Node}
  {id target last : Int}

def refsIn (root : Node) : Register Int (Option Int) :=
  root.walk.map fun node => (Node.id node, node.value.ref)

theorem keys_refsIn (root : Node) : (refsIn root).map Prod.fst = root.ids := by
  rw [refsIn, List.map_map]
  rfl

theorem refsOf_eq_refsIn {placed : Placed} (distinct : placed.ids.Nodup) :
    refsOf placed = refsIn placed.forget := by
  rw [refsOf_eq distinct, refsIn, Placed.forget, Rose.walk_map, List.map_map]
  exact List.map_congr_left fun node _ =>
    Prod.ext (Placed.id_forget node).symm (congrArg Beat.ref (Placed.value_forget node)).symm

theorem get?_refsIn (distinct : root.ids.Nodup) {node : Node} (hnode : node ∈ root.walk) :
    Register.get? (Node.id node) (refsIn root) = some node.value.ref :=
  Register.get?_of_mem ((keys_refsIn root).symm ▸ distinct) (List.mem_map_of_mem hnode)

theorem refers_refsIn (distinct : root.ids.Nodup) {node : Node} (hnode : node ∈ root.walk) :
    Refers (refsIn root) (Node.id node) target ↔ node.value.ref = some target := by
  rw [Refers, get?_refsIn distinct hnode, Option.join_some]

/-! ### A round over a tree -/

def movedRefs (redirects : Register Int Int) (root : Node) (order : List Int) :
    Register Int (Option Int) :=
  (order.foldl (chaseOne redirects) ⟨refsIn root, 0⟩).refs

def settledRefs (redirects : Register Int Int) (root : Node) : Register Int (Option Int) :=
  movedRefs redirects root root.ids

theorem chaseAll_eq_foldl {placed : Placed} (distinct : placed.ids.Nodup)
    (redirects : Register Int Int) : chaseAll redirects placed =
      placed.forget.ids.foldl (chaseOne redirects) ⟨refsIn placed.forget, 0⟩ := by
  rw [chaseAll_eq distinct, refsOf_eq_refsIn distinct, Placed.ids_forget]

def refer (refs : Register Int (Option Int)) (beat : Beat) : Beat :=
  { beat with ref := (Register.get? beat.id refs).join }

theorem forget_resolvePlaced {placed : Placed} (distinct : placed.ids.Nodup)
    (redirects : Register Int Int) : (resolvePlaced redirects placed).1.forget =
      placed.forget.map (refer (settledRefs redirects placed.forget)) := by
  rw [resolvePlaced_eq_map distinct, Placed.forget, Placed.forget, Rose.map_map, Rose.map_map]
  refine Rose.map_congr fun node _ => ?_
  rw [Function.comp_apply, Function.comp_apply, settle, chaseAll_eq_foldl distinct]
  rfl

theorem resolve_eq (distinct : root.ids.Nodup) (redirects : Register Int Int) :
    resolve redirects root = (root.map (refer (settledRefs redirects root)),
      (root.ids.foldl (chaseOne redirects) ⟨refsIn root, 0⟩).moved) := by
  have hplaced : root.placed.ids.Nodup := (Placed.ids_placed root).symm ▸ distinct
  have hchased := chaseAll_eq_foldl hplaced redirects
  have hmap := forget_resolvePlaced hplaced redirects
  rw [Node.forget_placed] at hchased hmap
  exact Prod.ext hmap (congrArg Chased.moved hchased)

/-- Only ids matter to the round, not places. -/
theorem forget_resolvePlaced_eq {placed : Placed} (distinct : placed.ids.Nodup)
    (redirects : Register Int Int) :
    (resolvePlaced redirects placed).1.forget = (resolve redirects placed.forget).1 := by
  rw [forget_resolvePlaced distinct, resolve_eq ((Placed.ids_forget placed).symm ▸ distinct)]

theorem keys_settledRefs (redirects : Register Int Int) (root : Node) :
    (settledRefs redirects root).map Prod.fst = root.ids := by
  have hknown : known redirects (settledRefs redirects root) = known redirects (refsIn root) :=
    List.foldlRecOn (motive := fun state : Chased =>
      known redirects state.refs = known redirects (refsIn root)) root.ids _ rfl
      fun state hstate id _ => (known_chaseOne redirects state id).trans hstate
  rw [← keys_refsIn root]
  exact List.append_cancel_left hknown

theorem ids_map_refer (refs : Register Int (Option Int)) (root : Node) :
    Node.ids (root.map (refer refs)) = root.ids :=
  Node.ids_map (f := refer refs) (fun _ => rfl) root

theorem refsIn_map_refer (distinct : root.ids.Nodup) (hkeys : refs.map Prod.fst = root.ids) :
    refsIn (root.map (refer refs)) = refs := by
  refine Eq.trans ?_ (Register.eq_map_keys_get? (hkeys ▸ distinct)).symm
  rw [hkeys, refsIn, Rose.walk_map, List.map_map, Node.ids, List.map_map]
  refine List.map_congr_left fun node _ => ?_
  rw [Function.comp_apply, Function.comp_apply, Node.id, Rose.value_map]
  rfl

theorem map_refer_refsIn (distinct : root.ids.Nodup) : root.map (refer (refsIn root)) = root := by
  refine (Rose.map_congr fun node hnode => ?_).trans (Rose.map_id root)
  rw [refer, ← Node.id, get?_refsIn distinct hnode]
  rfl

theorem shortens_settledRefs (h : Escapes redirects (refsIn root)) :
    Shortens redirects (refsIn root) (settledRefs redirects root) ∧
      ∀ id, Rests redirects (settledRefs redirects root) id := by
  obtain ⟨hshort, hrests⟩ := shortens_foldl_chaseOne h 0 root.ids
  refine ⟨hshort, fun id target href => hrests id (.inl ?_) target href⟩
  rw [← keys_settledRefs redirects root]
  rw [Refers, Option.join_eq_some_iff] at href
  exact List.mem_map_of_mem (Register.mem_of_get? href)

theorem resolve_again (distinct : root.ids.Nodup)
    (hrests : ∀ id, Rests redirects (settledRefs redirects root) id) :
    resolve redirects (resolve redirects root).1 = ((resolve redirects root).1, 0) := by
  rw [resolve_eq distinct]
  have hrefs := refsIn_map_refer distinct (keys_settledRefs redirects root)
  have hagain : Node.ids (root.map (refer (settledRefs redirects root))) |>.Nodup := by
    rwa [ids_map_refer]
  have hsame := map_refer_refsIn hagain
  rw [resolve_eq hagain, settledRefs, movedRefs, foldl_chaseOne_eq_self (hrefs.symm ▸ hrests), hsame]

/-! ### Chains that pass no place twice -/

theorem onward_eq_none_iff : onward redirects refs target = none ↔
    Register.get? target redirects = none ∧ (Register.get? target refs).join = none := by
  cases hkey : Register.get? target redirects with
  | none => simp [onward_of_not_redirected hkey]
  | some next => simp [onward_of_redirected hkey]

theorem Straight.chainEnds (h : Straight redirects refs id target) (href : Refers refs id target) :
    ChainEnds redirects refs target (chainEnd redirects refs id target) := by
  obtain ⟨hreaches, hstops⟩ := stops_chainEnd target (mem_known_of_refers href)
  rcases hstops with hend | hback | hround
  · exact ⟨hreaches, hend⟩
  · rw [List.mem_singleton.1 hback] at hreaches
    exact absurd hreaches h.away
  · exact absurd hround (h.rounds _ hreaches)

/-- A reference that rests where no circle is in reach names the end of its chain. -/
theorem Shortens.chainEnds_of_rests {later : Register Int (Option Int)}
    (hshort : Shortens redirects refs later)
    (hstraight : ∀ id target, Refers refs id target → Straight redirects refs id target)
    (hrests : Rests redirects later id) (hlast : Refers later id last) :
    ∃ target, Refers refs id target ∧ ChainEnds redirects refs target last := by
  obtain ⟨target, href, hreaches⟩ := hshort.moved id last hlast
  have hline := hstraight id target href
  refine ⟨target, href, ?_⟩
  rcases hrests last hlast with hend | hround
  · have hchain := (hline.chainEnds href).of_reaches hreaches
    have hsame := eq_of_reaches_of_ends (hshort.ends _ _ hchain).1 hend
    exact ⟨hreaches, hsame ▸ hchain.2⟩
  · exact absurd (hshort.round_of hround) (hline.rounds last hreaches)

theorem refsIn_resolve (distinct : root.ids.Nodup) (redirects : Register Int Int) :
    refsIn (resolve redirects root).1 = settledRefs redirects root := by
  rw [resolve_eq distinct]
  exact refsIn_map_refer distinct (keys_settledRefs redirects root)

theorem ids_resolve (distinct : root.ids.Nodup) (redirects : Register Int Int) :
    (resolve redirects root).1.ids = root.ids := by
  rw [resolve_eq distinct, ids_map_refer]

/-- If no chain gets to a place twice, all references name the ends of their chains afterwards. -/
theorem ends_of_straight (distinct : root.ids.Nodup) (hstraight : ∀ id target,
      Refers (refsIn root) id target → Straight redirects (refsIn root) id target) :
    (∀ id target, Refers (refsIn root) id target → ∃ last,
      ChainEnds redirects (refsIn root) target last ∧
        Refers (refsIn (resolve redirects root).1) id last) ∧
    (∀ id last, Refers (refsIn (resolve redirects root).1) id last →
      (∃ target, Refers (refsIn root) id target) ∧ Register.get? last redirects = none ∧
        ∀ node ∈ (resolve redirects root).1.walk, Node.id node = last → node.value.ref = none) ∧
    resolve redirects (resolve redirects root).1 = ((resolve redirects root).1, 0) := by
  obtain ⟨hshort, hrests⟩ := shortens_settledRefs fun id target href _ =>
    (hstraight id target href).away
  have hrefs := refsIn_resolve distinct redirects
  refine ⟨fun id target href => ?_, fun id last hlast => ?_, resolve_again distinct hrests⟩
  · obtain ⟨last, hlast⟩ := hshort.kept id target href
    obtain ⟨other, hother, hends⟩ := hshort.chainEnds_of_rests hstraight (hrests id) hlast
    rw [Refers, href, Option.some.injEq] at hother
    exact ⟨last, hother ▸ hends, hrefs ▸ hlast⟩
  · rw [hrefs] at hlast
    obtain ⟨target, href, hends⟩ := hshort.chainEnds_of_rests hstraight (hrests id) hlast
    obtain ⟨hkey, hnone⟩ := onward_eq_none_iff.1 (onward_eq_none_of_shortens hshort hends.2)
    refine ⟨⟨target, href⟩, hkey, fun node hnode hid => ?_⟩
    have hfound := get?_refsIn ((ids_resolve distinct redirects).symm ▸ distinct) hnode
    rw [hrefs, hid] at hfound
    rwa [hfound] at hnone

/-- Following references over a whole tree. It always stops, whatever has been moved before, and it
changes nothing but references. If no chain gets to a place twice, all references name the ends of
their chains afterwards. If there is no table, chains may have circles: these stay as they are, and
no node comes to refer to itself. In both cases a second round moves nothing. -/
theorem resolve_settles (distinct : root.ids.Nodup) :
    (∀ redirects order id target, Refers (movedRefs redirects root order) id target →
      Follows redirects (movedRefs redirects root order) [id] target
        (chainEnd redirects (movedRefs redirects root order) id target)) ∧
    (∀ redirects, (resolve redirects root).1.map Beat.withoutRef = root.map Beat.withoutRef) ∧
    (∀ redirects,
      (∀ id target, Refers (refsIn root) id target → Straight redirects (refsIn root) id target) →
      (∀ id target, Refers (refsIn root) id target → ∃ last,
        ChainEnds redirects (refsIn root) target last ∧
          Refers (refsIn (resolve redirects root).1) id last) ∧
      (∀ id last, Refers (refsIn (resolve redirects root).1) id last →
        (∃ target, Refers (refsIn root) id target) ∧ Register.get? last redirects = none ∧
          ∀ node ∈ (resolve redirects root).1.walk, Node.id node = last → node.value.ref = none) ∧
      resolve redirects (resolve redirects root).1 = ((resolve redirects root).1, 0)) ∧
    (∀ id, Round [] (refsIn root) id →
      Register.get? id (refsIn (resolve [] root).1) = Register.get? id (refsIn root)) ∧
    (∀ id, Refers (refsIn (resolve [] root).1) id id → Refers (refsIn root) id id) ∧
    resolve [] (resolve [] root).1 = ((resolve [] root).1, 0) := by
  have hfree : Escapes [] (refsIn root) := fun _ _ _ hkey => absurd hkey Bool.false_ne_true
  obtain ⟨hshort, hrests⟩ := shortens_settledRefs hfree
  rw [refsIn_resolve distinct]
  refine ⟨fun redirects order id target => follows_chainEnd, fun redirects => ?_,
    fun redirects hstraight => ends_of_straight distinct hstraight,
    fun id hround => hshort.circling id rfl hround, hshort.selves, resolve_again distinct hrests⟩
  rw [resolve_eq distinct, Rose.map_map]
  exact Rose.map_congr fun _ _ => rfl

section Descends

variable (rank : Int → Nat) (hleads : ∀ place ∈ known redirects refs,
  ∀ next ∈ onward redirects refs place, rank next < rank place)

include hleads in
theorem rank_le_of_reaches {place next : Int}
    (h : Relation.ReflTransGen (Leads redirects refs) place next) : rank next ≤ rank place := by
  induction h with
  | refl => exact Nat.le_refl _
  | tail _ hstep ih => exact (hleads _ (mem_known hstep) _ hstep).le.trans ih

include hleads in
theorem not_round_of_descends (place : Int) : ¬Round redirects refs place := by
  intro hround
  obtain ⟨next, hnext, hback⟩ := Relation.TransGen.head'_iff.1 hround
  exact absurd (rank_le_of_reaches rank hleads hback) (hleads _ (mem_known hnext) _ hnext).not_ge

include hleads in
theorem straight_of_descends (hrefs : ∀ id ∈ refs.map Prod.fst,
      ∀ target ∈ (Register.get? id refs).join, rank target < rank id)
    (href : Refers refs id target) : Straight redirects refs id target := by
  refine ⟨fun hback => ?_, fun place _ => not_round_of_descends rank hleads place⟩
  have hid : id ∈ refs.map Prod.fst := by
    rw [Refers, Option.join_eq_some_iff] at href
    exact List.mem_map_of_mem (Register.mem_of_get? href)
  exact absurd (rank_le_of_reaches rank hleads hback) (hrefs id hid target href).not_ge

end Descends

def signpost (id : Int) (ref : Option Int) : Node := .node { id, kind := .dialogue, ref } []

/-- Signs that send a traveller on from one to the next, the last by way of one that is gone. -/
def signposts : Node :=
  .node { id := 0, kind := .dialogue, text := some "A road." }
    [signpost 1 none, signpost 2 (some 1), signpost 3 (some 2), signpost 10 (some 9)]

/-- Two signs that point at each other, and two that send a traveller there. -/
def roundabout : Node :=
  .node { id := 0, kind := .dialogue, text := some "A square." }
    [signpost 1 (some 2), signpost 2 (some 1), signpost 3 (some 2), signpost 4 (some 3)]

theorem round_roundabout : Round [] (refsIn roundabout) 1 :=
  .tail (.single (show Leads _ _ 1 2 by rfl)) (show Leads _ _ 2 1 by rfl)

theorem resolve_settles_signposts :
    (signposts.ids.Nodup ∧
      (∃ last, ChainEnds [(9, 3)] (refsIn signposts) 9 last ∧
        Refers (refsIn (resolve [(9, 3)] signposts).1) 10 last) ∧
      resolve [(9, 3)] (resolve [(9, 3)] signposts).1 = ((resolve [(9, 3)] signposts).1, 0)) ∧
    roundabout.ids.Nodup ∧ Refers (refsIn (resolve [] roundabout).1) 1 2 ∧
      resolve [] (resolve [] roundabout).1 = ((resolve [] roundabout).1, 0) := by
  have hsigns : signposts.ids.Nodup := by decide
  have hround : roundabout.ids.Nodup := by decide
  obtain ⟨hends, -, hagain⟩ := (resolve_settles hsigns).2.2.1 [(9, 3)] fun id target =>
    straight_of_descends Int.toNat (by decide) (by decide)
  obtain ⟨hstays, -, hagain'⟩ := (resolve_settles hround).2.2.2
  refine ⟨⟨hsigns, hends 10 9 rfl, hagain⟩, hround, ?_, hagain'⟩
  rw [Refers, hstays 1 round_roundabout]
  rfl

end Reference

end StoryAtlas
