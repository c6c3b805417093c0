import StoryAtlas.Proofs.Share.Again

/-!
# What a sweep that removes nothing has left alone

While a sweep removes nothing, all it remembers of the nodes that it has met is the first candidate
with each signature, and a later candidate is compared with that one only. So the trees that a sweep
does not change can be told without it: each candidate is the first with its signature, or differs
from the first, or bears the mark of a roll, or is watched by a reference from outside.

A signature looks one step down, so candidates that differ further down can have the same. Two that
are the same all the way down are then both left, if the first with their signature is a third one.
-/

namespace StoryAtlas

namespace Rose

variable {α β : Type}

theorem map_joinLevels {γ δ : Type} (f : γ → δ) (first second : List (List γ)) :
    (joinLevels first second).map (List.map f) =
      joinLevels (first.map (List.map f)) (second.map (List.map f)) := by
  induction first generalizing second with
  | nil => rfl
  | cons level levels ih =>
      cases second with
      | nil => rfl
      | cons other others => simp only [joinLevels, List.map_cons, List.map_append, ih]

theorem levels_map (f : α → β) (t : Rose α) : (map f t).levels = t.levels.map (List.map (map f)) := by
  induction t using induction_on with
  | node a cs ih =>
      have hforest : levelsForest (cs.map (map f)) = (levelsForest cs).map (List.map (map f)) := by
        induction cs with
        | nil => rfl
        | cons c cs ihcs =>
            rw [List.map_cons, levelsForest, levelsForest, map_joinLevels, ih c (by simp),
              ihcs fun d hd => ih d (by simp [hd])]
      rw [map_node, levels_eq, levels_eq, children_node, children_node, hforest, List.map_cons,
        List.map_singleton, map_node]

theorem breadth_map (f : α → β) (t : Rose α) : (map f t).breadth = t.breadth.map (map f) := by
  rw [breadth, levels_map, ← List.map_flatten, breadth]

end Rose

namespace Node

theorem childSignature_content (depth : Nat) (child : Node) :
    childSignature depth (child.map Beat.content) = childSignature depth child := by
  have hwidth (step : Nat) : ((child.map Beat.content).levels[step]?.getD []).length =
      (child.levels[step]?.getD []).length := by
    rw [Rose.levels_map, List.getElem?_map]
    cases child.levels[step]? with
    | none => rfl
    | some level => exact List.length_map _
  simp only [childSignature, Rose.value_map, Beat.content, hwidth]

theorem signature_eq_of_sameBelow {first second : Node} (depth : Nat)
    (hechoes : first.value.Echoes second.value) (hsame : first.sameBelow second = true) :
    first.signature depth = second.signature depth := by
  have hforest := Rose.sameForest_iff.1 hsame
  rw [Rose.mapForest_eq_map, Rose.mapForest_eq_map] at hforest
  have hchildren (node : Node) : node.children.map (childSignature depth) =
      (node.children.map (Rose.map Beat.content)).map (childSignature depth) := by
    rw [List.map_map]
    exact List.map_congr_left fun child _ => (childSignature_content depth child).symm
  have hlength : first.children.length = second.children.length := by
    simpa using congrArg List.length hforest
  rw [signature, signature, hechoes.text, hechoes.label, hechoes.kind, hlength, hchildren first,
    hchildren second, hforest]

end Node

namespace Share

/-! ### Candidates, keepers and who watches -/

/-- The node may be shared at all. -/
structure Candidate (options : Options) (node : Node) : Prop where
  parent : node.children ≠ []
  ref : node.value.ref = none
  kind : node.value.kind ≠ .choice
  size : options.minSize ≤ node.size

theorem candidate_iff {options : Options} {node : Node} : Candidate options node ↔
    (!node.children.isEmpty && node.value.ref.isNone && node.value.kind != .choice &&
      decide (options.minSize ≤ node.size)) = true := by
  simp only [Bool.and_eq_true, Bool.not_eq_true', List.isEmpty_eq_false_iff,
    Option.isNone_iff_eq_none, bne_iff_ne, decide_eq_true_eq]
  exact ⟨fun ⟨parent, ref, kind, size⟩ => ⟨⟨⟨parent, ref⟩, kind⟩, size⟩,
    fun ⟨⟨⟨parent, ref⟩, kind⟩, size⟩ => ⟨parent, ref, kind, size⟩⟩

instance (options : Options) (node : Node) : Decidable (Candidate options node) :=
  decidable_of_iff _ candidate_iff.symm

/-- The candidate has the signature of the node. -/
def Resembles (options : Options) (node other : Node) : Prop :=
  Candidate options other ∧
    other.signature options.signatureDepth.toNat = node.signature options.signatureDepth.toNat

instance (options : Options) (node other : Node) : Decidable (Resembles options node other) :=
  inferInstanceAs (Decidable (_ ∧ _))

/-- The first candidate, level by level, that has the signature of the node. -/
def keeper? (options : Options) (root node : Node) : Option Node :=
  root.breadth.find? fun other => Resembles options node other

/-- A node outside the subtree refers to a node in it. -/
def Watched (root node : Node) : Prop :=
  ∃ other ∈ root.walk, other ∉ node.walk ∧ ∃ inside ∈ node.walk,
    (Rose.value other).ref = some (Node.id inside)

/-- The node has the same below it as the keeper, and nothing holds it back. -/
structure Repeats (root node keeper : Node) : Prop where
  same : node.sameBelow keeper = true
  unmarked : bearsMark node.value = false
  unwatched : ¬Watched root node

/-! ### A sweep while it removes nothing -/

section Idle

variable {options : Options} {tree : Node} {visited : List Placed} {state : State} {node : Placed}

/-- The first candidate with the signature of the node among those visited. -/
def metKeeper? (options : Options) (visited : List Placed) (node : Placed) : Option Placed :=
  visited.find? fun other => Resembles options node.forget other.forget

theorem metKeeper?_append_of_some {keeper : Placed} {later : List Placed}
    (h : metKeeper? options visited node = some keeper) :
    metKeeper? options (visited ++ later) node = some keeper := by
  unfold metKeeper? at h ⊢
  rw [List.find?_append, h, Option.some_or]

theorem metKeeper?_append_of_none {later : List Placed} (h : metKeeper? options visited node = none) :
    metKeeper? options (visited ++ later) node = metKeeper? options later node := by
  unfold metKeeper? at h ⊢
  rw [List.find?_append, h, Option.none_or]

theorem metKeeper?_congr {other : Placed} (visited : List Placed)
    (h : other.forget.signature options.signatureDepth.toNat =
      node.forget.signature options.signatureDepth.toNat) :
    metKeeper? options visited other = metKeeper? options visited node := by
  unfold metKeeper?
  congr 1
  funext met
  exact decide_eq_decide.2 (by rw [Resembles, Resembles, h])

/-- Nothing has been collapsed, and the keepers are the first candidates with their signatures. -/
structure Idle (options : Options) (tree : Node) (visited : List Placed) (state : State) : Prop where
  guard : state.guard = Guard.ofPlaced tree.placed
  pruned : state.pruned = []
  collapsed : state.collapsed = []
  removed : state.removed = 0
  keepers : ∀ node : Placed, Register.get? (node.forget.signature options.signatureDepth.toNat)
    state.keepers = (metKeeper? options visited node).map Placed.id

theorem idle_start (options : Options) (tree : Node) :
    Idle options tree [] { guard := Guard.ofPlaced tree.placed } :=
  ⟨rfl, rfl, rfl, rfl, fun _ => rfl⟩

theorem Idle.eligible_iff (h : Idle options tree visited state) :
    eligible options state node = true ↔ Candidate options node.forget := by
  have hsize : node.forget.size = node.size := Rose.size_map _ _
  have hempty : node.forget.children.isEmpty = node.children.isEmpty := by
    rw [Placed.forget, Rose.children_map, List.isEmpty_map]
  rw [candidate_iff, eligible, h.pruned, Placed.value_forget, hsize, hempty]
  rfl

/-- The guard of a tree stops a drop exactly if the node is watched. -/
theorem wouldOrphan_ofPlaced_iff (distinct : tree.ids.Nodup) (natural : ∀ id ∈ tree.ids, 0 ≤ id)
    (hnode : node ∈ tree.placed.walk) :
    (Guard.ofPlaced tree.placed).wouldOrphan node.id = true ↔ Watched tree node.forget := by
  have hids : (Placed.ids tree.placed).Nodup := Placed.ids_placed tree ▸ distinct
  have hrefs (outside : Placed) (houtside : outside ∈ tree.placed.walk) (target : Int) :
      (Placed.id outside, target) ∈ (Guard.ofPlaced tree.placed).refs ↔
        (Placed.beat outside).ref = some target := by
    constructor
    · intro hmem
      obtain ⟨other, hother, href⟩ := List.mem_filterMap.1 hmem
      obtain ⟨found, hfound, hpair⟩ := Option.map_eq_some_iff.1 href
      obtain ⟨hid, rfl⟩ := Prod.mk.inj hpair
      rwa [← Placed.eq_of_id_eq hids hother houtside hid]
    · intro href
      exact List.mem_filterMap.2 ⟨outside, houtside, by rw [href]; rfl⟩
  rw [Guard.wouldOrphan_iff distinct ⟨rfl, rfl⟩ hnode]
  constructor
  · rintro ⟨outside, houtside, hout, inside, hinside, hmem, -⟩
    refine ⟨Placed.forget outside, ?_, fun hin => hout ?_, Placed.forget inside,
      Placed.forget_mem_walk hinside, ?_⟩
    · exact Node.forget_placed tree ▸ Placed.forget_mem_walk houtside
    · obtain ⟨other, hother, hforget⟩ := Placed.exists_of_mem_walk_forget hin
      have hid : Placed.id other = Placed.id outside := by
        rw [← Placed.id_forget, hforget, Placed.id_forget]
      rwa [← Placed.eq_of_id_eq hids (Rose.mem_walk_trans hother hnode) houtside hid]
    · rw [Placed.value_forget, Placed.id_forget]
      exact (hrefs outside houtside _).1 hmem
  · rintro ⟨other, hother, hout, below, hbelow, href⟩
    rw [← Node.forget_placed tree] at hother
    obtain ⟨outside, houtside, rfl⟩ := Placed.exists_of_mem_walk_forget hother
    obtain ⟨inside, hinside, rfl⟩ := Placed.exists_of_mem_walk_forget hbelow
    rw [Placed.value_forget, Placed.id_forget] at href
    refine ⟨outside, houtside, fun hmem => hout (Placed.forget_mem_walk hmem), inside, hinside,
      (hrefs outside houtside _).2 href, fun _ => ?_⟩
    have hpos := natural node.id (Placed.ids_placed tree ▸ Placed.id_mem_ids hnode)
    unfold Guard.leastTarget
    omega

theorem Idle.redundant_iff {keeper : Placed} (distinct : tree.ids.Nodup)
    (natural : ∀ id ∈ tree.ids, 0 ≤ id) (hnode : node ∈ tree.placed.walk)
    (h : Idle options tree visited state) :
    redundant state node keeper = true ↔ Repeats tree node.forget keeper.forget := by
  have hself : keeper.collapse state.collapsed = keeper :=
    Placed.collapse_eq_self fun _ _ => by rw [h.collapsed]; rfl
  have hwatched := wouldOrphan_ofPlaced_iff distinct natural hnode
  rw [← h.guard] at hwatched
  simp only [redundant, hself, Bool.and_eq_true, Bool.not_eq_true']
  constructor
  · rintro ⟨⟨hsame, hmark⟩, horphan⟩
    refine ⟨hsame, by rwa [Placed.value_forget], fun hwatch => ?_⟩
    rw [hwatched.2 hwatch] at horphan
    cases horphan
  · rintro ⟨hsame, hmark, hwatch⟩
    refine ⟨⟨hsame, by rwa [Placed.value_forget] at hmark⟩, ?_⟩
    rw [← Bool.not_eq_true]
    exact mt hwatched.1 hwatch

def nodesById (tree : Node) : Register Int Placed :=
  Register.ofList (tree.placed.breadth.map fun node => (Placed.id node, node))

theorem get?_nodesById (distinct : tree.ids.Nodup) (hnode : node ∈ tree.placed.walk) :
    Register.get? node.id (nodesById tree) = some node := by
  have hids : (Placed.ids tree.placed).Nodup := Placed.ids_placed tree ▸ distinct
  refine Register.get?_ofList_of_mem ?_ (List.mem_map_of_mem (Rose.mem_breadth.2 hnode))
  rw [List.map_map, ((Rose.breadth_perm_walk tree.placed).map _).nodup_iff]
  exact hids

/-- The candidate would be dropped for the keeper that has been met. -/
def Drops (options : Options) (tree : Node) (visited : List Placed) (node : Placed) : Prop :=
  Candidate options node.forget ∧ ∃ keeper, metKeeper? options visited node = some keeper ∧
    Repeats tree node.forget keeper.forget

theorem drops_iff {keeper : Placed} (hcandidate : Candidate options node.forget)
    (hmet : metKeeper? options visited node = some keeper) :
    Drops options tree visited node ↔ Repeats tree node.forget keeper.forget := by
  refine ⟨?_, fun hrepeats => ⟨hcandidate, keeper, hmet, hrepeats⟩⟩
  rintro ⟨-, other, hother, hrepeats⟩
  rw [hmet, Option.some.injEq] at hother
  rwa [hother]

theorem Candidate.size_pos (h : Candidate options node.forget) : 0 < node.size - 1 := by
  obtain ⟨child, hchild⟩ := List.exists_mem_of_ne_nil _ h.parent
  have hlarger := Rose.size_lt_of_mem_children hchild
  have hpos := Rose.size_pos child
  have hsize : node.forget.size = node.size := Rose.size_map _ _
  omega

theorem Idle.skip (h : Idle options tree visited state)
    (hskip : ¬Candidate options node.forget ∨ metKeeper? options visited node ≠ none) :
    Idle options tree (visited ++ [node]) state where
  guard := h.guard
  pruned := h.pruned
  collapsed := h.collapsed
  removed := h.removed
  keepers other := by
    rw [h.keepers other]
    cases hfound : metKeeper? options visited other with
    | some keeper => rw [metKeeper?_append_of_some hfound]
    | none =>
        have hno : ¬Resembles options other.forget node.forget := by
          rintro ⟨hcandidate, hsame⟩
          -- the two nodes have one signature, so they look for one keeper
          rw [metKeeper?_congr visited hsame.symm] at hfound
          exact hskip.elim (fun hnot => hnot hcandidate) fun hmet => hmet hfound
        rw [metKeeper?_append_of_none hfound, metKeeper?, List.find?_cons_of_neg (by simpa using hno)]
        rfl

theorem Idle.keep (h : Idle options tree visited state) (hcandidate : Candidate options node.forget)
    (hnew : metKeeper? options visited node = none) :
    Idle options tree (visited ++ [node]) { state with
      keepers := Register.put (node.forget.signature options.signatureDepth.toNat) node.id
        state.keepers } where
  guard := h.guard
  pruned := h.pruned
  collapsed := h.collapsed
  removed := h.removed
  keepers other := by
    rw [Register.get?_put]
    split
    · next hsame =>
      have hlike : Resembles options other.forget node.forget := ⟨hcandidate, hsame.symm⟩
      rw [← metKeeper?_congr visited hsame] at hnew
      rw [metKeeper?_append_of_none hnew, metKeeper?, List.find?_cons_of_pos (by simpa using hlike)]
      rfl
    · next hne =>
      have hno : ¬Resembles options other.forget node.forget := fun hlike => hne hlike.2.symm
      rw [h.keepers other]
      cases hfound : metKeeper? options visited other with
      | some keeper => rw [metKeeper?_append_of_some hfound]
      | none =>
          rw [metKeeper?_append_of_none hfound, metKeeper?,
            List.find?_cons_of_neg (by simpa using hno)]
          rfl

theorem Idle.visit (distinct : tree.ids.Nodup) (natural : ∀ id ∈ tree.ids, 0 ≤ id)
    (hvisited : ∀ earlier ∈ visited, earlier ∈ tree.placed.walk) (hnode : node ∈ tree.placed.walk)
    (h : Idle options tree visited state) :
    (Drops options tree visited node ∧
        0 < (Share.visit options (nodesById tree) state node).removed) ∨
      (¬Drops options tree visited node ∧
        Idle options tree (visited ++ [node]) (Share.visit options (nodesById tree) state node)) := by
  unfold Share.visit
  split
  · next heligible =>
    have hcandidate := h.eligible_iff.1 heligible
    dsimp only
    rw [h.keepers node]
    cases hmet : metKeeper? options visited node with
    | none =>
        refine .inr ⟨?_, h.keep hcandidate hmet⟩
        rintro ⟨-, keeper, hkeeper, -⟩
        rw [hmet] at hkeeper
        cases hkeeper
    | some keeper =>
        rw [Option.map_some]
        dsimp only
        rw [get?_nodesById distinct (hvisited keeper (List.mem_of_find?_eq_some hmet))]
        dsimp only
        rw [drops_iff hcandidate hmet, ← h.redundant_iff distinct natural hnode]
        split
        · next hredundant => exact .inl ⟨hredundant, Nat.add_pos_right _ hcandidate.size_pos⟩
        · next hnot =>
          exact .inr ⟨hnot, h.skip (.inr (by rw [hmet]; exact Option.some_ne_none keeper))⟩
  · next hnot =>
    have hcandidate := mt h.eligible_iff.2 hnot
    exact .inr ⟨fun hdrops => hcandidate hdrops.1, h.skip (.inl hcandidate)⟩

theorem removed_le_visit (options : Options) (byId : Register Int Placed) (state : State)
    (node : Placed) : state.removed ≤ (visit options byId state node).removed := by
  unfold visit
  split
  · dsimp only
    split
    · exact Nat.le_refl _
    · split
      · split
        · exact Nat.le_add_right _ _
        · exact Nat.le_refl _
      · exact Nat.le_refl _
  · exact Nat.le_refl _

theorem removed_le_foldl_visit (options : Options) (byId : Register Int Placed)
    (later : List Placed) (state : State) :
    state.removed ≤ (later.foldl (visit options byId) state).removed :=
  List.foldlRecOn (motive := fun after : State => state.removed ≤ after.removed) later _
    (Nat.le_refl _) fun after hafter node _ => hafter.trans (removed_le_visit options byId after node)

/-- The rest of a sweep removes nothing exactly if no node is dropped for one met before it. -/
theorem Idle.removed_foldl_iff (distinct : tree.ids.Nodup) (natural : ∀ id ∈ tree.ids, 0 ≤ id)
    {later : List Placed} (hsplit : ∀ found ∈ visited ++ later, found ∈ tree.placed.walk)
    (h : Idle options tree visited state) :
    (later.foldl (Share.visit options (nodesById tree)) state).removed = 0 ↔
      ∀ met node rest, later = met ++ node :: rest → ¬Drops options tree (visited ++ met) node := by
  induction later generalizing visited state with
  | nil =>
      refine iff_of_true h.removed fun met node rest hnil => ?_
      exact absurd hnil.symm (List.append_ne_nil_of_right_ne_nil met (List.cons_ne_nil node rest))
  | cons first later ih =>
      have hvisited : ∀ earlier ∈ visited, earlier ∈ tree.placed.walk :=
        fun earlier hearlier => hsplit earlier (List.mem_append_left _ hearlier)
      have hfirst := hsplit first (List.mem_append_right _ List.mem_cons_self)
      rw [List.foldl_cons]
      rcases h.visit distinct natural hvisited hfirst with ⟨hdrops, hremoved⟩ | ⟨hstays, hidle⟩
      · refine iff_of_false (fun hzero => ?_) fun hnone => ?_
        · have hgrown := removed_le_foldl_visit options (nodesById tree) later
            (Share.visit options (nodesById tree) state first)
          omega
        · refine hnone [] first later rfl ?_
          rwa [List.append_nil]
      · rw [ih (by rwa [List.append_assoc]) hidle]
        constructor
        · intro hlater met node rest hmet
          cases met with
          | nil =>
              obtain ⟨rfl, -⟩ := List.cons.inj hmet
              rwa [List.append_nil]
          | cons other met =>
              obtain ⟨rfl, hrest⟩ := List.cons.inj hmet
              have := hlater met node rest hrest
              rwa [List.append_assoc] at this
        · intro hall met node rest hmet
          have := hall (first :: met) node rest (by rw [hmet]; rfl)
          rwa [List.append_assoc]

end Idle

/-! ### The trees that a sweep does not change -/

section Settled

variable {options : Options} {root : Node}

theorem root_once_eq_iff (distinct : root.ids.Nodup) :
    (once options root).root = root ↔ Settled options root := by
  constructor
  · intro hroot
    have hsize := (steps_once options distinct).2
    rw [hroot] at hsize
    exact Nat.add_left_cancel (hsize.trans (Nat.add_zero _).symm)
  · intro hsettled
    rw [hsettled.once_eq distinct]

theorem keeper?_forget (options : Options) (root : Node) (node : Placed) :
    keeper? options root node.forget =
      (metKeeper? options root.placed.breadth node).map Placed.forget := by
  have hbreadth : root.breadth = root.placed.breadth.map Placed.forget :=
    (congrArg Rose.breadth (Node.forget_placed root).symm).trans (Rose.breadth_map _ _)
  rw [keeper?, metKeeper?, hbreadth, List.find?_map]
  rfl

/-- A sweep leaves the tree alone exactly if no candidate repeats the first with its signature. -/
theorem settled_iff (distinct : root.ids.Nodup) (natural : ∀ id ∈ root.ids, 0 ≤ id) :
    Settled options root ↔ ∀ node ∈ root.walk, Candidate options node → ∀ keeper,
      keeper? options root node = some keeper → keeper = node ∨ ¬Repeats root node keeper := by
  have hids : (Placed.ids root.placed).Nodup := Placed.ids_placed root ▸ distinct
  have hnodup : root.placed.breadth.Nodup :=
    (((Rose.breadth_perm_walk root.placed).map _).nodup_iff.2 hids).of_map
  have hmemWalk : ∀ found ∈ root.placed.breadth, found ∈ root.placed.walk :=
    fun found hfound => Rose.mem_breadth.1 hfound
  refine Iff.trans ((idle_start options root).removed_foldl_iff distinct natural hmemWalk)
    ⟨fun hnone node hnode hcandidate keeper hfirst => ?_, ?_⟩
  · rw [← Node.forget_placed root] at hnode
    obtain ⟨origin, horigin, rfl⟩ := Placed.exists_of_mem_walk_forget hnode
    obtain ⟨met, rest, hsplit⟩ := List.append_of_mem (Rose.mem_breadth.2 horigin)
    rw [keeper?_forget] at hfirst
    obtain ⟨first, hfound, rfl⟩ := Option.map_eq_some_iff.1 hfirst
    rw [hsplit, metKeeper?, List.find?_append] at hfound
    cases hmet : metKeeper? options met origin with
    | some earlier =>
        rw [metKeeper?] at hmet
        rw [hmet, Option.some_or, Option.some.injEq] at hfound
        refine .inr fun hrepeats => hnone met origin rest hsplit ⟨hcandidate, first, ?_, hrepeats⟩
        rw [List.nil_append, metKeeper?, hmet, hfound]
    | none =>
        rw [metKeeper?] at hmet
        rw [hmet, Option.none_or, List.find?_cons_of_pos (by simpa using ⟨hcandidate, rfl⟩),
          Option.some.injEq] at hfound
        exact .inl (by rw [hfound])
  · rintro hall met node rest hsplit ⟨hcandidate, keeper, hmet, hrepeats⟩
    have hnode : node ∈ root.placed.walk := Rose.mem_breadth.1 (hsplit ▸ by simp)
    rw [List.nil_append] at hmet
    have hfirst : keeper? options root node.forget = some keeper.forget := by
      rw [keeper?_forget, metKeeper?, hsplit, List.find?_append]
      rw [metKeeper?] at hmet
      rw [hmet]
      rfl
    have hmem : keeper ∈ met := List.mem_of_find?_eq_some hmet
    have hforget : node.forget ∈ root.walk :=
      Node.forget_placed root ▸ Placed.forget_mem_walk hnode
    rcases hall node.forget hforget hcandidate _ hfirst with hself | hnot
    · have hwalk : keeper ∈ root.placed.walk := Rose.mem_breadth.1 (hsplit ▸ by simp [hmem])
      have hid : Placed.id keeper = Placed.id node := by
        rw [← Placed.id_forget, hself, Placed.id_forget]
      rw [Placed.eq_of_id_eq hids hwalk hnode hid] at hmem
      rw [hsplit] at hnodup
      exact (List.nodup_append.1 hnodup).2.2 node hmem node List.mem_cons_self rfl
    · exact hnot hrepeats

theorem ne_and_eq_or_sublist_of_find? {α : Type} {test : α → Bool} {items : List α}
    {entry later found : α} (distinct : items.Nodup) (h : [entry, later].Sublist items)
    (hentry : test entry = true) (hfound : items.find? test = some found) :
    found ≠ later ∧ (found = entry ∨ [found, entry].Sublist items) := by
  obtain ⟨before, after, rfl, hmem, hlater⟩ := List.cons_sublist_iff.1 h
  obtain ⟨first, hfirst⟩ : ∃ first, before.find? test = some first :=
    Option.isSome_iff_exists.1 (List.find?_isSome.2 ⟨entry, hmem, hentry⟩)
  rw [List.find?_append, hfirst, Option.some_or, Option.some.injEq] at hfound
  subst hfound
  constructor
  · exact (List.nodup_append.1 distinct).2.2 _ (List.mem_of_find?_eq_some hfirst) _
      (List.singleton_sublist.1 hlater)
  · obtain ⟨-, front, back, rfl, hnone⟩ := List.find?_eq_some_iff_append.1 hfirst
    rcases List.mem_append.1 hmem with hfront | hback
    · have hfails := hnone entry hfront
      rw [hentry] at hfails
      cases hfails
    · rcases List.mem_cons.1 hback with hsame | hback
      · exact .inl hsame.symm
      · right
        refine List.Sublist.trans ?_ ((List.sublist_append_right front _).trans
          (List.sublist_append_left _ after))
        exact (List.singleton_sublist.2 hback).cons_cons _

/-- In a tree that a sweep does not change, let two candidates agree in type, label and text, which
bears no mark, and be the same below. Then the later one is watched from outside, or the first
candidate with their signature comes before both and differs from the later one. -/
theorem watched_or_differs (distinct : root.ids.Nodup) (natural : ∀ id ∈ root.ids, 0 ≤ id)
    (hfixed : (once options root).root = root) {first later : Node}
    (horder : [first, later].Sublist root.breadth) (hfirst : Candidate options first)
    (hlater : Candidate options later) (hechoes : later.value.Echoes first.value)
    (hmark : bearsMark later.value = false) (hsame : later.sameBelow first = true) :
    Watched root later ∨ ∃ keeper, keeper? options root later = some keeper ∧
      [keeper, first].Sublist root.breadth ∧ later.sameBelow keeper = false := by
  have hids : (root.breadth.map Node.id).Nodup :=
    ((Rose.breadth_perm_walk root).map _).nodup_iff.2 distinct
  have hresembles : Resembles options later first :=
    ⟨hfirst, (Node.signature_eq_of_sameBelow _ hechoes hsame).symm⟩
  obtain ⟨keeper, hkeeper⟩ : ∃ keeper, keeper? options root later = some keeper :=
    Option.isSome_iff_exists.1 (List.find?_isSome.2
      ⟨first, horder.subset List.mem_cons_self, by simpa using hresembles⟩)
  have hwalk : later ∈ root.walk := Rose.mem_breadth.1 (horder.subset (by simp))
  obtain ⟨hne, hcases⟩ :=
    ne_and_eq_or_sublist_of_find? hids.of_map horder (by simpa using hresembles) hkeeper
  have hnot := ((settled_iff distinct natural).1 ((root_once_eq_iff distinct).1 hfixed) later hwalk
    hlater keeper hkeeper).resolve_left hne
  by_cases hwatched : Watched root later
  · exact .inl hwatched
  · have hdiffers : later.sameBelow keeper = false := by
      rw [← Bool.not_eq_true]
      exact fun hkeeperSame => hnot ⟨hkeeperSame, hmark, hwatched⟩
    refine .inr ⟨keeper, hkeeper, hcases.resolve_left ?_, hdiffers⟩
    rintro rfl
    rw [hsame] at hdiffers
    cases hdiffers

/-- Three shrines. What is told at the first differs from what is told at the other two, but only two
steps down. -/
def blessings : Node :=
  spoken 0 "Crossroads." [
    spoken 1 "A shrine." [spoken 2 "Pray." [spoken 3 "Blessed." []]],
    spoken 4 "A shrine." [spoken 5 "Pray." [spoken 6 "Cursed." []]],
    spoken 7 "A shrine." [spoken 8 "Pray." [spoken 9 "Cursed." []]]]

def cursedShrine (id : Int) : Node :=
  spoken id "A shrine." [spoken (id + 1) "Pray." [spoken (id + 2) "Cursed." []]]

theorem once_blessings : (once {} blessings).root = blessings :=
  (root_once_eq_iff (by decide)).2 (by decide +kernel : (once {} blessings).removed = 0)

theorem sublist_breadth_blessings :
    [cursedShrine 4, cursedShrine 7].Sublist blessings.breadth := by
  have hbreadth : blessings.breadth = [blessings, spoken 1 "A shrine." [spoken 2 "Pray."
      [spoken 3 "Blessed." []]]] ++ [cursedShrine 4, cursedShrine 7] ++
      blessings.breadth.drop 4 := rfl
  rw [hbreadth]
  exact (List.sublist_append_right _ _).trans (List.sublist_append_left _ _)

theorem not_watched_of_refs {root node : Node}
    (h : ∀ other ∈ root.walk, (Rose.value other).ref = none) : ¬Watched root node := by
  rintro ⟨other, hother, -, inside, -, href⟩
  rw [h other hother] at href
  cases href

/-- The last shrine is not compared with the one that it repeats. -/
theorem watched_or_differs_blessings : blessings.ids.Nodup ∧ (∀ id ∈ blessings.ids, 0 ≤ id) ∧
    (once {} blessings).root = blessings ∧ Candidate {} (cursedShrine 4) ∧
    Candidate {} (cursedShrine 7) ∧ (cursedShrine 7).sameBelow (cursedShrine 4) = true ∧
    ∃ keeper, keeper? {} blessings (cursedShrine 7) = some keeper ∧
      [keeper, cursedShrine 4].Sublist blessings.breadth ∧
      (cursedShrine 7).sameBelow keeper = false := by
  have distinct : blessings.ids.Nodup := by decide
  have natural : ∀ id ∈ blessings.ids, 0 ≤ id := by decide
  have hfirst : Candidate {} (cursedShrine 4) := by decide
  have hlater : Candidate {} (cursedShrine 7) := by decide
  have hsame : (cursedShrine 7).sameBelow (cursedShrine 4) = true := by decide
  refine ⟨distinct, natural, once_blessings, hfirst, hlater, hsame, ?_⟩
  exact (watched_or_differs distinct natural once_blessings sublist_breadth_blessings hfirst hlater
    ⟨rfl, rfl, rfl⟩ (by decide) hsame).resolve_left (not_watched_of_refs (by decide))

/-- The two shrines that curse are the same and nobody watches them, and a sweep leaves both. -/
theorem same_and_unwatched_blessings : blessings.ids.Nodup ∧ (∀ id ∈ blessings.ids, 0 ≤ id) ∧
    (once {} blessings).root = blessings ∧ ∃ first later : Node,
      [first, later].Sublist blessings.breadth ∧ Candidate {} first ∧ Candidate {} later ∧
      later.value.Echoes first.value ∧ bearsMark later.value = false ∧
      Node.sameBelow later first = true ∧ ¬Watched blessings later := by
  refine ⟨by decide, by decide, once_blessings, cursedShrine 4, cursedShrine 7,
    sublist_breadth_blessings, by decide, by decide, ⟨rfl, rfl, rfl⟩, by decide, by decide, ?_⟩
  exact not_watched_of_refs (by decide)

end Settled

end Share

end StoryAtlas
