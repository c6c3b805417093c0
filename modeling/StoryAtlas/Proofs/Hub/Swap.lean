import StoryAtlas.Proofs.Hub.Promote
import StoryAtlas.Proofs.Rose.Depth

/-!
# A promotion is a swap

The old hub and the copy lie in different branches: nothing is shallower than what it lies below,
and the copy has nothing below it. So a node that is not below the hub keeps its place, and one that
is comes along as it was with the children that move. That describes the whole tree afterwards, node
by node, and what becomes of the ids, the references and the children is read off the description.
-/

namespace StoryAtlas

namespace Hub

/-! ### Giving at one place -/

section Give

variable {number : Nat} {children : List Placed} {ref : Option Int} {node : Placed}

def give (number : Nat) (children : List Placed) (ref : Option Int) (node : Placed) : Placed :=
  (node.setChildren number children).editBeat number (withRef ref)

theorem editBeat_eq_self {edit : Beat → Beat} (h : ∀ s ∈ node.walk, Placed.place s ≠ number) :
    node.editBeat number edit = node :=
  (Rose.map_congr fun s hs => if_neg (h s hs)).trans (Rose.map_id node)

theorem give_eq_self (h : ∀ s ∈ node.walk, Placed.place s ≠ number) :
    give number children ref node = node := by
  have hset : node.setChildren number children = node :=
    Rose.editWhere_eq_self fun s hs => beq_eq_false_iff_ne.2 (h s hs)
  rw [give, hset, editBeat_eq_self h]

theorem map_give_eq_self {nodes : List Placed}
    (h : ∀ s ∈ Rose.walkForest nodes, Placed.place s ≠ number) :
    nodes.map (give number children ref) = nodes := by
  refine (List.map_congr_left fun node hnode => give_eq_self fun s hs => ?_).trans (List.map_id _)
  exact h s (Rose.mem_walkForest.2 ⟨node, hnode, hs⟩)

theorem give_of_ne (h : node.place ≠ number) : give number children ref node =
    .node node.value (node.children.map (give number children ref)) := by
  have hset : node.setChildren number children =
      .node node.value (node.children.map (Placed.setChildren number children)) :=
    Rose.editWhere_of_neg (beq_eq_false_iff_ne.2 h)
  rw [give, hset, Placed.editBeat, Rose.map_node, if_neg (show node.value.1 ≠ number from h),
    List.map_map]
  rfl

theorem give_of_eq (h : node.place = number)
    (hfree : ∀ s ∈ Rose.walkForest children, Placed.place s ≠ number) :
    give number children ref node = .node (number, withRef ref node.beat) children := by
  have hset : node.setChildren number children = .node node.value children :=
    Rose.editWhere_of_pos (beq_iff_eq.2 h)
  rw [give, hset, Placed.editBeat, Rose.map_node, if_pos (show node.value.1 = number from h)]
  congr 1
  · rw [show node.value.1 = number from h]
    rfl
  · refine (List.map_congr_left fun child hchild => ?_).trans (List.map_id _)
    exact editBeat_eq_self fun s hs => hfree s (Rose.mem_walkForest.2 ⟨child, hchild, hs⟩)

end Give

/-! ### What becomes of each node -/

section Nodes

variable {root owner copy node : Placed} (bare : Placed.Bare root)
  (distinct : (Placed.ids root).Nodup) (places : (Placed.places root).Nodup)
  (h : Promotable root owner copy)

theorem emptied_eq (owner copy root : Placed) : emptied owner copy root =
    give owner.place [] (some copy.id) (give copy.place owner.children none root) := rfl

include distinct places h in
theorem place_ne_copy_of_mem_owner (hnode : node ∈ owner.walk) : node.place ≠ copy.place := by
  intro hplace
  have hinside := Rose.mem_walk_trans hnode h.owner_mem
  have hsame := Placed.eq_of_place_eq places hinside h.copy_mem hplace
  exact copy_notMem_walk_owner distinct h (hsame ▸ hnode)

include places h in
theorem place_ne_owner_of_mem_below (hnode : node ∈ Rose.walkForest owner.children) :
    node.place ≠ owner.place := fun hplace =>
  Rose.key_notMem_below places h.owner_mem (hplace ▸ List.mem_map_of_mem hnode)

include places h in
theorem place_copy_ne_owner : copy.place ≠ owner.place := fun hplace =>
  copy_ne_owner h (Placed.eq_of_place_eq places h.copy_mem h.owner_mem hplace)

include distinct places h in
theorem emptied_copy : emptied owner copy copy =
    .node (copy.place, withRef none copy.beat) owner.children := by
  have hgiven : give copy.place owner.children none copy =
      .node (copy.place, withRef none copy.beat) owner.children :=
    give_of_eq rfl fun s hs =>
      place_ne_copy_of_mem_owner distinct places h (Rose.mem_walk.2 (.inr hs))
  have hkept : give owner.place [] (some copy.id) (.node (copy.place, withRef none copy.beat)
      owner.children) = .node (copy.place, withRef none copy.beat)
        (owner.children.map (give owner.place [] (some copy.id))) :=
    give_of_ne (show copy.place ≠ owner.place from place_copy_ne_owner places h)
  rw [emptied_eq, hgiven, hkept,
    map_give_eq_self fun s hs => place_ne_owner_of_mem_below places h hs]

include distinct places h in
theorem emptied_owner : emptied owner copy owner =
    .node (owner.place, withRef (some copy.id) owner.beat) [] := by
  rw [emptied_eq, give_eq_self fun s hs => place_ne_copy_of_mem_owner distinct places h hs]
  exact give_of_eq rfl fun s hs => nomatch hs

include distinct places h in
/-- What is below the hub comes along as it is. -/
theorem emptied_of_mem_below (hnode : node ∈ Rose.walkForest owner.children) :
    emptied owner copy node = node := by
  have hbelow : ∀ s ∈ node.walk, s ∈ Rose.walkForest owner.children := by
    obtain ⟨child, hchild, hmem⟩ := Rose.mem_walkForest.1 hnode
    exact fun s hs => Rose.mem_walkForest.2 ⟨child, hchild, Rose.mem_walk_trans hs hmem⟩
  have hcopy : ∀ s ∈ node.walk, Placed.place s ≠ copy.place := fun s hs =>
    place_ne_copy_of_mem_owner distinct places h (Rose.mem_walk.2 (.inr (hbelow s hs)))
  rw [emptied_eq, give_eq_self hcopy,
    give_eq_self fun s hs => place_ne_owner_of_mem_below places h (hbelow s hs)]

theorem emptied_of_ne (hcopy : node.place ≠ copy.place) (howner : node.place ≠ owner.place) :
    emptied owner copy node = .node node.value (node.children.map (emptied owner copy)) := by
  have hkept : give owner.place [] (some copy.id) (.node node.value
      (node.children.map (give copy.place owner.children none))) = .node node.value
        ((node.children.map (give copy.place owner.children none)).map
          (give owner.place [] (some copy.id))) :=
    give_of_ne howner
  rw [emptied_eq, give_of_ne hcopy, hkept, List.map_map]
  rfl

include bare places h in
/-- A node that is not below the hub keeps its place. -/
theorem lies_emptied {steps : Nat} (hnode : Rose.Lies root steps node)
    (hbelow : node ∉ Rose.walkForest owner.children) :
    Rose.Lies (emptied owner copy root) steps (emptied owner copy node) := by
  induction hnode with
  | top => exact .top
  | @child steps parent node hparent hchild ih =>
      have howner : Placed.place parent ≠ owner.place := by
        intro hplace
        obtain rfl := Placed.eq_of_place_eq places hparent.mem_walk h.owner_mem hplace
        exact hbelow (Rose.children_subset_walkForest _ hchild)
      have hcopy : Placed.place parent ≠ copy.place := by
        intro hplace
        obtain rfl := Placed.eq_of_place_eq places hparent.mem_walk h.copy_mem hplace
        rw [copy_children bare h] at hchild
        cases hchild
      have habove : parent ∉ Rose.walkForest owner.children := by
        intro hmem
        obtain ⟨top, htop, hwithin⟩ := Rose.mem_walkForest.1 hmem
        exact hbelow (Rose.mem_walkForest.2
          ⟨top, htop, Rose.mem_walk_trans (Rose.mem_walk_of_mem_children hchild) hwithin⟩)
      have hlies := ih habove
      rw [emptied_of_ne hcopy howner] at hlies
      exact hlies.child (List.mem_map_of_mem hchild)

include bare distinct places h in
theorem emptied_mem_walk (hnode : node ∈ root.walk) :
    emptied owner copy node ∈ (emptied owner copy root).walk := by
  by_cases hbelow : node ∈ Rose.walkForest owner.children
  · have hcopy : copy ∉ Rose.walkForest owner.children := fun hmem =>
      copy_notMem_walk_owner distinct h (Rose.mem_walk.2 (.inr hmem))
    obtain ⟨steps, hlies⟩ := Rose.exists_lies_of_mem_walk h.copy_mem
    have hhub := (lies_emptied bare places h hlies hcopy).mem_walk
    rw [emptied_copy distinct places h] at hhub
    rw [emptied_of_mem_below distinct places h hbelow]
    obtain ⟨top, htop, hwithin⟩ := Rose.mem_walkForest.1 hbelow
    exact Rose.mem_walk_trans (Rose.mem_walk_of_mem htop hwithin) hhub
  · obtain ⟨steps, hlies⟩ := Rose.exists_lies_of_mem_walk hnode
    exact (lies_emptied bare places h hlies hbelow).mem_walk

theorem id_emptied (owner copy node : Placed) : (emptied owner copy node).id = node.id := by
  have hgive : ∀ (number : Nat) (children : List Placed) (ref : Option Int) (node : Placed),
      Placed.id (give number children ref node) = node.id := by
    intro number children ref node
    by_cases hplace : node.place = number
    · have hset : node.setChildren number children = .node node.value children :=
        Rose.editWhere_of_pos (beq_iff_eq.2 hplace)
      rw [give, hset, Placed.editBeat, Rose.map_node,
        if_pos (show node.value.1 = number from hplace)]
      rfl
    · rw [give_of_ne hplace]
      rfl
  rw [emptied_eq, hgive, hgive]

end Nodes

/-! ### The swap -/

/-- What a promotion makes of a tree in which an old hub and a copy of it lie. -/
structure Swapped (promotion : Promotion) (owner copy root after : Node) : Prop where
  owner_lies : Rose.Lies root promotion.oldDepth owner
  copy_lies : Rose.Lies root promotion.newDepth copy
  owner_id : owner.id = promotion.oldId
  copy_id : copy.id = promotion.newId
  owner_ref : owner.value.ref = none
  copy_ref : copy.value.ref = some promotion.oldId
  shallower : promotion.newDepth < promotion.oldDepth
  ids : after.ids.Perm root.ids
  /-- The copy stays where it is, refers to nothing and has the trees that were below the old hub,
  in their order. -/
  hub : Rose.Lies after promotion.newDepth
    (.node (withRef none copy.value)
      (owner.children.map (Rose.map (redirect promotion.oldId promotion.newId))))
  /-- The old hub stays where it is, has no children and refers to the copy. -/
  old : Rose.Lies after promotion.oldDepth (.node (withRef (some promotion.newId) owner.value) [])
  /-- Any other node has the children it had, and what it says is the same but for a reference to
  the old hub. -/
  rest : ∀ node ∈ root.walk, node ≠ owner → node ≠ copy → ∃ now ∈ after.walk,
    Rose.value now = redirect promotion.oldId promotion.newId (Rose.value node) ∧
    (Rose.children now).map Node.id = (Rose.children node).map Node.id

section Swapped

variable {promotion : Promotion} {owner copy root after : Node}

theorem id_redirect (old new : Int) (beat : Beat) : (redirect old new beat).id = beat.id := by
  unfold redirect
  split <;> rfl

/-- Every node afterwards is the hub, the old hub or one of the rest. -/
theorem Swapped.cases (h : Swapped promotion owner copy root after) (distinct : root.ids.Nodup)
    {now : Node} (hnow : now ∈ after.walk) :
    now = .node (withRef none copy.value)
        (owner.children.map (Rose.map (redirect promotion.oldId promotion.newId))) ∨
      now = .node (withRef (some promotion.newId) owner.value) [] ∨
      ∃ node : Node, node ∈ root.walk ∧
        now.value = redirect promotion.oldId promotion.newId node.value ∧
        now.children.map Node.id = node.children.map Node.id := by
  have hunique : ∀ {other : Node}, other ∈ after.walk → now.id = other.id → now = other :=
    fun hother hid => Node.eq_of_id_eq (h.ids.nodup_iff.2 distinct) hnow hother hid
  obtain ⟨node, hnode, hid⟩ := Node.mem_ids.1 (h.ids.mem_iff.1 (Node.id_mem_ids hnow))
  by_cases hcopy : node = copy
  · rw [hcopy] at hid
    exact .inl (hunique h.hub.mem_walk hid.symm)
  by_cases howner : node = owner
  · rw [howner] at hid
    exact .inr (.inl (hunique h.old.mem_walk hid.symm))
  obtain ⟨other, hother, hvalue, hchildren⟩ := h.rest node hnode howner hcopy
  have hsame : now.id = Node.id other := by
    have hother : Node.id other = node.id := (congrArg Beat.id hvalue).trans (id_redirect _ _ _)
    rw [hother, hid]
  obtain rfl := hunique hother hsame
  exact .inr (.inr ⟨node, hnode, hvalue, hchildren⟩)

theorem Swapped.bare (h : Swapped promotion owner copy root after) (distinct : root.ids.Nodup)
    (bare : root.Bare) : after.Bare := by
  intro now hnow href
  rcases h.cases distinct hnow with rfl | rfl | ⟨node, hnode, hvalue, hchildren⟩
  · cases href
  · rfl
  · have hold : node.value.ref.isSome := by
      rw [hvalue] at href
      unfold redirect at href
      split at href
      · next hnamed => rw [hnamed]; rfl
      · exact href
    rw [bare node hnode hold, List.map_nil, List.map_eq_nil_iff] at hchildren
    exact hchildren

/-- What a node names afterwards, some node has named before, or it is the copy. -/
theorem Swapped.links (h : Swapped promotion owner copy root after) (distinct : root.ids.Nodup)
    {now : Node} (hnow : now ∈ after.walk) :
    (∀ target, now.value.ref = some target →
      target = promotion.newId ∨ ∃ node ∈ root.walk, (Rose.value node).ref = some target) ∧
    ∀ link ∈ now.value.links, link = promotion.newId ∨ link ∈ root.links := by
  have hlinks : ∀ {node : Node} {link : Int}, node ∈ root.walk → link ∈ node.value.links →
      link ∈ root.links := fun hnode hlink => Node.mem_links.2 ⟨_, hnode, hlink⟩
  rcases h.cases distinct hnow with rfl | rfl | ⟨node, hnode, hvalue, -⟩
  · refine ⟨nofun, fun link hlink => .inr (hlinks h.copy_lies.mem_walk ?_)⟩
    exact List.mem_append_right _ hlink
  · refine ⟨fun target htarget => .inl (Option.some.inj htarget).symm, fun link hlink => ?_⟩
    rcases List.mem_append.1 hlink with href | hborrowed
    · exact .inl (List.mem_singleton.1 href)
    · exact .inr (hlinks h.owner_lies.mem_walk (List.mem_append_right _ hborrowed))
  · rw [hvalue]
    unfold redirect
    split
    · refine ⟨fun target htarget => .inl (Option.some.inj htarget).symm, fun link hlink => ?_⟩
      rcases List.mem_append.1 hlink with href | hborrowed
      · exact .inl (List.mem_singleton.1 href)
      · exact .inr (hlinks hnode (List.mem_append_right _ hborrowed))
    · exact ⟨fun target htarget => .inr ⟨node, hnode, htarget⟩,
        fun link hlink => .inr (hlinks hnode hlink)⟩

theorem Swapped.newId_mem_ids (h : Swapped promotion owner copy root after) :
    promotion.newId ∈ after.ids :=
  h.ids.mem_iff.2 (h.copy_id ▸ Node.id_mem_ids h.copy_lies.mem_walk)

theorem Swapped.resolves (h : Swapped promotion owner copy root after) (distinct : root.ids.Nodup)
    (resolves : root.Resolves) : after.Resolves := by
  intro now hnow target htarget
  rcases (h.links distinct hnow).1 target htarget with rfl | ⟨node, hnode, href⟩
  · exact h.newId_mem_ids
  · exact h.ids.mem_iff.2 (resolves node hnode target href)

theorem Swapped.closed (h : Swapped promotion owner copy root after) (distinct : root.ids.Nodup)
    (closed : root.Closed) : after.Closed := by
  intro link hlink
  obtain ⟨now, hnow, hlink⟩ := Node.mem_links.1 hlink
  rcases (h.links distinct hnow).2 link hlink with rfl | hlink
  · exact h.newId_mem_ids
  · exact h.ids.mem_iff.2 (closed link hlink)

end Swapped

/-! ### The exchange is a swap -/

section Exchange

variable {root : Node} {owner copy node : Placed} {old new : Int}

/-- A placed tree without the places, in which references to the old hub name the new one. -/
def shown (old new : Int) (node : Placed) : Node := node.map (redirect old new ∘ Prod.snd)

theorem forget_exchange (owner copy root : Placed) :
    (exchange owner copy root).forget = shown owner.id copy.id (emptied owner copy root) := by
  rw [exchange_eq, Placed.forget, Rose.map_map, shown]

theorem shown_eq (old new : Int) (node : Placed) :
    shown old new node = node.forget.map (redirect old new) := by
  rw [Placed.forget, Rose.map_map, shown]

theorem id_shown (old new : Int) (node : Placed) : (shown old new node).id = node.id := by
  rw [Node.id, shown, Rose.value_map, Function.comp_apply, id_redirect]
  rfl

theorem lies_forget {steps : Nat} (h : Rose.Lies root.placed steps node) :
    Rose.Lies root steps node.forget := by
  have hmap := h.map Prod.snd
  rwa [← Placed.forget, Node.forget_placed] at hmap

variable (distinct : root.ids.Nodup) (bare : root.Bare) (h : Promotable root.placed owner copy)

include distinct bare h in
theorem lies_shown_copy {steps : Nat} (hcopy : Rose.Lies root.placed steps copy) :
    Rose.Lies (exchange owner copy root.placed).forget steps
      (.node (withRef none copy.beat)
        (owner.forget.children.map (Rose.map (redirect owner.id copy.id)))) := by
  have hids : (Placed.ids root.placed).Nodup := Placed.ids_placed root ▸ distinct
  have hbare : Placed.Bare root.placed := by rwa [← Placed.bare_forget, Node.forget_placed]
  have hplaces := Placed.nodup_places_placed root
  have hhub := lies_emptied hbare hplaces h hcopy fun hmem =>
    copy_notMem_walk_owner hids h (Rose.mem_walk.2 (.inr hmem))
  have hnone : redirect owner.id copy.id (withRef none copy.beat) = withRef none copy.beat :=
    if_neg nofun
  have hchildren : owner.forget.children.map (Rose.map (redirect owner.id copy.id)) =
      owner.children.map (shown owner.id copy.id) := by
    rw [Placed.forget, Rose.children_map, List.map_map]
    exact List.map_congr_left fun child _ => (shown_eq _ _ child).symm
  have hmap := hhub.map (redirect owner.id copy.id ∘ Prod.snd)
  rw [emptied_copy hids hplaces h, Rose.map_node, Function.comp_apply, hnone] at hmap
  rw [forget_exchange, hchildren]
  exact hmap

include distinct bare h in
theorem lies_shown_owner {steps : Nat} (howner : Rose.Lies root.placed steps owner) :
    Rose.Lies (exchange owner copy root.placed).forget steps
      (.node (withRef (some copy.id) owner.beat) []) := by
  have hids : (Placed.ids root.placed).Nodup := Placed.ids_placed root ▸ distinct
  have hbare : Placed.Bare root.placed := by rwa [← Placed.bare_forget, Node.forget_placed]
  have hplaces := Placed.nodup_places_placed root
  have hold := lies_emptied hbare hplaces h howner fun hmem =>
    absurd rfl (place_ne_owner_of_mem_below hplaces h hmem)
  have hsome : redirect owner.id copy.id (withRef (some copy.id) owner.beat) =
      withRef (some copy.id) owner.beat := by
    unfold redirect
    split <;> rfl
  have hmap := hold.map (redirect owner.id copy.id ∘ Prod.snd)
  rw [emptied_owner hids hplaces h, Rose.map_node, Function.comp_apply, hsome] at hmap
  rw [forget_exchange]
  exact hmap

include distinct bare h in
theorem exists_shown (hnode : node ∈ root.placed.walk) (howner : node ≠ owner)
    (hcopy : node ≠ copy) :
    ∃ now ∈ (exchange owner copy root.placed).forget.walk,
      Rose.value now = redirect owner.id copy.id node.beat ∧
      (Rose.children now).map Node.id = node.forget.children.map Node.id := by
  have hids : (Placed.ids root.placed).Nodup := Placed.ids_placed root ▸ distinct
  have hbare : Placed.Bare root.placed := by rwa [← Placed.bare_forget, Node.forget_placed]
  have hplaces := Placed.nodup_places_placed root
  have hplace : ∀ {other : Placed}, other ∈ root.placed.walk → node ≠ other →
      node.place ≠ other.place := fun hother hne hsame =>
    hne (Placed.eq_of_place_eq hplaces hnode hother hsame)
  have hmem := emptied_mem_walk hbare hids hplaces h hnode
  rw [emptied_of_ne (hplace h.copy_mem hcopy) (hplace h.owner_mem howner)] at hmem
  refine ⟨shown owner.id copy.id (.node node.value (node.children.map (emptied owner copy))), ?_,
    Rose.value_map _ _, ?_⟩
  · rw [forget_exchange, shown, Rose.walk_map]
    exact List.mem_map_of_mem hmem
  · rw [shown, Rose.children_map, Rose.children_node, Placed.forget, Rose.children_map,
      List.map_map, List.map_map, List.map_map]
    refine List.map_congr_left fun child _ => ?_
    rw [Function.comp_apply, Function.comp_apply, Function.comp_apply, ← Placed.forget,
      Placed.id_forget, ← id_emptied owner copy child]
    exact id_shown _ _ _

include distinct bare h in
theorem swapped_exchange :
    Swapped
      { oldId := owner.id
        newId := copy.id
        oldDepth := (Index.ofPlaced root.placed).depth owner
        newDepth := (Index.ofPlaced root.placed).depth copy }
      owner.forget copy.forget root (exchange owner copy root.placed).forget := by
  have hids : (Placed.ids root.placed).Nodup := Placed.ids_placed root ▸ distinct
  have hbare : Placed.Bare root.placed := by rwa [← Placed.bare_forget, Node.forget_placed]
  have hplaces := Placed.nodup_places_placed root
  have hlies : ∀ {node : Placed}, node ∈ root.placed.walk →
      Rose.Lies root.placed ((Index.ofPlaced root.placed).depth node) node := by
    intro node hnode
    obtain ⟨steps, hsteps⟩ := Rose.exists_lies_of_mem_walk hnode
    rwa [Index.depth_of_lies hids hsteps]
  refine
    { owner_lies := lies_forget (hlies h.owner_mem)
      copy_lies := lies_forget (hlies h.copy_mem)
      owner_id := Placed.id_forget owner
      copy_id := Placed.id_forget copy
      owner_ref := (congrArg Beat.ref (Placed.value_forget owner)).trans h.owner_ref
      copy_ref := (congrArg Beat.ref (Placed.value_forget copy)).trans h.copy_ref
      shallower := h.shallower
      ids := ?_
      hub := ?_
      old := ?_
      rest := ?_ }
  · have hperm := ids_emptied_perm hbare hids hplaces h
    rw [Placed.ids_placed, ← Placed.ids_forget] at hperm
    rw [exchange_eq]
    exact (retold_redirect owner.id copy.id _).ids_perm.trans hperm
  · rw [Placed.value_forget]
    exact lies_shown_copy distinct bare h (hlies h.copy_mem)
  · rw [Placed.value_forget]
    exact lies_shown_owner distinct bare h (hlies h.owner_mem)
  · intro node hnode howner hcopy
    rw [← Node.forget_placed root] at hnode
    obtain ⟨origin, horigin, rfl⟩ := Placed.exists_of_mem_walk_forget hnode
    rw [Placed.value_forget]
    exact exists_shown distinct bare h horigin (fun hsame => howner (congrArg Placed.forget hsame))
      fun hsame => hcopy (congrArg Placed.forget hsame)

end Exchange

/-! ### The pass -/

/-- A promotion is the exchange of an old hub and a copy of it. -/
theorem exists_of_promote {menu : Option Menu} {unit : String} {root : Node} {promotion : Promotion}
    (h : (promote menu unit root).2.1 = some promotion) :
    ∃ owner copy : Placed, Promotable root.placed owner copy ∧
      promotion =
        { oldId := owner.id
          newId := copy.id
          oldDepth := (Index.ofPlaced root.placed).depth owner
          newDepth := (Index.ofPlaced root.placed).depth copy } ∧
      (promote menu unit root).1 = (exchange owner copy root.placed).forget := by
  unfold promote at h ⊢
  split at h
  · cases h
  · next menu =>
    dsimp only at h ⊢
    split at h
    · next hthreshold =>
      rw [if_pos hthreshold]
      split at h
      · next owner copy hpair =>
        exact ⟨owner, copy, promotable_of_eq_some hpair, (Option.some.inj h).symm, rfl⟩
      · cases h
    · cases h

/-- A promotion is a pure swap: it moves the children of the old hub to the copy and renames what
referred to the old hub, and nothing else. So no node has both a reference and children afterwards,
and what resolved still does. -/
theorem swapped_promote {menu : Option Menu} {unit : String} {root : Node} {promotion : Promotion}
    (distinct : root.ids.Nodup) (bare : root.Bare) (resolves : root.Resolves)
    (h : (promote menu unit root).2.1 = some promotion) :
    (∃ owner copy, Swapped promotion owner copy root (promote menu unit root).1) ∧
    (promote menu unit root).1.Bare ∧
    (promote menu unit root).1.Resolves ∧
    (root.Closed → (promote menu unit root).1.Closed) := by
  obtain ⟨owner, copy, hpair, rfl, hafter⟩ := exists_of_promote h
  rw [hafter]
  have hswapped := swapped_exchange distinct bare hpair
  exact ⟨⟨_, _, hswapped⟩, hswapped.bare distinct bare, hswapped.resolves distinct resolves,
    hswapped.closed distinct⟩

def inn : Node :=
  .node { id := 0, kind := .dialogue, text := some "A road." }
    [.node { id := 1, kind := .dialogue, text := some "An inn.", label := some "In" }
      [.node { id := 2, kind := .dialogue, text := some "The hall.", label := some "On" }
        [.node { id := 3, kind := .dialogue, text := some "Told.", label := some "Ask",
                 ref := some 2 } [],
          .node { id := 4, kind := .ending, text := some "Bye.", label := some "Leave" } []]],
      .node { id := 5, kind := .dialogue, text := some "The hall.", label := some "Up",
              ref := some 2 } []]

def hallMenu : Menu := { hubPattern := "hall", exitPatterns := ["Leave"], threshold := some 60 }

theorem swapped_promote_inn :
    (inn.ids.Nodup ∧ inn.Bare ∧ inn.Resolves ∧
      (promote (some hallMenu) "Inn" inn).2.1 = some ⟨2, 5, 2, 1⟩) ∧
    (∃ owner copy, Swapped ⟨2, 5, 2, 1⟩ owner copy inn (promote (some hallMenu) "Inn" inn).1) ∧
    (promote (some hallMenu) "Inn" inn).1.Bare ∧ (promote (some hallMenu) "Inn" inn).1.Resolves :=
  have distinct : inn.ids.Nodup := by decide
  have bare : inn.Bare := by
    unfold Node.Bare Rose.Everywhere
    decide
  have resolves : inn.Resolves := by
    rw [Node.resolves_iff]
    decide
  have promoted : (promote (some hallMenu) "Inn" inn).2.1 = some ⟨2, 5, 2, 1⟩ := by decide +kernel
  have swapped := swapped_promote distinct bare resolves promoted
  ⟨⟨distinct, bare, resolves, promoted⟩, swapped.1, swapped.2.1, swapped.2.2.1⟩

end Hub

end StoryAtlas
