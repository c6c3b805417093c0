import StoryAtlas.Hub.Promote
import StoryAtlas.Proofs.Event.Index

/-!
# Promoting a hub keeps the shape

The copy has a reference, so it has no children, and it is not below the hub, since nothing is
shallower than what it lies below. So giving the hub's children to the copy and then taking them from
the hub moves them, and loses and repeats nothing.
-/

namespace StoryAtlas.Hub

variable {root owner copy : Placed} {menu : Menu}

/-- What is known of a hub and the copy it changes roles with. -/
structure Promotable (root owner copy : Placed) : Prop where
  owner_mem : owner ∈ root.walk
  copy_mem : copy ∈ root.walk
  owner_ref : owner.beat.ref = none
  copy_ref : copy.beat.ref = some owner.id
  shallower : (Index.ofPlaced root).depth copy < (Index.ofPlaced root).depth owner

theorem shallowest_mem {index : Index} {nodes : List Placed} {node : Placed}
    (h : shallowest index nodes = some node) : node ∈ nodes :=
  (List.mergeSort_perm _ _).mem_iff.1 (List.mem_of_head? h)

theorem mem_walk_of_mem_hubNodes {node : Placed} (h : node ∈ hubNodes menu (Index.ofPlaced root)) :
    node ∈ root.walk := by
  obtain ⟨entry, hentry, rfl⟩ := List.mem_map.1 (List.mem_filter.1 h).1
  exact (Index.mem_walk_of_mem_nodes hentry).1

theorem promotable_of_eq_some (h : promotable menu (Index.ofPlaced root) = some (owner, copy)) :
    Promotable root owner copy := by
  unfold promotable at h
  obtain ⟨found, hfound, h⟩ := Option.bind_eq_some_iff.1 h
  obtain ⟨other, hother, h⟩ := Option.bind_eq_some_iff.1 h
  split at h
  · next hdepth =>
    cases h
    obtain ⟨howner, hnone⟩ := List.mem_filter.1 (shallowest_mem hfound)
    obtain ⟨hcopy, hsome⟩ := List.mem_filter.1 (shallowest_mem hother)
    exact ⟨mem_walk_of_mem_hubNodes howner, mem_walk_of_mem_hubNodes hcopy,
      by simpa using (Bool.and_eq_true_iff.1 hnone).1, eq_of_beq hsome, hdepth⟩
  · cases h

/-! ### Giving children to a node -/

section Give

variable {number : Nat} {children : List Placed} {edit : Beat → Beat} {node : Placed}

theorem places_editBeat (number : Nat) (edit : Beat → Beat) (root : Placed) :
    Placed.places (root.editBeat number edit) = Placed.places root := by
  rw [Placed.places, Placed.editBeat, Rose.walk_map, List.map_map]
  apply List.map_congr_left
  intro node _
  rw [Function.comp_apply, Placed.place, Rose.value_map]
  split <;> rfl

/-- What the values of a node and its children are exchanged for. -/
theorem values_setChildren_perm (children : List Placed)
    (hcount : (Placed.places root).count number = 1) (hnode : node ∈ root.walk)
    (hplace : node.place = number) :
    ((root.setChildren number children).values ++ node.values).Perm
      (root.values ++ (node.value :: children.flatMap Rose.values)) := by
  rw [← Rose.values_node]
  exact @Rose.values_editWhere_perm _ (fun entry : Nat × Beat => entry.1 == number) _ _ _
    (Placed.filter_place_eq_singleton hcount hnode hplace)

/-- Given children, a node may not keep a reference. -/
theorem bare_give (hroot : Placed.Bare root) (hchildren : ∀ child ∈ children, Placed.Bare child)
    (hkeep : ∀ beat, (edit beat).ref.isSome → children = []) :
    Placed.Bare ((root.setChildren number children).editBeat number edit) := by
  intro after hafter href
  rw [Placed.editBeat, Rose.walk_map] at hafter
  obtain ⟨node, hnode, rfl⟩ := List.mem_map.1 hafter
  rw [Rose.value_map] at href
  rw [Rose.children_map, List.map_eq_nil_iff]
  rcases Rose.mem_walk_editWhere hnode with ⟨origin, horigin, htest, rfl⟩ | ⟨origin, -, htest, hmem⟩
  · -- a node beside or above keeps its reference and the number of its children
    rw [Rose.editWhere_of_neg htest] at href ⊢
    rw [Rose.value_node, if_neg (by simpa using htest)] at href
    rw [Rose.children_node, hroot origin horigin href]
    rfl
  · rcases Rose.mem_walk.1 hmem with rfl | hbelow
    · rw [Rose.withChildren, Rose.value_node, if_pos (by simpa using htest)] at href
      exact hkeep _ href
    · obtain ⟨child, hchild, hmem⟩ := Rose.mem_walkForest.1 hbelow
      split at href
      · rw [hkeep _ href] at hchild
        cases hchild
      · exact hchildren child hchild node hmem href

end Give

/-! ### The exchange -/

def withRef (ref : Option Int) (beat : Beat) : Beat := { beat with ref := ref }

theorem ids_editBeat_withRef (number : Nat) (ref : Option Int) (root : Placed) :
    Placed.ids (root.editBeat number (withRef ref)) = Placed.ids root := by
  rw [Placed.ids, Placed.editBeat, Rose.walk_map, List.map_map]
  apply List.map_congr_left
  intro node _
  rw [Function.comp_apply, Placed.id, Placed.beat, Rose.value_map]
  split <;> rfl

/-- The tree when the copy has the children and the hub still has them. -/
def moved (owner copy root : Placed) : Placed :=
  (root.setChildren copy.place owner.children).editBeat copy.place (withRef none)

/-- The tree when the hub has given them up. -/
def emptied (owner copy root : Placed) : Placed :=
  ((moved owner copy root).setChildren owner.place []).editBeat owner.place
    (withRef (some copy.id))

def redirect (old new : Int) (beat : Beat) : Beat :=
  if beat.ref = some old then withRef (some new) beat else beat

theorem exchange_eq (owner copy root : Placed) :
    (exchange owner copy root).forget =
      (emptied owner copy root).forget.map (redirect owner.id copy.id) := by
  rw [exchange, Placed.forget, Placed.forget, Rose.map_map, Rose.map_map]
  apply Rose.map_congr
  intro node _
  obtain ⟨⟨place, beat⟩, children⟩ := node
  dsimp only [Function.comp_apply, redirect, Rose.value_node]
  split <;> rfl

theorem retold_redirect (old new : Int) (root : Node) :
    root.Retold (root.map (redirect old new)) := by
  apply Rose.shuffled_map
  intro node _
  unfold redirect
  split
  · next href => exact ⟨rfl, rfl, fun _ => by rw [href]; rfl⟩
  · exact .refl _

theorem copy_children (bare : Placed.Bare root) (h : Promotable root owner copy) :
    copy.children = [] :=
  bare copy h.copy_mem (by rw [← Placed.beat, h.copy_ref]; rfl)

theorem copy_ne_owner (h : Promotable root owner copy) : copy ≠ owner := by
  intro hsame
  have := h.shallower
  rw [hsame] at this
  omega

/-- Nothing is shallower than what it lies below. -/
theorem copy_notMem_walk_owner (distinct : (Placed.ids root).Nodup)
    (h : Promotable root owner copy) : copy ∉ owner.walk := by
  intro hmem
  rcases Rose.mem_walk.1 hmem with hsame | hbelow
  · exact copy_ne_owner h hsame
  · have := Index.depth_lt_of_mem_below distinct h.owner_mem hbelow
    have := h.shallower
    omega

section Exchange

variable (bare : Placed.Bare root) (distinct : (Placed.ids root).Nodup)
  (places : (Placed.places root).Nodup) (h : Promotable root owner copy)

include bare places h in
theorem values_setChildren_copy_perm :
    (root.setChildren copy.place owner.children).values.Perm
      (root.values ++ owner.children.flatMap Rose.values) := by
  have hcount := List.count_eq_one_of_mem places (Placed.mem_places.2 ⟨copy, h.copy_mem, rfl⟩)
  have hperm := values_setChildren_perm owner.children hcount h.copy_mem rfl
  have hcopy : Rose.values copy = [copy.value] := by
    rw [← Rose.node_value_children copy, copy_children bare h, Rose.values_node]
    rfl
  rw [hcopy] at hperm
  have hmoved : (root.values ++ copy.value :: owner.children.flatMap Rose.values).Perm
      (root.values ++ owner.children.flatMap Rose.values ++ [copy.value]) := by
    rw [List.append_assoc]
    exact (List.perm_append_singleton _ _).symm.append_left _
  exact (List.perm_append_right_iff _).1 (hperm.trans hmoved)

include bare places h in
theorem count_owner_setChildren_copy :
    (Placed.places (root.setChildren copy.place owner.children)).count owner.place = 1 := by
  have hone := List.count_eq_one_of_mem places (Placed.mem_places.2 ⟨owner, h.owner_mem, rfl⟩)
  rw [Placed.places_eq_map_values] at hone
  rw [Placed.places_eq_map_values,
    ((values_setChildren_copy_perm bare places h).map _).count_eq, List.map_append,
    List.count_append, hone, Nat.add_eq_left, List.count_eq_zero, Rose.flatMap_values, List.map_map]
  exact Rose.key_notMem_below places h.owner_mem

include distinct bare h in
theorem owner_mem_setChildren_copy (places : (Placed.places root).Nodup) :
    owner ∈ (root.setChildren copy.place owner.children).walk := by
  have hcopy : ∀ node ∈ root.walk, Placed.place node = copy.place → node = copy :=
    fun node hnode hplace => Placed.eq_of_place_eq places hnode h.copy_mem hplace
  have howner : owner.setChildren copy.place owner.children = owner := by
    apply Rose.editWhere_eq_self
    intro node hnode
    rw [← Bool.not_eq_true, beq_iff_eq]
    intro hplace
    have hsame := hcopy node (Rose.mem_walk_trans hnode h.owner_mem) hplace
    exact copy_notMem_walk_owner distinct h (hsame ▸ hnode)
  suffices hmem : owner.setChildren copy.place owner.children ∈
      (root.setChildren copy.place owner.children).walk by rwa [howner] at hmem
  apply Rose.editWhere_mem_walk h.owner_mem
  intro node hnode htest hmem
  -- the copy has nothing below it
  rw [hcopy node hnode (eq_of_beq htest), copy_children bare h] at hmem
  cases hmem

include distinct bare places h in
theorem ids_emptied_perm : (Placed.ids (emptied owner copy root)).Perm (Placed.ids root) := by
  -- the version of the hub that gives its children up
  obtain ⟨hub, hhub, hplace, hids⟩ : ∃ hub ∈ (moved owner copy root).walk,
      Placed.place hub = owner.place ∧ Placed.ids hub = Placed.ids owner := by
    refine ⟨owner.editBeat copy.place (withRef none), ?_, ?_, ?_⟩
    · rw [moved, Placed.editBeat, Rose.walk_map]
      exact List.mem_map_of_mem (owner_mem_setChildren_copy bare distinct h places)
    · rw [Placed.place, Placed.editBeat, Rose.value_map]
      split <;> rfl
    · exact ids_editBeat_withRef _ _ _
  have hcount : (Placed.places (moved owner copy root)).count owner.place = 1 := by
    rw [moved, places_editBeat]
    exact count_owner_setChildren_copy bare places h
  have hmoved : (Placed.ids (moved owner copy root)).Perm
      (Placed.ids root ++ (Rose.walkForest owner.children).map Placed.id) := by
    rw [moved, ids_editBeat_withRef, Placed.ids_eq_map_values, Placed.ids_eq_map_values]
    have hperm := (values_setChildren_copy_perm bare places h).map fun entry => entry.2.id
    rw [List.map_append, Rose.flatMap_values, List.map_map] at hperm
    exact hperm
  have hsplit : ∀ node : Placed, Placed.ids node =
      node.id :: (Rose.walkForest node.children).map Placed.id := by
    intro node
    cases node
    rfl
  have hid : Placed.id hub = owner.id := by
    rw [hsplit hub, hsplit owner] at hids
    exact (List.cons.inj hids).1
  have hgiven := (values_setChildren_perm [] hcount hhub hplace).map
    fun entry => entry.2.id
  rw [List.map_append, List.map_append, ← Placed.ids_eq_map_values, ← Placed.ids_eq_map_values,
    ← Placed.ids_eq_map_values, hids] at hgiven
  rw [emptied, ids_editBeat_withRef]
  refine (List.perm_append_right_iff (Placed.ids owner)).1 (hgiven.trans ?_)
  -- what was given twice is what the hub loses
  apply (hmoved.append_right _).trans
  rw [hsplit owner, List.append_assoc, ← hid]
  exact (List.perm_append_singleton _ _).append_left _

include bare in
theorem bare_emptied (owner_mem : owner ∈ root.walk) : Placed.Bare (emptied owner copy root) := by
  refine bare_give (bare_give bare (fun child hchild => ?_) fun _ href => nomatch href) nofun
    fun _ _ => rfl
  exact bare.of_mem_walk (Rose.mem_walk_trans (Rose.mem_walk_of_mem_children hchild) owner_mem)

end Exchange

/-! ### The pass -/

theorem sound_exchange {root : Node} {bound : Int} (sound : root.Sound bound)
    (h : Promotable root.placed owner copy) : (exchange owner copy root.placed).forget.Sound bound := by
  have hbare : Placed.Bare root.placed := by
    rw [← Placed.bare_forget, Node.forget_placed]
    exact sound.bare
  have hids := ids_emptied_perm hbare (Placed.ids_placed root ▸ sound.distinct)
    (Placed.nodup_places_placed root) h
  rw [← Placed.ids_forget, Placed.ids_placed] at hids
  have hemptied : (emptied owner copy root.placed).forget.Sound bound :=
    ⟨hids.nodup_iff.2 sound.distinct, fun id hid => sound.below id (hids.mem_iff.1 hid),
      Placed.bare_forget.2 (bare_emptied hbare h.owner_mem)⟩
  rw [exchange_eq]
  exact hemptied.of_retold (retold_redirect _ _ _)

theorem sound_promote {menu : Option Menu} {unit : String} {root : Node} {bound : Int}
    (sound : root.Sound bound) : (promote menu unit root).1.Sound bound := by
  unfold promote
  split
  · exact sound
  · dsimp only
    split
    · split
      · next hpromotable => exact sound_exchange sound (promotable_of_eq_some hpromotable)
      · exact sound
    · exact sound

theorem promote_of_not_usesThreshold {menu : Option Menu} (unit : String) (root : Node)
    (h : ∀ found, menu = some found → found.usesThreshold = false) :
    (promote menu unit root).1 = root := by
  unfold promote
  split
  · rfl
  · next found =>
    dsimp only
    rw [h found rfl]
    rfl

end StoryAtlas.Hub
