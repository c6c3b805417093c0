import Mathlib.Data.List.Nodup
import StoryAtlas.Event.Beat
import StoryAtlas.Proofs.Rose.Shuffle

/-!
# The shape of an event tree

What every pass relies on: ids are distinct and below the next free one, and a node that refers to
another has no children of its own. After choices have been separated, a node of type choice wraps
exactly one outcome, and as long as no pass drops what is referred to, every link names a node of
the tree. A pass that only changes values is a shuffle, and keeps each of these if its relation of
values does.
-/

namespace StoryAtlas

namespace Beat

def links (beat : Beat) : List Int := beat.ref.toList ++ beat.refChildren.getD []

/-- The id and the type stay, and a reference does not come from nowhere. -/
structure Retold (old new : Beat) : Prop where
  id : new.id = old.id
  kind : new.kind = old.kind
  ref : new.ref.isSome → old.ref.isSome

/-- The beat is retold, and what it names anew is one of the ids. -/
structure Relinked (ids : List Int) (old new : Beat) : Prop extends Retold old new where
  links : ∀ link ∈ new.links, link ∈ old.links ∨ link ∈ ids

theorem Retold.refl (beat : Beat) : Retold beat beat := ⟨rfl, rfl, fun h => h⟩

variable {ids : List Int}

theorem Relinked.refl (beat : Beat) : Relinked ids beat beat :=
  ⟨.refl beat, fun _ h => .inl h⟩

/-- A beat whose id, type and links stay is relinked to nothing new. -/
theorem Relinked.of_eq {old new : Beat} (id : new.id = old.id) (kind : new.kind = old.kind)
    (ref : new.ref = old.ref) (refChildren : new.refChildren = old.refChildren) :
    Relinked ids old new := by
  refine ⟨⟨id, kind, fun h => ?_⟩, fun link h => .inl ?_⟩
  · rw [← ref]
    exact h
  · rw [Beat.links, ← ref, ← refChildren]
    exact h

/-- A beat without what it tells: its id, its type and its links. -/
def skeleton (beat : Beat) : Beat :=
  { id := beat.id, kind := beat.kind, ref := beat.ref, refChildren := beat.refChildren }

theorem relinked_of_skeleton {old new : Beat} (h : new.skeleton = old.skeleton) :
    Relinked ids old new := by
  obtain ⟨hid, hkind, -, -, -, -, -, href, hborrowed⟩ := Beat.mk.injEq .. ▸ h
  exact .of_eq hid hkind href hborrowed

end Beat

namespace Node

/-- A node that refers to another has no children. -/
def Bare (root : Node) : Prop :=
  root.Everywhere fun beat children => beat.ref.isSome → children = []

/-- A node of type choice has exactly one child. -/
def WrapsOne (root : Node) : Prop :=
  root.Everywhere fun beat children => beat.kind = .choice → children.length = 1

def links (root : Node) : List Int := root.walk.flatMap fun node => node.value.links

/-- Every link names a node of the tree. -/
def Closed (root : Node) : Prop := ∀ link ∈ root.links, link ∈ root.ids

/-- Every reference names a node of the tree. -/
def Resolves (root : Node) : Prop :=
  ∀ node ∈ root.walk, ∀ target, (Rose.value node).ref = some target → target ∈ root.ids

def Unborrowed (root : Node) : Prop := root.Everywhere fun beat _ => beat.refChildren = none

/-- The ids are distinct and below a bound, and no node has both a reference and children. -/
structure Sound (bound : Int) (root : Node) : Prop where
  distinct : root.ids.Nodup
  below : ∀ id ∈ root.ids, id < bound
  bare : root.Bare

/-! ### Ids -/

theorem ids_node (beat : Beat) (children : List Node) :
    ids (.node beat children) = beat.id :: children.flatMap ids := by
  rw [ids, Rose.walk_node, List.map_cons, Rose.walkForest_eq_flatMap, List.map_flatMap]
  rfl

theorem mem_ids {id : Int} {root : Node} :
    id ∈ root.ids ↔ ∃ node : Node, node ∈ root.walk ∧ node.id = id :=
  List.mem_map

theorem id_mem_ids {node root : Node} (h : node ∈ root.walk) : node.id ∈ root.ids :=
  mem_ids.2 ⟨node, h, rfl⟩

theorem length_ids (root : Node) : root.ids.length = root.size := by
  rw [ids, List.length_map, Rose.length_walk]

theorem ids_map {f : Beat → Beat} (h : ∀ beat, (f beat).id = beat.id) (root : Node) :
    ids (root.map f) = root.ids := by
  rw [ids, ids, Rose.walk_map, List.map_map]
  refine List.map_congr_left fun node _ => ?_
  rw [Function.comp_apply, id, Rose.value_map, h, id]

theorem eq_of_id_eq {node other root : Node} (distinct : root.ids.Nodup) (hn : node ∈ root.walk)
    (ho : other ∈ root.walk) (h : node.id = other.id) : node = other :=
  List.inj_on_of_nodup_map distinct hn ho h

theorem ids_subset_of_mem_walk {node root : Node} (h : node ∈ root.walk) : node.ids ⊆ root.ids := by
  intro id hid
  obtain ⟨inner, hinner, rfl⟩ := mem_ids.1 hid
  exact id_mem_ids (Rose.mem_walk_trans hinner h)

/-! ### Links -/

theorem links_node (beat : Beat) (children : List Node) :
    links (.node beat children) = beat.links ++ children.flatMap links := by
  rw [links, Rose.walk_node, List.flatMap_cons, Rose.walkForest_eq_flatMap, List.flatMap_assoc]
  rfl

theorem mem_links {link : Int} {root : Node} :
    link ∈ root.links ↔ ∃ node : Node, node ∈ root.walk ∧ link ∈ node.value.links :=
  List.mem_flatMap

theorem resolves_iff {root : Node} : root.Resolves ↔
    ∀ target ∈ root.walk.filterMap (fun node => node.value.ref), target ∈ root.ids := by
  constructor
  · intro h target htarget
    obtain ⟨node, hnode, href⟩ := List.mem_filterMap.1 htarget
    exact h node hnode target href
  · intro h node hnode target href
    exact h target (List.mem_filterMap.2 ⟨node, hnode, href⟩)

theorem Closed.resolves {root : Node} (closed : root.Closed) : root.Resolves := by
  intro node hnode target href
  refine closed target (mem_links.2 ⟨node, hnode, List.mem_append_left _ ?_⟩)
  rw [href]
  exact List.mem_singleton_self target

/-- Before children are borrowed, references are all the links there are. -/
theorem Resolves.closed {root : Node} (resolves : root.Resolves) (unborrowed : root.Unborrowed) :
    root.Closed := by
  intro link hlink
  obtain ⟨node, hnode, hlink⟩ := mem_links.1 hlink
  rw [Beat.links, unborrowed node hnode, Option.getD_none, List.append_nil,
    Option.mem_toList] at hlink
  exact resolves node hnode link hlink

theorem Closed.of_subset {root after : Node} (closed : root.Closed)
    (hlinks : ∀ link ∈ after.links, link ∈ root.links ∨ link ∈ root.ids)
    (hids : ∀ id ∈ root.ids, id ∈ after.ids) : after.Closed :=
  fun link hlink => hids link ((hlinks link hlink).elim (closed link) fun h => h)

/-! ### Passes that keep the shape -/

section Shuffled

variable {R : Beat → Beat → Prop} {root after : Node}

theorem ids_perm_of_shuffled (hR : ∀ a b, R a b → a.id = b.id) (h : Rose.Shuffled R root after) :
    after.ids.Perm root.ids :=
  h.map_walk_perm hR

theorem Bare.of_shuffled (bare : root.Bare) (hR : ∀ a b, R a b → b.ref.isSome → a.ref.isSome)
    (h : Rose.Shuffled R root after) : after.Bare := by
  intro node hnode href
  obtain ⟨origin, horigin, hrel⟩ := h.exists_of_mem_walk hnode
  exact hrel.children_eq_nil.2 (bare origin horigin (hR _ _ hrel.value href))

theorem WrapsOne.of_shuffled (wraps : root.WrapsOne)
    (hR : ∀ a b, R a b → b.kind = .choice → a.kind = .choice) (h : Rose.Shuffled R root after) :
    after.WrapsOne := by
  intro node hnode hkind
  obtain ⟨origin, horigin, hrel⟩ := h.exists_of_mem_walk hnode
  rw [hrel.length_children]
  exact wraps origin horigin (hR _ _ hrel.value hkind)

theorem Unborrowed.of_shuffled (unborrowed : root.Unborrowed)
    (hR : ∀ a b, R a b → a.refChildren = none → b.refChildren = none)
    (h : Rose.Shuffled R root after) : after.Unborrowed := by
  intro node hnode
  obtain ⟨origin, horigin, hrel⟩ := h.exists_of_mem_walk hnode
  exact hR _ _ hrel.value (unborrowed origin horigin)

theorem Closed.of_shuffled (closed : root.Closed) (hid : ∀ a b, R a b → a.id = b.id)
    (hR : ∀ a b, R a b → ∀ link ∈ b.links, link ∈ a.links ∨ link ∈ root.ids)
    (h : Rose.Shuffled R root after) : after.Closed := by
  refine closed.of_subset (fun link hlink => ?_) fun id hid' =>
    (ids_perm_of_shuffled hid h).mem_iff.2 hid'
  obtain ⟨node, hnode, hlink⟩ := mem_links.1 hlink
  obtain ⟨origin, horigin, hrel⟩ := h.exists_of_mem_walk hnode
  exact (hR _ _ hrel.value link hlink).imp (fun h => mem_links.2 ⟨origin, horigin, h⟩) fun h => h

theorem Sound.of_shuffled {bound : Int} (sound : root.Sound bound)
    (hid : ∀ a b, R a b → a.id = b.id) (href : ∀ a b, R a b → b.ref.isSome → a.ref.isSome)
    (h : Rose.Shuffled R root after) : after.Sound bound where
  distinct := (ids_perm_of_shuffled hid h).nodup_iff.2 sound.distinct
  below := fun id hmem => sound.below id ((ids_perm_of_shuffled hid h).mem_iff.1 hmem)
  bare := sound.bare.of_shuffled href h

end Shuffled

/-- Nodes may change places among their siblings, and every beat is retold. -/
abbrev Retold (root after : Node) : Prop := Rose.Shuffled Beat.Retold root after

/-- The tree is retold, and what it names anew are nodes of it. -/
abbrev Relinked (root after : Node) : Prop := Rose.Shuffled (Beat.Relinked root.ids) root after

section Retold

variable {root after : Node}

theorem Retold.ids_perm (h : Retold root after) : after.ids.Perm root.ids :=
  ids_perm_of_shuffled (fun _ _ hbeat => hbeat.id.symm) h

theorem Sound.of_retold {bound : Int} (sound : root.Sound bound) (h : Retold root after) :
    after.Sound bound :=
  sound.of_shuffled (fun _ _ hbeat => hbeat.id.symm) (fun _ _ hbeat => hbeat.ref) h

theorem WrapsOne.of_retold (wraps : root.WrapsOne) (h : Retold root after) : after.WrapsOne :=
  wraps.of_shuffled (fun _ _ (hbeat : Beat.Retold _ _) hkind => hbeat.kind ▸ hkind) h

theorem Relinked.retold (h : Relinked root after) : Retold root after :=
  h.imp fun _ _ hbeat => hbeat.toRetold

theorem relinked_of_skeleton (h : Rose.map Beat.skeleton after = Rose.map Beat.skeleton root) :
    Relinked root after :=
  (Rose.shuffled_of_map_eq h.symm).imp fun _ _ hbeat => Beat.relinked_of_skeleton hbeat.symm

theorem Closed.of_relinked (closed : root.Closed) (h : Relinked root after) : after.Closed :=
  closed.of_shuffled (fun _ _ hbeat => hbeat.id.symm) (fun _ _ hbeat => hbeat.links) h

end Retold

end Node

end StoryAtlas
