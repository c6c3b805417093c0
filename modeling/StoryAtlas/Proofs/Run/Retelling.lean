import StoryAtlas.Chance.Reveal
import StoryAtlas.Names.Replace
import StoryAtlas.Proofs.Attempt
import StoryAtlas.Proofs.Event.Index
import StoryAtlas.Reference.Outcome

/-!
# Passes that move no node

Masking what was rolled, naming cards and straightening references change beats and leave the nodes
where they are. The first two keep the links as they are. A straightened reference names a node that
the pass has met on its way, so it is one of the ids of the tree.
-/

namespace StoryAtlas

variable {numbers : List Int} {beat : Beat} {root after : Node}

/-! ### Rolled amounts -/

namespace Roll

theorem skeleton_revealBeat {revealed : Revealed} (h : revealBeat beat = .ok revealed) :
    revealed.beat.skeleton = beat.skeleton := by
  unfold revealBeat at h
  split at h
  · split at h
    · cases h
      rfl
    · obtain ⟨masked, -, h⟩ := bind_eq_ok.1 h
      dsimp only at h
      split at h <;> cases h <;> rfl
  · cases h
    rfl

theorem skeleton_handOver {parent handed : Revealed} {child received : Beat}
    (h : handOver parent child = .ok (handed, received)) :
    handed.beat.skeleton = parent.beat.skeleton ∧ received.skeleton = child.skeleton := by
  unfold handOver at h
  split at h
  · split at h
    · cases h
      exact ⟨rfl, rfl⟩
    · obtain ⟨shown, -, h⟩ := bind_eq_ok.1 h
      dsimp only at h
      split at h <;> cases h <;> exact ⟨rfl, rfl⟩
  · cases h
    exact ⟨rfl, rfl⟩

theorem skeletons_revealForest {nodes shown : List Node} {count : Nat}
    (ih : ∀ node ∈ nodes, ∀ {after count}, revealNode node.value node = .ok (after, count) →
      after.map Beat.skeleton = node.map Beat.skeleton)
    (h : revealForest nodes = .ok (shown, count)) :
    shown.map (Rose.map Beat.skeleton) = nodes.map (Rose.map Beat.skeleton) := by
  induction nodes generalizing shown count with
  | nil =>
      cases h
      rfl
  | cons node nodes ihs =>
      obtain ⟨first, hfirst, h⟩ := bind_eq_ok.1 h
      obtain ⟨rest, hrest, h⟩ := bind_eq_ok.1 h
      cases h
      rw [List.map_cons, List.map_cons, ih node (by simp) hfirst,
        ihs (fun other hother => ih other (by simp [hother])) hrest]

theorem skeleton_revealNode (node : Node) {count : Nat}
    (h : revealNode beat node = .ok (after, count)) :
    after.map Beat.skeleton = (node.withValue beat).map Beat.skeleton := by
  induction node using Rose.induction_on generalizing beat after count with
  | node old children ih =>
      rw [revealNode] at h
      obtain ⟨own, hown, h⟩ := bind_eq_ok.1 h
      have hbeat : own.beat.skeleton = beat.skeleton := skeleton_revealBeat hown
      split at h
      · next only _ =>
        obtain ⟨⟨parent, received⟩, hhand, h⟩ := bind_eq_ok.1 h
        obtain ⟨⟨child, changes⟩, hchild, h⟩ := bind_eq_ok.1 h
        cases h
        obtain ⟨hparent, hreceived⟩ := skeleton_handOver hhand
        -- the child first receives what is handed over and is then revealed
        have hbelow : child.map Beat.skeleton = only.map Beat.skeleton := by
          rw [ih only (by simp) hchild]
          obtain ⟨value, grandchildren⟩ := only
          rw [Rose.withValue, Rose.map_node, Rose.map_node, hreceived, Rose.value_node,
            Rose.children_node]
        simp only [Rose.withValue, Rose.children_node, Rose.map_node, List.map_cons, List.map_nil,
          hparent.trans hbeat, hbelow]
      · obtain ⟨⟨nodes, changes⟩, hnodes, h⟩ := bind_eq_ok.1 h
        cases h
        have hforest := skeletons_revealForest (fun node hnode after count hafter => by
          have hnode := ih node hnode hafter
          rwa [Rose.withValue, Rose.node_value_children] at hnode) hnodes
        simp only [Rose.withValue, Rose.children_node, Rose.map_node, hbeat, hforest]

theorem skeleton_reveal {count : Nat} (h : reveal root = .ok (after, count)) :
    after.map Beat.skeleton = root.map Beat.skeleton := by
  have hroot := skeleton_revealNode root h
  rwa [Rose.withValue, Rose.node_value_children] at hroot

theorem shuffled_maskKeywordLabels (root : Node) :
    Rose.Shuffled (fun a b => ∃ label, b = { a with label := label }) root
      (maskKeywordLabels root).1 := by
  apply Rose.shuffled_annotate
  intro node _
  split
  · exact ⟨_, rfl⟩
  · exact ⟨node.value.label, rfl⟩

theorem relinked_maskKeywordLabels (root : Node) : root.Relinked (maskKeywordLabels root).1 :=
  (shuffled_maskKeywordLabels root).imp fun _ _ ⟨_, h⟩ => h ▸ .of_eq rfl rfl rfl rfl

theorem unborrowed_maskKeywordLabels (h : root.Unborrowed) :
    (maskKeywordLabels root).1.Unborrowed :=
  h.of_shuffled (fun _ _ ⟨_, hlabel⟩ hborrowed => hlabel ▸ hborrowed)
    (shuffled_maskKeywordLabels root)

end Roll

/-! ### Names of cards -/

namespace NameTable

theorem skeleton_nameBeat {names : NameTable} {named : Beat × Nat}
    (h : nameBeat names beat = .ok named) : named.1.skeleton = beat.skeleton := by
  obtain ⟨label, -, h⟩ := bind_eq_ok.1 h
  obtain ⟨text, -, h⟩ := bind_eq_ok.1 h
  obtain ⟨effects, -, h⟩ := bind_eq_ok.1 h
  cases h
  rfl

theorem skeleton_apply {names : NameTable} {count : Nat} (h : names.apply root = .ok (after, count)) :
    after.map Beat.skeleton = root.map Beat.skeleton := by
  obtain ⟨named, hnamed, h⟩ := bind_eq_ok.1 h
  cases h
  rw [Rose.map_map]
  exact Rose.map_attempt (fun _ _ => skeleton_nameBeat) hnamed

end NameTable

/-! ### References -/

namespace Reference

open Placed (id_mem_ids)

theorem descend_mem_ids {unit : String} {referrer : Int} {left : Nat} {root target : Placed}
    (h : target ∈ root.walk) : (descend unit referrer left target).ref ∈ Placed.ids root := by
  induction left generalizing target with
  | zero => exact id_mem_ids h
  | succ left ih =>
      rw [descend]
      split
      · split
        · next child hchildren =>
          refine ih (Rose.mem_walk_trans (Rose.mem_walk_of_mem_children ?_) h)
          rw [hchildren]
          exact List.mem_singleton_self child
        · exact id_mem_ids h
      · exact id_mem_ids h

theorem pastWrappers_eq_some {unit : String} {root node : Placed} {descent : Descent}
    (h : pastWrappers unit (Index.ofPlaced root) node = some descent) :
    node.beat.ref.isSome ∧ descent.ref ∈ Placed.ids root := by
  unfold pastWrappers at h
  obtain ⟨target, htarget, h⟩ := Option.bind_eq_some_iff.1 h
  split at h
  · cases h
  · obtain ⟨found, hfound, h⟩ := Option.bind_eq_some_iff.1 h
    cases h
    exact ⟨by simp [htarget], descend_mem_ids (Index.node?_eq_some hfound).1⟩

theorem relinked_ref {target : Int} (hmem : target ∈ numbers) (hsome : beat.ref.isSome) :
    Beat.Relinked numbers beat { beat with ref := some target } := by
  refine ⟨⟨rfl, rfl, fun _ => hsome⟩, fun link hlink => ?_⟩
  rcases List.mem_append.1 hlink with hlink | hlink
  · rw [Option.toList_some, List.mem_singleton] at hlink
    exact .inr (hlink ▸ hmem)
  · exact .inl (List.mem_append_right _ hlink)

theorem relinked_skipWrappers (unit : String) (root : Node) :
    root.Relinked (skipWrappers unit root).root := by
  have hplaced : Rose.Shuffled (fun (entry : Nat × Beat) beat => Beat.Relinked root.ids entry.2 beat)
      root.placed (skipWrappers unit root).root := by
    apply Rose.shuffled_annotate
    intro node _
    split
    · next descent hdescent =>
      split
      · exact .refl _
      · obtain ⟨hsome, hmem⟩ := pastWrappers_eq_some hdescent
        rw [Placed.ids_placed] at hmem
        exact relinked_ref hmem hsome
    · exact .refl _
  have := hplaced.map_map (g := id)
  rwa [Rose.map_id, ← Placed.forget, Node.forget_placed] at this

theorem relinked_skipFights (unit : String) (root : Node) :
    root.Relinked (skipFights unit root).root := by
  apply Rose.shuffled_map
  intro node _
  split
  · next next hnext =>
    obtain ⟨target, htarget, hnext⟩ := Option.bind_eq_some_iff.1 hnext
    obtain ⟨found, hfound, hnext⟩ := Option.bind_eq_some_iff.1 hnext
    split at hnext
    · cases hnext
    · cases hnext
      obtain ⟨fight, hfight, hafter⟩ := List.mem_filterMap.1 (Register.mem_of_get?_ofList hfound)
      refine relinked_ref ?_ (by simp [htarget])
      unfold afterFight at hafter
      split at hafter
      · next value child children =>
        split at hafter
        · cases hafter
          exact Node.ids_subset_of_mem_walk hfight (by simp [Node.ids_node])
        · cases hafter
      · cases hafter
  · exact .refl _

end Reference

end StoryAtlas
