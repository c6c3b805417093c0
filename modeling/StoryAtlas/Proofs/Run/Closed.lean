import StoryAtlas.Proofs.Explore.Links
import StoryAtlas.Proofs.Run.Shape

/-!
# The links of the trees of a run

An explored tree has all nodes that it refers to. Separation keeps the ids of the nodes that are
referred to, sharing gives up no node that a reference from outside still needs, and the passes after
that only name nodes of the tree. Children are borrowed after sharing, so that sharing never has to
look at borrowed children.
-/

namespace StoryAtlas.Run

variable {settings : Settings} {tuning : Tuning} {alterations : Register String (List Alteration)}

/-- No pass that drops what may be referred to works on a unit of this name. -/
structure Preserved (settings : Settings) (tuning : Tuning) (name : String) : Prop where
  nothreshold : ∀ menu, tuning.menuOf name = some menu → menu.usesThreshold = false
  hubs : settings.passes.foldHubs = false ∨ name ∈ settings.hubsKept
  fallbacks : settings.passes.dropFallbacks = false ∨ name ∉ settings.fallbacksDropped

/-- The root is sound and every link of it names a node of it. -/
structure Linked (nextId : Int) (root : Node) : Prop where
  sound : root.Sound nextId
  closed : root.Closed

theorem Linked.of_relinked {nextId : Int} {root after : Node} (h : Linked nextId root)
    (hrelinked : root.Relinked after) : Linked nextId after :=
  ⟨h.sound.of_retold hrelinked.retold, h.closed.of_relinked hrelinked⟩

/-- What holds of the roots of the units that are preserved. -/
def WhenPreserved (settings : Settings) (tuning : Tuning) (p : Int → Node → Prop) (name : String)
    (nextId : Int) (root : Node) : Prop :=
  Preserved settings tuning name → p nextId root

open Stage

/-- Before the trees are folded, no node borrows children. -/
def Unfolded (nextId : Int) (root : Node) : Prop := Linked nextId root ∧ root.Unborrowed

theorem unfolded_of_raw {tree : EventTree} (h : Raw settings tuning tree) :
    Rooted (WhenPreserved settings tuning Unfolded) tree := by
  obtain ⟨setting, root, world, -, hmenu, hbuilt, hroot, hnextId, hstrays⟩ := h
  refine ⟨root, hroot, hstrays, fun hname => ?_⟩
  have nothreshold : ∀ menu, setting.menu = some menu → menu.usesThreshold = false := by
    rw [hmenu]
    exact hname.nothreshold
  obtain ⟨hclosed, hunborrowed⟩ := Explore.closed_explored nothreshold hbuilt
  refine ⟨⟨?_, hclosed⟩, hunborrowed⟩
  rw [hnextId]
  exact (Explore.sound_run hbuilt).1

theorem unfolded_shape :
    Leads (Rooted (WhenPreserved settings tuning Unfolded)) (shape settings)
      (Rooted (WhenPreserved settings tuning Unfolded)) := by
  have idle : ∀ tree, Rooted (WhenPreserved settings tuning Unfolded) tree →
      Rooted (WhenPreserved settings tuning Unfolded) tree := fun _ h => h
  refine leads_inOrder fun unit => ⟨_, rfl, ?_⟩
  refine .cons (M := Rooted (WhenPreserved settings tuning Unfolded))
    (.onlyIf (fun hdrops => ?_) fun _ tree => Rooted.imp fun _ _ _ h => h.2) ?_
  · apply leads_dropFallbacks
    intro name nextId root h hname
    obtain ⟨hon, hlisted⟩ := Bool.and_eq_true_iff.1 hdrops
    rw [← h.1] at hlisted
    rcases hname.fallbacks with hoff | hunlisted
    · rw [hon] at hoff
      cases hoff
    · exact absurd (List.contains_iff_mem.1 hlisted) hunlisted
  refine .cons (M := Rooted (WhenPreserved settings tuning Unfolded))
    (.onlyIf (fun _ => ?_) fun _ => idle) ?_
  · apply leads_separateChoices
    intro name nextId root h hname
    obtain ⟨⟨hsound, hclosed⟩, hunborrowed⟩ := h hname
    exact ⟨⟨Split.sound_separate hsound, Split.closed_separate hclosed⟩,
      Split.unborrowed_separate hunborrowed⟩
  refine .cons (leads_maskKeywords fun name nextId root h hname => ?_) (.nil idle)
  obtain ⟨hlinked, hunborrowed⟩ := h hname
  exact ⟨hlinked.of_relinked (Roll.relinked_maskKeywordLabels root),
    Roll.unborrowed_maskKeywordLabels hunborrowed⟩

/-- Sharing keeps every reference, and there is nothing else yet that names a node. -/
theorem Linked.share {nextId : Int} {root : Node} (h : Linked nextId root)
    (hunborrowed : root.Unborrowed) (options : Share.Options) (unit : String) :
    Linked nextId (Share.run options unit root).1.root := by
  obtain ⟨hsteps, -⟩ := Share.steps_run options unit h.sound.distinct
  have hresolves := Share.resolves_steps h.sound.distinct h.closed.resolves hsteps
  refine ⟨Share.sound_steps h.sound hsteps, hresolves.closed ?_⟩
  exact Share.unborrowed_steps h.sound.distinct hunborrowed hsteps

theorem linked_fold :
    Leads (Rooted (WhenPreserved settings tuning Unfolded)) (fold settings tuning)
      (Rooted (WhenPreserved settings tuning Linked)) := by
  have idle : ∀ tree, Rooted (WhenPreserved settings tuning Linked) tree →
      Rooted (WhenPreserved settings tuning Linked) tree := fun _ h => h
  refine leads_inOrder fun unit => ⟨_, rfl, ?_⟩
  -- The hub pass is told by the name of the unit whether to fold, so the name is kept until then.
  refine .cons (M := Rooted fun name nextId root =>
    name = unit.name ∧ WhenPreserved settings tuning Linked name nextId root)
    (.onlyIf (fun _ => ?_) fun _ tree => Rooted.imp fun _ _ _ h => ⟨h.1, fun hname => (h.2 hname).1⟩)
    ?_
  · refine leads_share fun name nextId root h => ⟨h.1, fun hname => ?_⟩
    obtain ⟨hlinked, hunborrowed⟩ := h.2 hname
    exact hlinked.share hunborrowed settings.sharing name
  refine .cons (M := Rooted (WhenPreserved settings tuning Linked))
    (leads_foldHubs fun name nextId root h hname => ?_) ?_
  · have disabled : (settings.passes.foldHubs && !settings.hubsKept.contains unit.name) = false := by
      rw [← h.1]
      rcases hname.hubs with hoff | hkept
      · rw [hoff, Bool.false_and]
      · rw [List.contains_iff_mem.2 hkept, Bool.not_true, Bool.and_false]
    rw [disabled, Hub.run_disabled]
    exact h.2 hname
  refine .cons (M := Rooted (WhenPreserved settings tuning Linked))
    (.onlyIf (fun _ => ?_) fun _ => idle) ?_
  · apply leads_skipWrappers
    intro name nextId root h hname
    exact (h hname).of_relinked (Reference.relinked_skipWrappers name root)
  refine .cons (M := Rooted (WhenPreserved settings tuning Linked))
    (.onlyIf (fun _ => ?_) fun _ => idle) ?_
  · apply leads_skipFights
    intro name nextId root h hname
    exact (h hname).of_relinked (Reference.relinked_skipFights name root)
  refine .cons (M := Rooted (WhenPreserved settings tuning Linked))
    (.onlyIf (fun _ => ?_) fun _ => idle) ?_
  · apply leads_promoteHub
    intro name nextId root h hname
    rw [Hub.promote_of_not_usesThreshold name root hname.nothreshold]
    exact h hname
  refine .cons (.onlyIf (fun _ => ?_) fun _ => idle) (.nil idle)
  apply leads_borrowChildren
  intro name nextId root h hname
  have hlinked := h hname
  exact hlinked.of_relinked
    (Reference.relinked_borrowAll _ _ hlinked.sound.distinct hlinked.sound.bare)

/-- A beat whose links name nodes of its tree has none that dangle. -/
theorem inBeat_eq_nil {unit : String} {ids : List Int} {beat : Beat}
    (h : ∀ link ∈ beat.links, link ∈ ids) : Dangling.inBeat unit ids [] beat = [] := by
  unfold Dangling.inBeat
  rw [List.map_eq_nil_iff, List.filter_eq_nil_iff]
  rintro ⟨field, target⟩ hlink
  rw [Bool.not_eq_true, Bool.not_eq_false']
  have hnumber : ∃ link ∈ beat.links, target = .int link := by
    unfold Dangling.links at hlink
    rw [Strays.written_nil] at hlink
    rcases List.mem_append.1 hlink with href | hborrowed
    · obtain ⟨value, hvalue, hpair⟩ := List.mem_map.1 href
      cases hpair
      obtain ⟨link, hmem, rfl⟩ := Option.map_eq_some_iff.1 (Option.mem_toList.1 hvalue)
      exact ⟨link, List.mem_append_left _ (Option.mem_toList.2 hmem), rfl⟩
    · obtain ⟨link, hmem, hpair⟩ := List.mem_map.1 hborrowed
      cases hpair
      exact ⟨link, List.mem_append_right _ hmem, rfl⟩
  obtain ⟨link, hmem, rfl⟩ := hnumber
  exact List.contains_iff_mem.2 (h link hmem)

theorem dangling_eq_nil {tree : EventTree} {root : Node} (hroot : tree.root = some root)
    (hstrays : tree.strays = []) (hclosed : root.Closed) : tree.dangling = [] := by
  unfold EventTree.dangling
  rw [hroot, hstrays]
  refine List.flatMap_eq_nil_iff.2 fun node hnode => inBeat_eq_nil fun link hlink => ?_
  exact hclosed link (Node.mem_links.2 ⟨node, hnode, hlink⟩)

theorem unit_of_mem_dangling {tree : EventTree} {found : Dangling} (h : found ∈ tree.dangling) :
    found.unit = tree.name := by
  unfold EventTree.dangling at h
  cases hroot : tree.root with
  | none =>
      rw [hroot] at h
      cases h
  | some root =>
      rw [hroot] at h
      obtain ⟨node, -, hbeat⟩ := List.mem_flatMap.1 h
      obtain ⟨link, -, rfl⟩ := List.mem_map.1 hbeat
      rfl

/-- The links of the trees before the audit that are preserved and unaltered all name nodes. -/
def WhenKept (settings : Settings) (tuning : Tuning)
    (alterations : Register String (List Alteration)) (name : String) (nextId : Int) (root : Node) :
    Prop :=
  Unaltered settings alterations name → WhenPreserved settings tuning Linked name nextId root

theorem linked_finish (names : NameTable) :
    Leads (Rooted (WhenKept settings tuning alterations)) (finish settings names)
      (Rooted (WhenKept settings tuning alterations)) := by
  apply leads_finish
  intro name nextId root after h hbones hname hpreserved
  exact (h hname hpreserved).of_relinked (Node.relinked_of_skeleton hbones)

/-- If no pass that drops what may be referred to works on a unit, then every reference and every
borrowed child in its tree is a node of the tree, and the report lists no link of the unit. -/
theorem closed_run {engine : Engine} {lookup : Lookup} {skipLookup : Bool} {units : List UnitRecord}
    {trees : List EventTree} {report : Report}
    (h : (run engine settings tuning alterations lookup skipLookup units).1 = .ok (trees, report))
    {tree : EventTree} (htree : tree ∈ trees) (preserved : Preserved settings tuning tree.name)
    (unaltered : Unaltered settings alterations tree.name) :
    (∃ root, tree.root = some root ∧ root.Closed) ∧
      ∀ found ∈ report.dangling, found.unit ≠ tree.name := by
  have haudit : ∀ tree, Rooted (WhenKept settings tuning alterations) tree →
      ∀ found ∈ tree.dangling, ¬(Preserved settings tuning found.unit ∧
        Unaltered settings alterations found.unit) := by
    rintro tree ⟨root, hroot, hstrays, hlinked⟩ found hfound hunit
    rw [unit_of_mem_dangling hfound] at hunit
    rw [dangling_eq_nil hroot hstrays (hlinked hunit.2 hunit.1).closed] at hfound
    cases hfound
  obtain ⟨htrees, hdangling⟩ := holds_run (fun tree => unfolded_of_raw) unfolded_shape linked_fold
    (leads_alter_unaltered _) haudit linked_finish (Prod.ext h rfl)
  constructor
  · obtain ⟨root, hroot, -, hlinked⟩ := htrees tree htree
    exact ⟨root, hroot, (hlinked unaltered preserved).closed⟩
  · intro found hfound hunit
    apply hdangling found hfound
    rw [hunit]
    exact ⟨preserved, unaltered⟩

theorem closed_run_crossing :
    ∃ trees report, (run crossing quietSettings {} [] (.ok [], []) true [crossingUnit]).1 =
        .ok (trees, report) ∧
      ∃ tree ∈ trees, Preserved quietSettings {} tree.name ∧ Unaltered quietSettings [] tree.name ∧
        (∃ root, tree.root = some root ∧ root.Closed) ∧
          ∀ found ∈ report.dangling, found.unit ≠ tree.name := by
  obtain ⟨trees, report, hrun, tree, htree, hname⟩ := run_crossing
  have preserved : Preserved quietSettings {} tree.name := by
    rw [hname]
    exact ⟨fun menu hmenu => (nomatch hmenu), .inr (by decide), .inr (by decide)⟩
  have unaltered : Unaltered quietSettings [] tree.name := .inr rfl
  exact ⟨trees, report, hrun, tree, htree, preserved, unaltered,
    closed_run hrun htree preserved unaltered⟩

end StoryAtlas.Run
