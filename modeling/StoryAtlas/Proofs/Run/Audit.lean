import StoryAtlas.Proofs.Event.Payload
import StoryAtlas.Proofs.Explore.Resolve
import StoryAtlas.Proofs.Run.Closed

/-!
# What the report says about the trees

The audit looks at the trees before the last stage, and the trees are handed on and written after it.
The last stage changes only what the beats tell, and a written tree is read again as itself. So where
no tree gets lost in the last stage, the links that the report lists are those of the returned trees
that lead nowhere, one by one and in order, and whoever reads the written trees finds them again.
-/

namespace StoryAtlas

/-- A link that leads nowhere: its unit, the node that has it, its field and what it names. -/
abbrev LostLink := String × Int × Link × Json

def Dangling.entry (found : Dangling) : LostLink := (found.unit, found.node, found.link, found.target)

namespace Beat

def fieldLinks (beat : Beat) : List (Link × Int) :=
  (beat.ref.toList.map fun target => (Link.ref, target)) ++
    (beat.refChildren.getD []).map fun target => (Link.refChildren, target)

def lost (unit : String) (ids : List Int) (beat : Beat) : List LostLink :=
  (beat.fieldLinks.filter fun link => link.2 ∉ ids).map fun link =>
    (unit, beat.id, link.1, Json.int link.2)

end Beat

def Node.lost (unit : String) (root : Node) : List LostLink :=
  root.walk.flatMap fun node => node.value.lost unit root.ids

def EventTree.lost (tree : EventTree) : List LostLink :=
  (tree.root.map (Node.lost tree.name)).getD []

/-! ### The audit of a tree -/

theorem entries_inBeat (unit : String) (ids : List Int) (beat : Beat) :
    (Dangling.inBeat unit ids [] beat).map Dangling.entry = beat.lost unit ids := by
  have hlinks : Dangling.links [] beat =
      beat.fieldLinks.map fun link => (link.1, Json.int link.2) := by
    rw [Dangling.links, Strays.written_nil, Beat.fieldLinks, List.map_append, List.map_map,
      List.map_map, Slot.held]
    cases beat.ref <;> rfl
  rw [Dangling.inBeat, hlinks, List.filter_map, List.map_map, List.map_map, Beat.lost]
  congr 1
  refine List.filter_congr fun link _ => ?_
  simp [Dangling.isAmong, Json.whole?]

theorem entries_dangling {tree : EventTree} (h : tree.strays = []) :
    tree.dangling.map Dangling.entry = tree.lost := by
  unfold EventTree.dangling EventTree.lost
  cases tree.root with
  | none => rfl
  | some root =>
      rw [h, Option.map_some, Option.map_some, Option.getD_some, Option.getD_some, Dangling.inTree,
        List.map_flatMap, Node.lost]
      exact List.flatMap_congr fun node _ => entries_inBeat tree.name root.ids node.value

theorem auditFault?_eq_none {tree : EventTree} (h : tree.strays = []) : tree.auditFault? = none := by
  unfold EventTree.auditFault?
  rw [h]
  cases tree.root with
  | none => rfl
  | some root =>
      refine List.findSome?_eq_none_iff.2 fun node _ => ?_
      have hseek : Dangling.seekFault? [] node.value = none := by
        rw [Dangling.seekFault?, Strays.written_nil, Slot.held]
        cases node.value.ref <;> rfl
      have hclip : Dangling.clipFault? [] node.value = none := by
        unfold Dangling.clipFault?
        rw [Strays.written_nil, Strays.written_nil, Slot.held, Slot.held]
        cases node.value.text with
        | none => simp [Json.isVoid]
        | some text => rfl
      rw [hseek, hclip, Option.none_or, ite_self]

theorem inTrees_fst (trees : List EventTree) :
    (Dangling.inTrees trees).1 = trees.flatMap EventTree.dangling := by
  unfold Dangling.inTrees
  induction trees with
  | nil => rfl
  | cons tree trees ih =>
      dsimp only at ih ⊢
      rw [List.map_cons, List.filter_cons, List.flatMap_cons]
      split
      · rw [List.flatMap_cons, ih]
      · next hempty =>
        have hnone : tree.dangling = [] := by simpa using hempty
        rw [hnone, List.nil_append, ih]

/-! ### The last stage -/

theorem ids_skeleton (root : Node) : Node.ids (root.map Beat.skeleton) = root.ids :=
  Node.ids_map (f := Beat.skeleton) (fun _ => rfl) root

theorem lost_skeleton (unit : String) (root : Node) :
    Node.lost unit (root.map Beat.skeleton) = root.lost unit := by
  rw [Node.lost, ids_skeleton, Rose.walk_map, List.flatMap_map]
  refine List.flatMap_congr fun node _ => ?_
  rw [Rose.value_map]
  rfl

theorem lost_of_skeleton {unit : String} {root after : Node}
    (h : after.map Beat.skeleton = root.map Beat.skeleton) : after.lost unit = root.lost unit := by
  rw [← lost_skeleton, h, lost_skeleton]

namespace Stage

/-- The last stage keeps the name and the skeleton of a tree. -/
theorem leads_finish_skeleton (settings : Settings) (names : NameTable) (unit : String)
    (bones : Node) :
    Leads (Rooted fun name _ root => name = unit ∧ root.map Beat.skeleton = bones)
      (finish settings names)
      (Rooted fun name _ root => name = unit ∧ root.map Beat.skeleton = bones) :=
  Run.leads_finish names fun _ _ _ _ h hbones => ⟨h.1, hbones.trans h.2⟩

theorem lost_finish {settings : Settings} {names : NameTable} {tree after : EventTree}
    (hrooted : Rooted (fun _ _ _ => True) tree) (h : (finish settings names tree).tree = .ok after) :
    after.lost = tree.lost ∧ after.strays = [] := by
  obtain ⟨root, hroot, hstrays, -⟩ := hrooted
  obtain ⟨changed, hchanged, hkept, hname, hbones⟩ :=
    leads_finish_skeleton settings names tree.name (root.map Beat.skeleton) tree
      ⟨root, hroot, hstrays, rfl, rfl⟩ after h
  refine ⟨?_, hkept⟩
  rw [EventTree.lost, EventTree.lost, hroot, hchanged, hname, Option.map_some, Option.map_some,
    lost_of_skeleton hbones]

end Stage

namespace Run

variable {engine : Engine} {settings : Settings} {tuning : Tuning}
  {alterations : Register String (List Alteration)} {lookup : Lookup} {skipLookup : Bool}
  {units : List UnitRecord} {trees : List EventTree} {report : Report}

theorem forall₂_takeThrough (title : String) {stage : Stage} {state : State}
    (h : ∀ tree ∈ state.trees, ∃ after, (stage tree).tree = .ok after) :
    List.Forall₂ (fun tree after => (stage tree).tree = .ok after) state.trees
      (takeThrough title stage state).trees := by
  obtain ⟨before, report, journal⟩ := state
  unfold takeThrough
  dsimp only at h ⊢
  induction before with
  | nil => exact .nil
  | cons tree before ih =>
      obtain ⟨after, hafter⟩ := h tree (by simp)
      rw [List.map_cons, List.filterMap_cons_some (b := after) (by simp [hafter, Except.toOption])]
      exact .cons hafter (ih fun other hother => h other (by simp [hother]))

theorem flatMap_lost_of_forall₂ {before : List EventTree}
    (h : List.Forall₂ (fun tree after => EventTree.lost after = tree.lost ∧ after.strays = []) before
      trees) :
    trees.flatMap EventTree.lost = before.flatMap EventTree.lost ∧
      ∀ tree ∈ trees, tree.strays = [] := by
  induction h with
  | nil => exact ⟨rfl, by simp⟩
  | cons hfirst hrest ih =>
      rw [List.flatMap_cons, List.flatMap_cons, hfirst.1, ih.1]
      exact ⟨rfl, List.forall_mem_cons.2 ⟨hfirst.2, ih.2⟩⟩

theorem rooted_prepare {ready : State × NameTable}
    (h : prepare engine settings tuning alterations lookup skipLookup units = .ok ready) :
    ∀ tree ∈ ready.1.trees, Stage.Rooted (fun _ _ _ => True) tree := by
  have hready := holds_prepare (L := fun _ => True) (fun tree => unfolded_of_raw) unfolded_shape
    linked_fold (leads_alter_unaltered _) (fun _ _ _ _ => trivial) h
  exact fun tree htree => (hready.trees tree htree).imp fun _ _ _ _ => trivial

/-- The audit is the last thing before the last stage. -/
theorem dangling_prepare {ready : State × NameTable} (checks : settings.passes.checkRefs = true)
    (h : prepare engine settings tuning alterations lookup skipLookup units = .ok ready) :
    ready.1.report.dangling = ready.1.trees.flatMap EventTree.dangling := by
  have haudited : ∀ state, (audited settings tuning alterations state).report.dangling =
      (audited settings tuning alterations state).trees.flatMap EventTree.dangling := by
    intro state
    unfold audited
    dsimp only
    rw [if_pos checks]
    exact inTrees_fst _
  unfold prepare at h
  split at h
  · cases h
  dsimp only at h
  split at h
  · obtain ⟨names, -, rfl⟩ := map_eq_ok.1 h
    exact haudited _
  · cases h
    exact haudited _

/-- If no tree gets lost in the last stage, then the report lists, one by one and in order, the links
of the returned trees that lead nowhere, and reading the written trees and auditing them gives them
again. -/
theorem audited_run
    (h : (run engine settings tuning alterations lookup skipLookup units).1 = .ok (trees, report))
    (checks : settings.passes.checkRefs = true)
    (finishes : ∀ ready names,
      prepare engine settings tuning alterations lookup skipLookup units = .ok (ready, names) →
        ∀ tree ∈ ready.trees, ∃ after, (Stage.finish settings names tree).tree = .ok after) :
    report.dangling.map Dangling.entry = trees.flatMap EventTree.lost ∧
      ∀ tree ∈ trees, ∃ reloaded, EventTree.ofPayload tree.toPayload = .ok reloaded ∧
        reloaded.auditFault? = none ∧ reloaded.dangling.map Dangling.entry = tree.lost := by
  rw [run_eq] at h
  obtain ⟨⟨ready, names⟩, hready, hdone⟩ := map_eq_ok.1 h
  cases hdone
  have hrooted : ∀ tree ∈ ready.trees, Stage.Rooted (fun _ _ _ => True) tree := rooted_prepare hready
  have hpairs := forall₂_takeThrough "cleanup passes" (finishes ready names hready)
  have hkept : List.Forall₂ (fun tree after => EventTree.lost after = tree.lost ∧ after.strays = [])
      ready.trees (conclude settings (ready, names)).trees :=
    ((List.forall₂_and_left _ _).2 ⟨hrooted, hpairs⟩).imp fun tree after hboth =>
      Stage.lost_finish hboth.1 hboth.2
  obtain ⟨hlost, hstrays⟩ := flatMap_lost_of_forall₂ hkept
  constructor
  · have hreport : (conclude settings (ready, names)).report.dangling =
        ready.trees.flatMap EventTree.dangling := dangling_prepare checks hready
    rw [hreport, hlost, List.map_flatMap]
    refine List.flatMap_congr fun tree htree => ?_
    obtain ⟨root, -, hplain, -⟩ := hrooted tree htree
    exact entries_dangling hplain
  · intro tree htree
    have hplain : tree.strays = [] := hstrays tree htree
    exact ⟨_, EventTree.ofPayload_toPayload hplain, auditFault?_eq_none hplain,
      entries_dangling hplain⟩

/-! ### A run with a lost link -/

/-- An engine that opens every text as the story of a hall, whose menu is offered at the gate too. -/
def hallEngine : Engine := fun _ => some Explore.hall.script

def hallUnit : UnitRecord := { name := "Hall", text := some "\x7b\x7d" }

def hallTuning : Tuning where
  menus := [("Hall", { hubPattern := "hall", exitPatterns := ["Leave"], threshold := some 60.0 })]

def hallSettings : Settings where
  limits := { detectRepeatedStates := false }
  hubsKept := ["Hall"]

theorem audited_run_hall :
    ∃ trees report, (run hallEngine hallSettings hallTuning [] (.ok [], []) true [hallUnit]).1 =
        .ok (trees, report) ∧
      (report.dangling.map fun found => (found.unit, found.node, found.link, found.target.whole?)) =
        [("Hall", 7, .ref, some 3)] ∧
      report.dangling.map Dangling.entry = trees.flatMap EventTree.lost ∧
      ∀ tree ∈ trees, ∃ reloaded, EventTree.ofPayload tree.toPayload = .ok reloaded ∧
        reloaded.auditFault? = none ∧ reloaded.dangling.map Dangling.entry = tree.lost := by
  have hshown : (run hallEngine hallSettings hallTuning [] (.ok [], []) true
      [hallUnit]).1.toOption.map (fun done => done.2.dangling.map fun found =>
        (found.unit, found.node, found.link, found.target.whole?)) =
      some [("Hall", 7, .ref, some 3)] := by
    decide +kernel
  have hfinished : (prepare hallEngine hallSettings hallTuning [] (.ok [], []) true
      [hallUnit]).toOption.map (fun ready => ready.1.trees.all fun tree =>
        (Stage.finish hallSettings ready.2 tree).tree.toOption.isSome) = some true := by
    decide +kernel
  obtain ⟨⟨trees, report⟩, hrun, hdangling⟩ := exists_ok_of_map_toOption hshown
  refine ⟨trees, report, hrun, hdangling, audited_run hrun rfl ?_⟩
  intro ready names hready tree htree
  rw [hready] at hfinished
  have hsome := List.all_eq_true.1 (Option.some.inj hfinished) tree htree
  cases hafter : (Stage.finish hallSettings names tree).tree with
  | error fault =>
      rw [hafter] at hsome
      cases hsome
  | ok after => exact ⟨after, rfl⟩

end Run

end StoryAtlas
