import StoryAtlas.Proofs.Explore.Numbering
import StoryAtlas.Proofs.Run.Stages

/-!
# The trees of a run

A run takes the trees of the units, one by one, through the stages. So a tree that it returns was
explored for a unit of its name and has gone through every stage, and what the stages lead to, one
after the other, holds of it. The audit looks at the trees before the last stage, and a link that the
report lists dangles in one of these.
-/

namespace StoryAtlas.Run

variable {engine : Engine} {settings : Settings} {tuning : Tuning}

/-- The tree is as an exploration for a unit of its name left it. -/
inductive Raw (settings : Settings) (tuning : Tuning) (tree : EventTree) : Prop
  | explored (setting : Explore.Setting) (root : Node) (world : Explore.World)
      (limits : setting.limits = settings.limits) (menu : setting.menu = tuning.menuOf tree.name)
      (built : Explore.run setting = (.ok (some root), world)) (hroot : tree.root = some root)
      (nextId : tree.nextId = world.ledger.nextId) (strays : tree.strays = [])

theorem raw_of_settleTree {unit : UnitRecord} {setting : Explore.Setting} {tree : EventTree}
    {truncated : Bool} {journal : Journal} (limits : setting.limits = settings.limits)
    (menu : setting.menu = tuning.menuOf unit.displayName)
    (h : settleTree unit (Explore.run setting) = (.tree tree truncated, journal)) :
    Raw settings tuning tree := by
  generalize hbuilt : Explore.run setting = result at h
  obtain ⟨fault | _ | root, world⟩ := result
  · cases h
  · cases h
  · cases h
    exact .explored setting root world limits menu hbuilt rfl rfl rfl

theorem raw_of_buildUnit {unit : UnitRecord} {text : String} {tree : EventTree} {truncated : Bool}
    (h : (buildUnit engine settings tuning unit text).1 = .tree tree truncated) :
    Raw settings tuning tree := by
  unfold buildUnit at h
  dsimp only at h
  split at h
  · cases h
  split at h
  · cases h
  next bytecode _ =>
  unfold explore at h
  dsimp only at h
  split at h
  · cases h
  next script _ =>
  refine raw_of_settleTree ?_ ?_ (Prod.ext h rfl)
  · rfl
  · rfl

/-- What holds of every tree of a state, and of every link that its report lists. -/
structure State.Holds (P : EventTree → Prop) (L : Dangling → Prop) (state : State) : Prop where
  trees : ∀ tree ∈ state.trees, P tree
  dangling : ∀ found ∈ state.report.dangling, L found

variable {P Q : EventTree → Prop} {L : Dangling → Prop} {state after : State}

theorem holds_note (entries : Journal) (h : state.Holds P L) : (state.note entries).Holds P L :=
  ⟨h.trees, h.dangling⟩

theorem holds_keep {tree : EventTree} {truncated : Bool} (h : state.Holds P L) (htree : P tree) :
    (state.keep tree truncated).Holds P L := by
  refine ⟨fun other hother => ?_, h.dangling⟩
  rcases List.mem_append.1 hother with hold | hnew
  · exact h.trees other hold
  · rw [List.mem_singleton.1 hnew]
    exact htree

theorem holds_buildFrom {total position : Nat} {units : List UnitRecord}
    (raw : ∀ tree, Raw settings tuning tree → P tree) (hstate : state.Holds P L)
    (h : buildFrom engine settings tuning total position units state = (after, none)) :
    after.Holds P L := by
  induction units generalizing position state with
  | nil =>
      cases h
      exact hstate
  | cons unit units ih =>
      rw [buildFrom] at h
      split at h
      · refine ih ?_ h
        exact ⟨hstate.trees, hstate.dangling⟩
      next text _ =>
      dsimp only at h
      split at h
      · cases h
      · refine ih ?_ h
        exact ⟨hstate.trees, hstate.dangling⟩
      · next tree truncated hbuilt =>
        refine ih ?_ h
        refine holds_keep ?_ (raw tree (raw_of_buildUnit hbuilt))
        exact ⟨hstate.trees, hstate.dangling⟩

theorem holds_settleOrder (h : state.Holds P L) : (settleOrder state).Holds P L :=
  ⟨fun tree htree => h.trees tree (List.mem_mergeSort.1 htree), h.dangling⟩

theorem holds_takeThrough (title : String) {stage : Stage} (hstage : Stage.Leads P stage Q)
    (h : state.Holds P L) : (takeThrough title stage state).Holds Q L := by
  refine ⟨fun tree htree => ?_, h.dangling⟩
  obtain ⟨⟨before, work⟩, hdone, hwork⟩ := List.mem_filterMap.1 htree
  obtain ⟨origin, horigin, hpair⟩ := List.mem_map.1 hdone
  cases hpair
  change (stage before).tree.toOption = some tree at hwork
  cases hafter : (stage before).tree with
  | error fault =>
      rw [hafter] at hwork
      cases hwork
  | ok found =>
      rw [hafter] at hwork
      cases hwork
      exact hstage before (h.trees before horigin) tree hafter

theorem holds_takeThrough_onlyIf (title : String) {stage : Stage} {condition : Bool}
    (hstage : Stage.Leads P (Stage.onlyIf condition stage) Q) (h : state.Holds P L) :
    State.Holds Q L (if condition then takeThrough title stage state else state) := by
  unfold Stage.onlyIf at hstage
  split at hstage
  · next hcondition =>
    rw [if_pos hcondition]
    exact holds_takeThrough title hstage h
  · next hcondition =>
    rw [if_neg hcondition]
    exact ⟨fun tree htree => hstage tree (h.trees tree htree) tree rfl, h.dangling⟩

theorem holds_audit (haudit : ∀ tree, P tree → ∀ found ∈ tree.dangling, L found)
    (condition : Bool) (h : state.Holds P L) :
    State.Holds P L (if condition then audit state else state) := by
  split
  · refine ⟨h.trees, fun found hfound => ?_⟩
    obtain ⟨⟨name, links⟩, hlinks, hfound⟩ := List.mem_flatMap.1 hfound
    obtain ⟨tree, htree, hpair⟩ := List.mem_map.1 (List.mem_filter.1 hlinks).1
    cases hpair
    exact haudit tree (h.trees tree htree) found hfound
  · exact h

variable {S F A D : EventTree → Prop} {alterations : Register String (List Alteration)}

/-- The stages between the first and the last, with the audit at their end. -/
def audited (settings : Settings) (tuning : Tuning)
    (alterations : Register String (List Alteration)) (state : State) : State :=
  let folded := takeThrough "optimization passes" (Stage.fold settings tuning) state
  let altered :=
    if settings.passes.applyAlterations then takeThrough "alterations" (Stage.alter alterations) folded
    else folded
  if settings.passes.checkRefs then audit altered else altered

/-- What a run brings to the last stage: where it stands, and the names that it looked up. -/
def prepare (engine : Engine) (settings : Settings) (tuning : Tuning)
    (alterations : Register String (List Alteration)) (lookup : Lookup) (skipLookup : Bool)
    (units : List UnitRecord) : Except Halt (State × NameTable) :=
  match buildFrom engine settings tuning units.length 1 units {} with
  | (_, some halt) => .error halt
  | (state, none) =>
    let shaped := takeThrough "structure passes" (Stage.shape settings) (settleOrder state)
    if wantsNames settings skipLookup then
      lookup.1.map fun names => (audited settings tuning alterations (shaped.note lookup.2), names)
    else .ok (audited settings tuning alterations shaped, [])

def conclude (settings : Settings) (ready : State × NameTable) : State :=
  settleReport (takeThrough "cleanup passes" (Stage.finish settings ready.2) ready.1)

theorem run_eq (engine : Engine) (settings : Settings) (tuning : Tuning)
    (alterations : Register String (List Alteration)) (lookup : Lookup) (skipLookup : Bool)
    (units : List UnitRecord) :
    (run engine settings tuning alterations lookup skipLookup units).1 =
      (prepare engine settings tuning alterations lookup skipLookup units).map fun ready =>
        ((conclude settings ready).trees, (conclude settings ready).report) := by
  unfold run prepare
  generalize buildFrom engine settings tuning units.length 1 units {} = built
  obtain ⟨state, halted | halt⟩ := built
  · dsimp only
    split
    · cases lookup.1 <;> rfl
    · rfl
  · rfl

theorem holds_audited (fold : Stage.Leads S (Stage.fold settings tuning) F)
    (alter : Stage.Leads F (Stage.onlyIf settings.passes.applyAlterations
      (Stage.alter alterations)) A)
    (haudit : ∀ tree, A tree → ∀ found ∈ tree.dangling, L found) (h : state.Holds S L) :
    (audited settings tuning alterations state).Holds A L :=
  holds_audit haudit settings.passes.checkRefs
    (holds_takeThrough_onlyIf "alterations" alter (holds_takeThrough "optimization passes" fold h))

theorem holds_prepare {lookup : Lookup} {skipLookup : Bool} {units : List UnitRecord}
    {ready : State × NameTable} (raw : ∀ tree, Raw settings tuning tree → P tree)
    (shape : Stage.Leads P (Stage.shape settings) S)
    (fold : Stage.Leads S (Stage.fold settings tuning) F)
    (alter : Stage.Leads F (Stage.onlyIf settings.passes.applyAlterations
      (Stage.alter alterations)) A)
    (haudit : ∀ tree, A tree → ∀ found ∈ tree.dangling, L found)
    (h : prepare engine settings tuning alterations lookup skipLookup units = .ok ready) :
    ready.1.Holds A L := by
  unfold prepare at h
  split at h
  · cases h
  next built hbuilt =>
  have hraw : built.Holds P L := by
    refine holds_buildFrom raw ⟨?_, ?_⟩ hbuilt
    · intro tree htree
      cases htree
    · intro found hfound
      cases hfound
  have hshaped := holds_takeThrough "structure passes" shape (holds_settleOrder hraw)
  dsimp only at h
  split at h
  · obtain ⟨names, -, rfl⟩ := map_eq_ok.1 h
    exact holds_audited fold alter haudit (holds_note lookup.2 hshaped)
  · cases h
    exact holds_audited fold alter haudit hshaped

/-- What the stages lead to, one after the other, holds of every tree of a run. -/
theorem holds_run {lookup : Lookup} {skipLookup : Bool} {units : List UnitRecord}
    {trees : List EventTree} {report : Report} {journal : Journal}
    (raw : ∀ tree, Raw settings tuning tree → P tree)
    (shape : Stage.Leads P (Stage.shape settings) S)
    (fold : Stage.Leads S (Stage.fold settings tuning) F)
    (alter : Stage.Leads F (Stage.onlyIf settings.passes.applyAlterations
      (Stage.alter alterations)) A)
    (haudit : ∀ tree, A tree → ∀ found ∈ tree.dangling, L found)
    (finish : ∀ names, Stage.Leads A (Stage.finish settings names) D)
    (h : run engine settings tuning alterations lookup skipLookup units =
      (.ok (trees, report), journal)) :
    (∀ tree ∈ trees, D tree) ∧ ∀ found ∈ report.dangling, L found := by
  have hrun := run_eq engine settings tuning alterations lookup skipLookup units
  rw [h] at hrun
  obtain ⟨⟨ready, names⟩, hready, hdone⟩ := map_eq_ok.1 hrun.symm
  cases hdone
  have hprepared := holds_prepare raw shape fold alter haudit hready
  have hconcluded := holds_takeThrough "cleanup passes" (finish names) hprepared
  exact ⟨hconcluded.trees, hconcluded.dangling⟩

/-! ### A small run -/

/-- An engine that opens every text as the same story: one choice leads on, one leads back. -/
def crossing : Engine := fun _ => some {
  passages := [
    ("start", {
      lines := [some "A ferryman waits."]
      choices := [⟨"Cross", "shore", false⟩, ⟨"Linger", "start", false⟩] }),
    ("shore", { lines := [some "You reach the other shore."] })] }

def crossingUnit : UnitRecord := { name := "Crossing", text := some "\x7b\x7d" }

/-- All passes but the one that puts in ranges, with the hubs of the story kept. -/
def quietSettings : Settings where
  passes := { revealRolls := false }
  hubsKept := ["Crossing"]

theorem run_crossing :
    ∃ trees report, (run crossing quietSettings {} [] (.ok [], []) true [crossingUnit]).1 =
      .ok (trees, report) ∧ ∃ tree ∈ trees, tree.name = "Crossing" := by
  have hnames : (run crossing quietSettings {} [] (.ok [], []) true [crossingUnit]).1.toOption.map
      (fun done => done.1.map EventTree.name) = some ["Crossing"] := by
    decide +kernel
  obtain ⟨⟨trees, report⟩, hrun, htrees⟩ := exists_ok_of_map_toOption hnames
  have hmem : "Crossing" ∈ trees.map EventTree.name := by simp [htrees]
  exact ⟨trees, report, hrun, List.mem_map.1 hmem⟩

end StoryAtlas.Run
