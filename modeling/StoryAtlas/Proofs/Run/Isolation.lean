import StoryAtlas.Proofs.Run.Trees
import StoryAtlas.Proofs.Stable
import StoryAtlas.Proofs.Total

/-!
# Units do not disturb each other

A run over some units does what the runs over each of them alone do: its trees are theirs, in the
order of names, and what it counts are the sums of what they count. For the stages treat each tree
by itself, and what they add to the report does not depend on what is there.

To say this of every step, a state is pooled from others if for each name it has their trees, in
their order, and a report that is the sum of theirs. A step that is uniform keeps this, and a run is
made of uniform steps.
-/

namespace StoryAtlas

/-! ### Tallies -/

namespace Tally

def under (name : String) (counts : List (String × Nat)) : List Nat :=
  (counts.filter fun count => count.1 = name).map Prod.snd

theorem amount_add (name : String) (tally : Tally) (count : String × Nat) :
    (tally.add count).amount name =
      tally.amount name + total (under name [count]) := by
  unfold add amount
  rw [Register.get?_put]
  by_cases hname : count.1 = name
  · simp [under, hname]
  · simp [under, hname, Ne.symm hname]

theorem under_append (name : String) (first second : List (String × Nat)) :
    under name (first ++ second) = under name first ++ under name second := by
  rw [under, List.filter_append, List.map_append, under, under]

theorem total_under_flatMap {α : Type} (name : String) (parts : List α)
    (counts : α → List (String × Nat)) :
    total (under name (parts.flatMap counts)) =
      total (parts.map fun part => total (under name (counts part))) := by
  rw [under, List.filter_flatMap, List.map_flatMap, total_flatMap]
  rfl

theorem amount_addAll (name : String) (tally : Tally) (counts : List (String × Nat)) :
    (tally.addAll counts).amount name = tally.amount name + total (under name counts) := by
  unfold addAll
  induction counts generalizing tally with
  | nil => rfl
  | cons count counts ih =>
      have hsplit : under name (count :: counts) = under name [count] ++ under name counts :=
        under_append name [count] counts
      rw [List.foldl_cons, ih, amount_add, hsplit, total_append, Nat.add_assoc]

theorem mem_keys_addAll (name : String) (tally : Tally) (counts : List (String × Nat)) :
    name ∈ Register.keys (tally.addAll counts) ↔
      name ∈ Register.keys tally ∨ ∃ count ∈ counts, count.1 = name := by
  unfold addAll
  induction counts generalizing tally with
  | nil => simp
  | cons count counts ih =>
      rw [List.foldl_cons, ih, add, Register.keys_put]
      by_cases hname : count.1 = name
      · split <;> simp_all
      · split <;> simp [hname, Ne.symm hname]

end Tally

namespace Run

theorem sortsBy_name : SortsBy EventTree.name notAfter := by
  have after_iff : ∀ a b : EventTree, notAfter a b = true ↔ a.name ≤ b.name := by
    intro a b
    rw [notAfter, Bool.not_eq_true', decide_eq_false_iff_not, String.not_lt]
  constructor
  · intro a b c hab hbc
    rw [after_iff] at hab hbc ⊢
    exact String.le_trans hab hbc
  · intro a b
    rw [Bool.or_eq_true, after_iff, after_iff]
    exact String.le_total a.name b.name
  · intro a b hname
    exact (after_iff a b).2 (hname ▸ String.le_refl a.name)
  · intro a b hab hba
    rw [after_iff] at hab hba
    exact String.le_antisymm hab hba

/-! ### Pooled states -/

/-- A report that is the sum of those of some parts; the failed units stand in another order. -/
structure Report.SumOf {ι : Type} (report : Report) (parts : List ι) (view : ι → Report) :
    Prop where
  parsed : report.parsed = total (parts.map fun part => (view part).parsed)
  empty : report.empty = total (parts.map fun part => (view part).empty)
  failed : report.failed.Perm (parts.flatMap fun part => (view part).failed)
  nodesBuilt : report.nodesBuilt = total (parts.map fun part => (view part).nodesBuilt)
  nodesFinal : report.nodesFinal = total (parts.map fun part => (view part).nodesFinal)
  amounts : ∀ name, report.passCounts.amount name =
    total (parts.map fun part => (view part).passCounts.amount name)
  /-- What was counted is listed, even if it came to nothing. -/
  counted : ∀ name, name ∈ Register.keys report.passCounts ↔
    ∃ part ∈ parts, name ∈ Register.keys (view part).passCounts

theorem Report.SumOf.of_map {ι κ : Type} {report : Report} {parts : List ι} {change : ι → κ}
    {view : κ → Report} (h : report.SumOf parts fun part => view (change part)) :
    report.SumOf (parts.map change) view where
  parsed := by rw [List.map_map]; exact h.parsed
  empty := by rw [List.map_map]; exact h.empty
  failed := by rw [List.flatMap_map]; exact h.failed
  nodesBuilt := by rw [List.map_map]; exact h.nodesBuilt
  nodesFinal := by rw [List.map_map]; exact h.nodesFinal
  amounts name := by rw [List.map_map]; exact h.amounts name
  counted name := (h.counted name).trans (by simp)

theorem Report.SumOf.map {ι κ : Type} {report : Report} {parts : List ι} {change : ι → κ}
    {view : κ → Report} (h : report.SumOf (parts.map change) view) :
    report.SumOf parts fun part => view (change part) := by
  obtain ⟨parsed, empty, failed, nodesBuilt, nodesFinal, amounts, counted⟩ := h
  simp only [List.map_map, List.flatMap_map] at parsed empty failed nodesBuilt nodesFinal amounts
  exact ⟨parsed, empty, failed, nodesBuilt, nodesFinal, amounts,
    fun name => (counted name).trans (by simp)⟩

/-- A state with the trees of others, and the sum of their reports. -/
structure Pooled (state : State) (parts : List State) : Prop where
  trees : ∀ name, SortsBy.keyed EventTree.name name state.trees =
    SortsBy.keyed EventTree.name name (parts.flatMap State.trees)
  report : state.report.SumOf parts State.report

namespace Pooled

variable {state : State} {parts : List State}

theorem mergeSort_trees (h : Pooled state parts) :
    state.trees.mergeSort notAfter = (parts.flatMap State.trees).mergeSort notAfter :=
  sortsBy_name.mergeSort_congr h.trees

theorem perm (h : Pooled state parts) : state.trees.Perm (parts.flatMap State.trees) := by
  have hsorted := List.mergeSort_perm state.trees notAfter
  rw [h.mergeSort_trees] at hsorted
  exact hsorted.symm.trans (List.mergeSort_perm _ _)

theorem total_map (h : Pooled state parts) (count : EventTree → Nat) :
    total (state.trees.map count) =
      total (parts.map fun part => total (part.trees.map count)) := by
  rw [total_perm (h.perm.map count), List.map_flatMap, total_flatMap]

end Pooled

def State.handled (state : State) : Nat :=
  state.report.empty + state.report.failed.length + state.trees.length

def State.InOrder (state : State) : Prop :=
  state.trees.Pairwise fun a b => notAfter a b = true

/-- A step that does to a pooled state what it does to the states it is pooled from, loses no unit
and keeps the order. -/
structure Uniform (step : State → State) : Prop where
  pooled : ∀ state parts, Pooled state parts → Pooled (step state) (parts.map step)
  handled : ∀ state, (step state).handled = state.handled
  inOrder : ∀ state, state.InOrder → (step state).InOrder

namespace Uniform

variable {step next : State → State}

theorem comp (hnext : Uniform next) (h : Uniform step) :
    Uniform fun state => next (step state) where
  pooled state parts hpooled := by
    have hboth := hnext.pooled _ _ (h.pooled _ _ hpooled)
    rwa [List.map_map] at hboth
  handled state := (hnext.handled _).trans (h.handled state)
  inOrder state horder := hnext.inOrder _ (h.inOrder state horder)

theorem refl : Uniform fun state => state where
  pooled state parts hpooled := by rwa [List.map_id']
  handled _ := rfl
  inOrder _ horder := horder

theorem onlyIf (condition : Bool) (h : Uniform step) :
    Uniform fun state => if condition then step state else state := by
  cases condition with
  | true => exact h
  | false => exact refl

theorem of_report (htrees : ∀ state, (step state).trees = state.trees)
    (hempty : ∀ state, (step state).report.empty = state.report.empty)
    (hfailed : ∀ state, (step state).report.failed = state.report.failed)
    (hreport : ∀ state parts, Pooled state parts →
      (step state).report.SumOf parts fun part => (step part).report) : Uniform step where
  pooled state parts hpooled := by
    refine ⟨fun name => ?_, .of_map (hreport state parts hpooled)⟩
    simp only [List.flatMap_map, htrees]
    exact hpooled.trees name
  handled state := by rw [State.handled, htrees, hempty, hfailed, State.handled]
  inOrder state horder := by rwa [State.InOrder, htrees]

end Uniform

/-! ### The steps of a run -/

theorem uniform_note (entries : Journal) : Uniform (State.note entries) :=
  .of_report (fun _ => rfl) (fun _ => rfl) (fun _ => rfl) fun _ _ h => h.report

theorem uniform_audit : Uniform audit :=
  .of_report (fun _ => rfl) (fun _ => rfl) (fun _ => rfl) fun _ _ h =>
    ⟨h.report.parsed, h.report.empty, h.report.failed, h.report.nodesBuilt, h.report.nodesFinal,
      h.report.amounts, h.report.counted⟩

theorem uniform_settleReport : Uniform settleReport :=
  .of_report (fun _ => rfl) (fun _ => rfl) (fun _ => rfl) fun _ _ h =>
    ⟨h.report.parsed, h.report.empty, h.report.failed, h.report.nodesBuilt,
      h.total_map EventTree.size, h.report.amounts, h.report.counted⟩

theorem inOrder_settleOrder (state : State) : (settleOrder state).InOrder :=
  List.pairwise_mergeSort sortsBy_name.trans sortsBy_name.total state.trees

theorem uniform_settleOrder : Uniform settleOrder where
  pooled state parts h := by
    refine ⟨fun name => ?_, .of_map ⟨h.report.parsed, h.report.empty, h.report.failed,
      h.total_map EventTree.size, h.report.nodesFinal, h.report.amounts, h.report.counted⟩⟩
    have hparts : ∀ part : State, SortsBy.keyed EventTree.name name (settleOrder part).trees =
        SortsBy.keyed EventTree.name name part.trees :=
      fun part => sortsBy_name.keyed_mergeSort name part.trees
    rw [hparts, h.trees, List.flatMap_map, SortsBy.keyed_flatMap, SortsBy.keyed_flatMap]
    exact (List.flatMap_congr fun part _ => hparts part).symm
  handled state := by
    have hlength : (settleOrder state).trees.length = state.trees.length :=
      (List.mergeSort_perm state.trees notAfter).length_eq
    rw [State.handled, hlength]
    rfl
  inOrder state _ := inOrder_settleOrder state

variable {stage : Stage}

def after? (stage : Stage) (tree : EventTree) : Option EventTree := (stage tree).tree.toOption

theorem name_after? (hstage : stage.KeepsName) (tree after : EventTree)
    (h : after? stage tree = some after) : after.name = tree.name := by
  apply hstage
  unfold after? at h
  cases hafter : (stage tree).tree with
  | error fault =>
      rw [hafter] at h
      cases h
  | ok made =>
      rw [hafter] at h
      rw [Option.some.inj h]

theorem trees_takeThrough (title : String) (stage : Stage) (state : State) :
    (takeThrough title stage state).trees = state.trees.filterMap (after? stage) := by
  simp only [takeThrough, List.filterMap_map]
  rfl

def dropped? (stage : Stage) (tree : EventTree) : Option String := failedName (tree, stage tree)

theorem failed_takeThrough (title : String) (stage : Stage) (state : State) :
    (takeThrough title stage state).report.failed =
      state.report.failed ++ state.trees.filterMap (dropped? stage) := by
  simp only [takeThrough, List.filterMap_map]
  rfl

theorem passCounts_takeThrough (title : String) (stage : Stage) (state : State) :
    (takeThrough title stage state).report.passCounts =
      state.report.passCounts.addAll (state.trees.flatMap fun tree => (stage tree).counts) := by
  simp only [takeThrough, List.flatMap_map]

theorem amount_takeThrough (title : String) (stage : Stage) (state : State) (name : String) :
    (takeThrough title stage state).report.passCounts.amount name =
      state.report.passCounts.amount name +
        total (state.trees.map fun tree => total (Tally.under name (stage tree).counts)) := by
  rw [passCounts_takeThrough, Tally.amount_addAll, Tally.total_under_flatMap]

theorem mem_keys_takeThrough (title : String) (stage : Stage) (state : State) (name : String) :
    name ∈ Register.keys (takeThrough title stage state).report.passCounts ↔
      name ∈ Register.keys state.report.passCounts ∨
        ∃ tree ∈ state.trees, ∃ count ∈ (stage tree).counts, count.1 = name := by
  rw [passCounts_takeThrough, Tally.mem_keys_addAll]
  simp only [List.mem_flatMap]
  refine or_congr_right ⟨?_, ?_⟩
  · rintro ⟨count, ⟨tree, htree, hcount⟩, hname⟩
    exact ⟨tree, htree, count, hcount, hname⟩
  · rintro ⟨tree, htree, count, hcount, hname⟩
    exact ⟨count, ⟨tree, htree, hcount⟩, hname⟩

theorem length_filterMap_add (stage : Stage) (trees : List EventTree) :
    (trees.filterMap (dropped? stage)).length + (trees.filterMap (after? stage)).length =
      trees.length := by
  induction trees with
  | nil => rfl
  | cons tree trees ih =>
      rw [List.filterMap_cons, List.filterMap_cons, dropped?, failedName, after?]
      dsimp only
      cases (stage tree).tree with
      | error fault =>
          simp only [Except.toOption, List.length_cons]
          omega
      | ok after =>
          simp only [Except.toOption, List.length_cons]
          omega

/-- A stage hands on each tree, or reports that it was dropped. -/
theorem handled_takeThrough (title : String) (stage : Stage) (state : State) :
    (takeThrough title stage state).handled = state.handled := by
  have hempty : (takeThrough title stage state).report.empty = state.report.empty := rfl
  have hlength := length_filterMap_add stage state.trees
  unfold State.handled
  rw [hempty, failed_takeThrough, trees_takeThrough, List.length_append]
  omega

theorem pooled_takeThrough (title : String) (hstage : stage.KeepsName) {state : State}
    {parts : List State} (h : Pooled state parts) :
    Pooled (takeThrough title stage state) (parts.map (takeThrough title stage)) := by
  refine ⟨fun name => ?_, .of_map ⟨h.report.parsed, h.report.empty, ?_, h.report.nodesBuilt,
    h.report.nodesFinal, fun name => ?_, fun name => ?_⟩⟩
  · simp only [List.flatMap_map, trees_takeThrough]
    rw [← List.filterMap_flatMap, SortsBy.keyed_filterMap (name_after? hstage), h.trees,
      SortsBy.keyed_filterMap (name_after? hstage)]
  · -- a stage adds its failures at the end of the list, for the parts at the end of theirs
    simp only [failed_takeThrough]
    have hdropped := h.perm.filterMap (dropped? stage)
    rw [List.filterMap_flatMap] at hdropped
    exact (h.report.failed.append hdropped).trans (List.flatMap_append_perm parts _ _)
  · simp only [amount_takeThrough]
    rw [total_map_add, h.report.amounts, h.total_map]
  · simp only [mem_keys_takeThrough, h.report.counted, h.perm.mem_iff, List.mem_flatMap]
    constructor
    · rintro (⟨part, hpart, hname⟩ | ⟨tree, ⟨part, hpart, htree⟩, hcount⟩)
      · exact ⟨part, hpart, .inl hname⟩
      · exact ⟨part, hpart, .inr ⟨tree, htree, hcount⟩⟩
    · rintro ⟨part, hpart, hname | ⟨tree, htree, hcount⟩⟩
      · exact .inl ⟨part, hpart, hname⟩
      · exact .inr ⟨tree, ⟨part, hpart, htree⟩, hcount⟩

theorem uniform_takeThrough (title : String) (hstage : stage.KeepsName) :
    Uniform (takeThrough title stage) where
  pooled _ _ h := pooled_takeThrough title hstage h
  handled := handled_takeThrough title stage
  inOrder state horder := by
    unfold State.InOrder
    rw [trees_takeThrough]
    exact sortsBy_name.pairwise_filterMap (name_after? hstage) horder

theorem uniform_finishFrom (settings : Settings) (tuning : Tuning)
    (alterations : Register String (List Alteration)) (names : NameTable) :
    Uniform (finishFrom settings tuning alterations names) := by
  have hfold := uniform_takeThrough "optimization passes" (Stage.keepsName_fold settings tuning)
  have halter := uniform_takeThrough "alterations" (Stage.keepsName_alter alterations)
  have hfinish := uniform_takeThrough "cleanup passes" (Stage.keepsName_finish settings names)
  have haltered := (halter.onlyIf settings.passes.applyAlterations).comp hfold
  have haudited := (uniform_audit.onlyIf settings.passes.checkRefs).comp haltered
  exact uniform_settleReport.comp (hfinish.comp haudited)

/-! ### Building -/

variable {engine : Engine} {settings : Settings} {tuning : Tuning}
  {alterations : Register String (List Alteration)} {lookup : Lookup} {skipLookup : Bool}
  {units : List UnitRecord} {state next last part : State} {parts : List State}

/-- The next state is a state with another one put to it, before any stage. -/
structure Joined (state part next : State) : Prop where
  trees : next.trees = state.trees ++ part.trees
  parsed : next.report.parsed = state.report.parsed + part.report.parsed
  empty : next.report.empty = state.report.empty + part.report.empty
  failed : next.report.failed = state.report.failed ++ part.report.failed
  nodesBuilt : next.report.nodesBuilt = state.report.nodesBuilt + part.report.nodesBuilt
  nodesFinal : next.report.nodesFinal = state.report.nodesFinal + part.report.nodesFinal
  passCounts : next.report.passCounts = state.report.passCounts
  uncounted : part.report.passCounts = []

theorem Joined.handled (h : Joined state part next) :
    next.handled = state.handled + part.handled := by
  unfold State.handled
  rw [h.trees, h.empty, h.failed, List.length_append, List.length_append]
  omega

theorem total_snoc {α : Type} (parts : List α) (part : α) (count : α → Nat) :
    total ((parts ++ [part]).map count) = total (parts.map count) + count part := by
  rw [List.map_append, total_append]
  rfl

theorem Pooled.snoc (h : Pooled state parts) (joined : Joined state part next) :
    Pooled next (parts ++ [part]) where
  trees name := by
    have hstate := h.trees name
    unfold SortsBy.keyed at hstate ⊢
    rw [joined.trees, List.filter_append, hstate, List.flatMap_append, List.filter_append,
      List.flatMap_singleton]
  report := {
    parsed := by rw [total_snoc, joined.parsed, h.report.parsed]
    empty := by rw [total_snoc, joined.empty, h.report.empty]
    failed := by
      rw [joined.failed, List.flatMap_append, List.flatMap_singleton]
      exact h.report.failed.append_right _
    nodesBuilt := by rw [total_snoc, joined.nodesBuilt, h.report.nodesBuilt]
    nodesFinal := by rw [total_snoc, joined.nodesFinal, h.report.nodesFinal]
    amounts := fun name => by
      rw [total_snoc, joined.passCounts, h.report.amounts, joined.uncounted]
      rfl
    counted := fun name => by
      have huncounted : name ∉ Register.keys part.report.passCounts := by
        rw [joined.uncounted]
        exact List.not_mem_nil
      rw [joined.passCounts, h.report.counted]
      simp [or_and_right, exists_or, huncounted] }

theorem pooled_nil : Pooled {} [] where
  trees _ := rfl
  report := ⟨rfl, rfl, .refl _, rfl, rfl, fun _ => rfl, fun _ => by simp [Register.keys]⟩

/-- Building one more unit puts to the state what building the unit alone makes. -/
theorem buildFrom_cons {count position : Nat} {unit : UnitRecord}
    (h : buildFrom engine settings tuning count position (unit :: units) state = (last, none)) :
    ∃ part next, buildFrom engine settings tuning 1 1 [unit] {} = (part, none) ∧
      Joined state part next ∧ part.handled = 1 ∧
      buildFrom engine settings tuning count (position + 1) units next = (last, none) := by
  rw [buildFrom] at h
  rw [buildFrom]
  split at h
  · refine ⟨_, _, rfl, ?_, rfl, h⟩
    exact ⟨(List.append_nil _).symm, rfl, rfl, (List.append_nil _).symm, rfl, rfl, rfl, rfl⟩
  next text _ =>
  dsimp only at h ⊢
  split at h
  · cases h
  · refine ⟨_, _, rfl, ?_, rfl, h⟩
    exact ⟨(List.append_nil _).symm, rfl, rfl, rfl, rfl, rfl, rfl, rfl⟩
  · refine ⟨_, _, rfl, ?_, rfl, h⟩
    exact ⟨rfl, rfl, rfl, (List.append_nil _).symm, rfl, rfl, rfl, rfl⟩

/-- Units that are built one after the other are built as each of them alone. -/
theorem pooled_buildFrom {count position : Nat} (hpooled : Pooled state parts)
    (h : buildFrom engine settings tuning count position units state = (last, none)) :
    ∃ more, List.Forall₂ (fun unit part =>
        buildFrom engine settings tuning 1 1 [unit] {} = (part, none)) units more ∧
      Pooled last (parts ++ more) ∧ last.handled = state.handled + units.length := by
  induction units generalizing position state parts with
  | nil =>
      cases h
      exact ⟨[], .nil, by rwa [List.append_nil], rfl⟩
  | cons unit units ih =>
      obtain ⟨part, next, hpart, hjoined, hone, hrest⟩ := buildFrom_cons h
      obtain ⟨more, hmore, hlast, hhandled⟩ := ih (hpooled.snoc hjoined) hrest
      refine ⟨part :: more, .cons hpart hmore, ?_, ?_⟩
      · rwa [List.append_assoc] at hlast
      · rw [hhandled, hjoined.handled, hone, List.length_cons]
        omega

/-! ### The whole run -/

def lookedUp (settings : Settings) (lookup : Lookup) (skipLookup : Bool) : Except Halt NameTable :=
  if wantsNames settings skipLookup then lookup.1 else .ok []

/-- All that a run does with what it built. -/
def process (settings : Settings) (tuning : Tuning)
    (alterations : Register String (List Alteration)) (lookup : Lookup) (skipLookup : Bool)
    (names : NameTable) (state : State) : State :=
  let shaped := takeThrough "structure passes" (Stage.shape settings) (settleOrder state)
  finishFrom settings tuning alterations names
    (if wantsNames settings skipLookup then shaped.note lookup.2 else shaped)

theorem run_eq_process (engine : Engine) (settings : Settings) (tuning : Tuning)
    (alterations : Register String (List Alteration)) (lookup : Lookup) (skipLookup : Bool)
    (units : List UnitRecord) :
    (run engine settings tuning alterations lookup skipLookup units).1 =
      match buildFrom engine settings tuning units.length 1 units {} with
      | (_, some halt) => .error halt
      | (state, none) => (lookedUp settings lookup skipLookup).map fun names =>
        ((process settings tuning alterations lookup skipLookup names state).trees,
          (process settings tuning alterations lookup skipLookup names state).report) := by
  unfold run lookedUp process
  generalize buildFrom engine settings tuning units.length 1 units {} = built
  obtain ⟨state, halted | halt⟩ := built
  · dsimp only
    split
    · cases lookup.1 <;> rfl
    · rfl
  · rfl

theorem uniform_process (settings : Settings) (tuning : Tuning)
    (alterations : Register String (List Alteration)) (lookup : Lookup) (skipLookup : Bool)
    (names : NameTable) :
    Uniform (process settings tuning alterations lookup skipLookup names) := by
  have hshape := uniform_takeThrough "structure passes" (Stage.keepsName_shape settings)
  have hnoted := (uniform_note lookup.2).onlyIf (wantsNames settings skipLookup)
  have hfinish := uniform_finishFrom settings tuning alterations names
  exact hfinish.comp (hnoted.comp (hshape.comp uniform_settleOrder))

theorem inOrder_process (settings : Settings) (tuning : Tuning)
    (alterations : Register String (List Alteration)) (lookup : Lookup) (skipLookup : Bool)
    (names : NameTable) (state : State) :
    (process settings tuning alterations lookup skipLookup names state).InOrder := by
  have hshape := uniform_takeThrough "structure passes" (Stage.keepsName_shape settings)
  have hnoted := (uniform_note lookup.2).onlyIf (wantsNames settings skipLookup)
  have hfinish := uniform_finishFrom settings tuning alterations names
  exact (hfinish.comp (hnoted.comp hshape)).inOrder _ (inOrder_settleOrder state)

/-- The trees of a run are those of the runs over each unit alone, in the order of names; the report
is the sum of theirs, and accounts for every unit. -/
theorem run_isolated {trees : List EventTree} {report : Report}
    (h : (run engine settings tuning alterations lookup skipLookup units).1 =
      .ok (trees, report)) :
    ∃ parts : List (List EventTree × Report),
      List.Forall₂ (fun unit part =>
        (run engine settings tuning alterations lookup skipLookup [unit]).1 = .ok part)
        units parts ∧
      trees = (parts.flatMap Prod.fst).mergeSort notAfter ∧
      report.SumOf parts Prod.snd ∧
      units.length = report.empty + report.failed.length + trees.length := by
  rw [run_eq_process] at h
  split at h
  · cases h
  next state hbuilt =>
  obtain ⟨names, hnames, hdone⟩ := map_eq_ok.1 h
  cases hdone
  obtain ⟨parts, hparts, hpooled, hhandled⟩ := pooled_buildFrom pooled_nil hbuilt
  have huniform := uniform_process settings tuning alterations lookup skipLookup names
  have horder := inOrder_process settings tuning alterations lookup skipLookup names state
  generalize hprocess : process settings tuning alterations lookup skipLookup names = finish at *
  rw [List.nil_append] at hpooled
  have hfinished := huniform.pooled _ _ hpooled
  refine ⟨parts.map fun part => ((finish part).trees, (finish part).report), ?_, ?_, ?_, ?_⟩
  · refine List.forall₂_map_right_iff.2 (hparts.imp fun unit part hpart => ?_)
    rw [run_eq_process, List.length_singleton, hpart]
    dsimp only
    rw [hnames, ← hprocess]
    rfl
  · have hsorted := hfinished.mergeSort_trees
    rw [List.mergeSort_of_pairwise horder, List.flatMap_map] at hsorted
    rw [List.flatMap_map]
    exact hsorted
  · exact .of_map hfinished.report.map
  · have hall := huniform.handled state
    rw [hhandled] at hall
    exact (hall.trans (Nat.zero_add _)).symm

/-! ### A run over several units -/

/-- An engine that opens one text only, as a story without choices. -/
def pickyEngine : Engine := fun text =>
  if text = "\x7b\x7d" then some { passages := [("start", { lines := [some "All is quiet."] })] }
  else none

def pickyRun (units : List UnitRecord) : Except Halt (List EventTree × Report) :=
  (run pickyEngine quietSettings {} [] (.ok [], []) true units).1

/-- The names of the trees, the units that failed, and the number of units without a text. -/
def outline (done : List EventTree × Report) : List String × List String × Nat :=
  (done.1.map EventTree.name, done.2.failed, done.2.empty)

def unitWith (name : String) (text : Option String) : UnitRecord := { name := name, text := text }

theorem exists_pickyRun (units : List UnitRecord)
    (h : (buildFrom pickyEngine quietSettings {} units.length 1 units {}).2.isNone) :
    ∃ trees report, pickyRun units = .ok (trees, report) := by
  unfold pickyRun
  rw [run_eq_process]
  generalize buildFrom pickyEngine quietSettings {} units.length 1 units {} = built at h ⊢
  obtain ⟨state, _ | halt⟩ := built
  · exact ⟨_, _, rfl⟩
  · cases h

theorem outline_of_pickyRun {unit : UnitRecord} {part : List EventTree × Report}
    (h : pickyRun [unit] = .ok part) (shown : List String × List String × Nat)
    (hshown : (pickyRun [unit]).toOption.map outline = some shown) : outline part = shown := by
  rw [h] at hshown
  exact Option.some.inj hshown

theorem names_mergeSort (trees : List EventTree) :
    (trees.mergeSort notAfter).map EventTree.name =
      (trees.map EventTree.name).mergeSort fun a b => !decide (b < a) :=
  List.map_mergeSort (r := notAfter) (f := EventTree.name) fun _ _ _ _ => rfl

/-- Two units with a story, one without a text, and one that cannot be opened. -/
theorem run_isolated_picky : ∃ trees report,
    pickyRun [unitWith "Mill" (some "\x7b\x7d"), unitWith "Blank" none,
        unitWith "Broken" (some "\x7b \x7d"), unitWith "Alley" (some "\x7b\x7d")] =
      .ok (trees, report) ∧
      outline (trees, report) = (["Alley", "Mill"], ["Broken"], 1) ∧
      4 = report.empty + report.failed.length + trees.length := by
  obtain ⟨trees, report, hrun⟩ :=
    exists_pickyRun [unitWith "Mill" (some "\x7b\x7d"), unitWith "Blank" none,
      unitWith "Broken" (some "\x7b \x7d"), unitWith "Alley" (some "\x7b\x7d")]
      (by decide +kernel)
  obtain ⟨parts, hparts, htrees, hreport, hall⟩ := run_isolated hrun
  refine ⟨trees, report, hrun, ?_, hall⟩
  obtain _ | ⟨hmill, _ | ⟨hblank, _ | ⟨hbroken, _ | ⟨halley, _ | _⟩⟩⟩⟩ := hparts
  have mill := outline_of_pickyRun hmill (["Mill"], [], 0) (by decide +kernel)
  have blank := outline_of_pickyRun hblank ([], [], 1) (by decide +kernel)
  have broken := outline_of_pickyRun hbroken ([], ["Broken"], 0) (by decide +kernel)
  have alley := outline_of_pickyRun halley (["Alley"], [], 0) (by decide +kernel)
  simp only [outline, Prod.mk.injEq] at mill blank broken alley ⊢
  refine ⟨?_, ?_, ?_⟩
  · rw [htrees, names_mergeSort, List.map_flatMap]
    simp only [List.flatMap_cons, List.flatMap_nil, mill, blank, broken, alley, List.append_nil,
      List.nil_append, List.singleton_append]
    exact mergeSort_pair (by decide)
  · have hfailed := hreport.failed
    simpa [mill, blank, broken, alley] using hfailed
  · have hempty := hreport.empty
    simpa [mill, blank, broken, alley] using hempty

end Run

end StoryAtlas
