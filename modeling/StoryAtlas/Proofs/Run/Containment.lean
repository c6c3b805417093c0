import StoryAtlas.Proofs.Names.Fetch
import StoryAtlas.Proofs.Run.Isolation

/-!
# What halts a run, and what costs it one unit

A run goes on whatever happens to a unit, with two exceptions. A text that is no compiled story
halts it with the failure of that unit, and a lookup that fails halts it with the failure of a
catalogue. Between the parts of a run that contain what goes wrong there are two more places where
something can: the analysis of a story, when a bound of a roll is not finite, and the listing of
names, when an answer is not what a catalogue looks like. A fault there halts the run as well, and
nothing else does.

What becomes of a unit in a run that is not halted is a function of this unit, and of what the run
was started with. So a failure costs the run the unit it happened in, and no other.
-/

namespace StoryAtlas

/-- The story of a unit, if its text is one, rolls between finite bounds. -/
def UnitRecord.Bounded (unit : UnitRecord) : Prop :=
  ∀ text, present unit.text = some text → ∀ fields, Json.parse text = .ok (.obj fields) →
    ∀ roll ∈ Bytecode.occurrences Bytecode.readRoll (.obj fields), Bytecode.Bounded roll

theorem Bytecode.load_cases (unit text : String) :
    (∃ fields, Json.parse text = .ok (.obj fields) ∧ load unit text = .ok (.obj fields)) ∨
    ((∀ fields, Json.parse text ≠ .ok (.obj fields)) ∧
      ∃ reason, load unit text = .error (.failure ⟨.bytecode unit, reason⟩)) := by
  unfold load
  cases Json.parse text with
  | ok value =>
      cases value with
      | obj fields => exact .inl ⟨fields, rfl, rfl⟩
      | _ => exact .inr ⟨nofun, _, rfl⟩
  | error error => cases error <;> exact .inr ⟨nofun, _, rfl⟩

namespace Run

variable {engine : Engine} {settings : Settings} {tuning : Tuning}
  {alterations : Register String (List Alteration)} {units : List UnitRecord}
  {state last : State}

/-! ### What building a unit comes to -/

/-- What building a unit comes to, if it has a text. -/
def builtOf (engine : Engine) (settings : Settings) (tuning : Tuning) (unit : UnitRecord) :
    Option Built :=
  (present unit.text).map fun text => (buildUnit engine settings tuning unit text).1

def haltOf (engine : Engine) (settings : Settings) (tuning : Tuning) (unit : UnitRecord) :
    Option Halt :=
  match builtOf engine settings tuning unit with
  | some (.halted halt) => some halt
  | _ => none

def builtTree (engine : Engine) (settings : Settings) (tuning : Tuning) (unit : UnitRecord) :
    Option EventTree :=
  match builtOf engine settings tuning unit with
  | some (.tree tree _) => some tree
  | _ => none

theorem explore_ne_halted (unit : UnitRecord) (text : String) (bytecode : Bytecode) (halt : Halt) :
    (explore engine settings tuning unit text bytecode).1 ≠ .halted halt := by
  unfold explore
  dsimp only
  split
  · exact nofun
  · generalize Explore.run _ = explored
    obtain ⟨_ | _ | root, world⟩ := explored <;> exact nofun

/-- Building a unit halts the run with the failure of its text, or with a fault if one of its rolls
is not bounded. -/
theorem haltOf_cases (engine : Engine) (settings : Settings) (tuning : Tuning) (unit : UnitRecord) :
    (haltOf engine settings tuning unit = none ∧ unit.Bounded) ∨
    (∃ reason, haltOf engine settings tuning unit =
      some (.failure ⟨.bytecode unit.displayName, reason⟩)) ∨
    ∃ fault, haltOf engine settings tuning unit = some (.fault fault) ∧ ¬ unit.Bounded := by
  unfold haltOf builtOf
  cases htext : present unit.text with
  | none =>
      refine .inl ⟨rfl, fun text hpresent => ?_⟩
      rw [htext] at hpresent
      cases hpresent
  | some text =>
      rw [Option.map_some]
      unfold buildUnit
      rcases Bytecode.load_cases unit.displayName text with
        ⟨fields, hparse, hload⟩ | ⟨-, reason, hload⟩
      · have hbounded : unit.Bounded ↔ ∃ found, Bytecode.analyse (.obj fields) = .ok found := by
          unfold UnitRecord.Bounded
          rw [Bytecode.exists_analyse_iff, htext]
          simp only [Option.some.injEq, forall_eq', hparse, Except.ok.injEq, Json.obj.injEq]
        rw [hbounded]
        simp only [hload]
        cases Bytecode.analyse (.obj fields) with
        | error fault => exact .inr (.inr ⟨fault, rfl, nofun⟩)
        | ok bytecode =>
            refine .inl ⟨?_, bytecode, rfl⟩
            dsimp only
            split
            · next halt hhalted =>
              exact absurd (Option.some.inj hhalted) (explore_ne_halted unit text bytecode halt)
            · rfl
      · simp only [hload]
        exact .inr (.inl ⟨reason, rfl⟩)

theorem cases_of_findSome?_haltOf {halt : Halt}
    (h : units.findSome? (haltOf engine settings tuning) = some halt) :
    (∃ unit ∈ units, ∃ reason, halt = .failure ⟨.bytecode unit.displayName, reason⟩) ∨
    ∃ fault, halt = .fault fault ∧ ∃ unit ∈ units, ¬ unit.Bounded := by
  obtain ⟨unit, hunit, hof⟩ := List.exists_of_findSome?_eq_some h
  rcases haltOf_cases engine settings tuning unit with
    ⟨hnone, -⟩ | ⟨reason, hfailure⟩ | ⟨fault, hfault, hbounded⟩
  · cases hnone.symm.trans hof
  · cases hfailure.symm.trans hof
    exact .inl ⟨unit, hunit, reason, rfl⟩
  · cases hfault.symm.trans hof
    exact .inr ⟨fault, rfl, unit, hunit, hbounded⟩

theorem bounded_of_findSome?_haltOf
    (h : units.findSome? (haltOf engine settings tuning) = none) :
    ∀ unit ∈ units, unit.Bounded := by
  intro unit hunit
  have hof := List.findSome?_eq_none_iff.1 h unit hunit
  rcases haltOf_cases engine settings tuning unit with
    ⟨-, hbounded⟩ | ⟨reason, hfailure⟩ | ⟨fault, hfault, -⟩
  · exact hbounded
  · cases hfailure.symm.trans hof
  · cases hfault.symm.trans hof

/-! ### Following units through a run -/

/-- The name of a unit with a text that has come to nothing. -/
def lost (fate : UnitRecord → Option EventTree) (unit : UnitRecord) : Option String :=
  if (present unit.text).isSome ∧ (fate unit).isNone then some unit.displayName else none

/-- The trees of a state are what some units have come to, and those that have come to nothing are
listed as failed. -/
structure Follows (units : List UnitRecord) (fate : UnitRecord → Option EventTree)
    (state : State) : Prop where
  trees : ∀ name, SortsBy.keyed EventTree.name name state.trees =
    SortsBy.keyed EventTree.name name (units.filterMap fate)
  failed : state.report.failed.Perm (units.filterMap (lost fate))
  /-- Only what has a text comes to anything, and it goes by the name of the unit. -/
  named : ∀ unit tree, fate unit = some tree →
    (present unit.text).isSome ∧ tree.name = unit.displayName

variable {fate : UnitRecord → Option EventTree}

theorem Follows.perm (h : Follows units fate state) :
    state.trees.Perm (units.filterMap fate) := by
  have hsorted := List.mergeSort_perm state.trees notAfter
  rw [sortsBy_name.mergeSort_congr h.trees] at hsorted
  exact hsorted.symm.trans (List.mergeSort_perm _ _)

theorem Follows.of_eq (h : Follows units fate state) (htrees : last.trees = state.trees)
    (hfailed : last.report.failed = state.report.failed) : Follows units fate last :=
  ⟨fun name => by rw [htrees, h.trees], by rw [hfailed]; exact h.failed, h.named⟩

theorem Follows.settleOrder (h : Follows units fate state) :
    Follows units fate (settleOrder state) where
  trees name := (sortsBy_name.keyed_mergeSort name state.trees).trans (h.trees name)
  failed := h.failed
  named := h.named

/-- What a unit comes to in a stage, if it has come to something before. -/
def onward (stage : Stage) (fate : UnitRecord → Option EventTree) (unit : UnitRecord) :
    Option EventTree :=
  (fate unit).bind (after? stage)

/-- The units that are lost by the end of a stage are those that were, and those dropped by it. -/
theorem lost_onward (stage : Stage) (units : List UnitRecord)
    (named : ∀ unit tree, fate unit = some tree →
      (present unit.text).isSome ∧ tree.name = unit.displayName) :
    (units.filterMap (lost fate) ++ (units.filterMap fate).filterMap (dropped? stage)).Perm
      (units.filterMap (lost (onward stage fate))) := by
  induction units with
  | nil => exact .refl _
  | cons unit units ih =>
      cases hfate : fate unit with
      | none =>
          have hlost : lost (onward stage fate) unit = lost fate unit := by
            simp [lost, onward, hfate]
          rw [List.filterMap_cons_none hfate, List.filterMap_cons, List.filterMap_cons, hlost]
          cases lost fate unit with
          | none => exact ih
          | some name => exact ih.cons name
      | some tree =>
          obtain ⟨htext, hname⟩ := named unit tree hfate
          have hkept : lost fate unit = none := by simp [lost, hfate]
          have hlost : lost (onward stage fate) unit = dropped? stage tree := by
            unfold lost onward dropped? failedName
            rw [hfate, Option.bind_some, after?]
            cases (stage tree).tree with
            | ok after => simp [Except.toOption]
            | error fault => simp [Except.toOption, htext, hname]
          rw [List.filterMap_cons_none hkept, List.filterMap_cons_some hfate, List.filterMap_cons,
            List.filterMap_cons, hlost]
          cases dropped? stage tree with
          | none => exact ih
          | some name => exact List.perm_middle.trans (ih.cons name)

theorem Follows.takeThrough (title : String) {stage : Stage} (hstage : stage.KeepsName)
    (h : Follows units fate state) :
    Follows units (onward stage fate) (takeThrough title stage state) where
  trees name := by
    have hfates : units.filterMap (onward stage fate) =
        (units.filterMap fate).filterMap (after? stage) := List.filterMap_filterMap.symm
    rw [trees_takeThrough, hfates, SortsBy.keyed_filterMap (name_after? hstage), h.trees,
      SortsBy.keyed_filterMap (name_after? hstage)]
  failed := by
    rw [failed_takeThrough]
    have hdropped := h.perm.filterMap (dropped? stage)
    exact (h.failed.append hdropped).trans (lost_onward stage units h.named)
  named unit after hafter := by
    obtain ⟨tree, hfate, hstep⟩ := Option.bind_eq_some_iff.1 hafter
    obtain ⟨htext, hname⟩ := h.named unit tree hfate
    exact ⟨htext, (name_after? hstage tree after hstep).trans hname⟩

theorem onward_idle (fate : UnitRecord → Option EventTree) : onward Stage.idle fate = fate := by
  funext unit
  rw [onward]
  cases fate unit <;> rfl

theorem Follows.takeThrough_onlyIf (title : String) {stage : Stage} (condition : Bool)
    (hstage : stage.KeepsName) (h : Follows units fate state) :
    Follows units (onward (Stage.onlyIf condition stage) fate)
      (if condition then Run.takeThrough title stage state else state) := by
  cases condition with
  | true => exact h.takeThrough title hstage
  | false =>
      rw [Stage.onlyIf, if_neg Bool.false_ne_true, if_neg Bool.false_ne_true, onward_idle]
      exact h

/-- Building units one after the other halts with the first that halts, and otherwise puts what each
of them comes to after what was there. -/
theorem buildFrom_spec (engine : Engine) (settings : Settings) (tuning : Tuning)
    (count position : Nat) (units : List UnitRecord) (state : State) :
    (buildFrom engine settings tuning count position units state).2 =
      units.findSome? (haltOf engine settings tuning) ∧
    (units.findSome? (haltOf engine settings tuning) = none →
      (buildFrom engine settings tuning count position units state).1.trees =
        state.trees ++ units.filterMap (builtTree engine settings tuning) ∧
      (buildFrom engine settings tuning count position units state).1.report.failed =
        state.report.failed ++ units.filterMap (lost (builtTree engine settings tuning))) := by
  induction units generalizing position state with
  | nil => exact ⟨rfl, fun _ => ⟨(List.append_nil _).symm, (List.append_nil _).symm⟩⟩
  | cons unit units ih =>
      rw [buildFrom, List.findSome?_cons, List.filterMap_cons, List.filterMap_cons]
      cases htext : present unit.text with
      | none =>
          have hbuilt : builtOf engine settings tuning unit = none := by rw [builtOf, htext]; rfl
          have hhalt : haltOf engine settings tuning unit = none := by rw [haltOf, hbuilt]
          have htree : builtTree engine settings tuning unit = none := by rw [builtTree, hbuilt]
          have hlost : lost (builtTree engine settings tuning) unit = none := by simp [lost, htext]
          rw [hhalt, htree, hlost]
          exact ih (position + 1) state.skipEmpty
      | some text =>
          have hbuilt : builtOf engine settings tuning unit =
              some (buildUnit engine settings tuning unit text).1 := by rw [builtOf, htext]; rfl
          dsimp only
          generalize buildUnit engine settings tuning unit text = built at hbuilt
          obtain ⟨made, journal⟩ := built
          cases made with
          | halted halt =>
              have hhalt : haltOf engine settings tuning unit = some halt := by rw [haltOf, hbuilt]
              rw [hhalt]
              exact ⟨rfl, fun hnone => absurd hnone (Option.some_ne_none halt)⟩
          | failed =>
              have hhalt : haltOf engine settings tuning unit = none := by rw [haltOf, hbuilt]
              have htree : builtTree engine settings tuning unit = none := by rw [builtTree, hbuilt]
              have hlost :
                  lost (builtTree engine settings tuning) unit = some unit.displayName := by
                simp [lost, htext, htree]
              have hrest := ih (position + 1)
                ((state.note (reportStart position count unit ++ journal)).fail unit.displayName)
              rw [State.fail, State.update, List.append_assoc] at hrest
              rw [hhalt, htree, hlost]
              exact hrest
          | tree tree truncated =>
              have hhalt : haltOf engine settings tuning unit = none := by rw [haltOf, hbuilt]
              have htree : builtTree engine settings tuning unit = some tree := by
                rw [builtTree, hbuilt]
              have hlost : lost (builtTree engine settings tuning) unit = none := by
                simp [lost, htree]
              have hrest := ih (position + 1)
                ((state.note (reportStart position count unit ++ journal)).keep tree truncated)
              rw [State.keep, List.append_assoc] at hrest
              rw [hhalt, htree, hlost]
              exact hrest

theorem name_of_settleTree {unit : UnitRecord} {tree : EventTree} {truncated : Bool}
    {explored : Except Fault (Option Node) × Explore.World}
    (h : (settleTree unit explored).1 = .tree tree truncated) : tree.name = unit.displayName := by
  obtain ⟨fault | _ | root, world⟩ := explored
  · cases h
  · cases h
  · cases h
    rfl

theorem named_builtTree (unit : UnitRecord) (tree : EventTree)
    (h : builtTree engine settings tuning unit = some tree) :
    (present unit.text).isSome ∧ tree.name = unit.displayName := by
  unfold builtTree builtOf at h
  cases htext : present unit.text with
  | none => simp [htext] at h
  | some text =>
      refine ⟨rfl, ?_⟩
      rw [htext, Option.map_some] at h
      split at h
      · next made truncated hbuilt =>
        cases h
        have hmade := Option.some.inj hbuilt
        unfold buildUnit at hmade
        dsimp only at hmade
        split at hmade
        · cases hmade
        split at hmade
        · cases hmade
        unfold explore at hmade
        dsimp only at hmade
        split at hmade
        · cases hmade
        · exact name_of_settleTree hmade
      · cases h

theorem follows_buildFrom (count : Nat)
    (h : units.findSome? (haltOf engine settings tuning) = none) :
    Follows units (builtTree engine settings tuning)
      (buildFrom engine settings tuning count 1 units {}).1 := by
  obtain ⟨-, hrest⟩ := buildFrom_spec engine settings tuning count 1 units {}
  obtain ⟨htrees, hfailed⟩ := hrest h
  refine ⟨fun name => ?_, ?_, named_builtTree⟩
  · rw [htrees]
    rfl
  · rw [hfailed]
    exact .refl _

/-! ### The run -/

/-- What a unit comes to by the end of a run. -/
def finalTree (engine : Engine) (settings : Settings) (tuning : Tuning)
    (alterations : Register String (List Alteration)) (names : NameTable) :
    UnitRecord → Option EventTree :=
  onward (Stage.finish settings names)
    (onward (Stage.onlyIf settings.passes.applyAlterations (Stage.alter alterations))
      (onward (Stage.fold settings tuning)
        (onward (Stage.shape settings) (builtTree engine settings tuning))))

theorem follows_process (lookup : Lookup) (skipLookup : Bool) (names : NameTable)
    (h : Follows units (builtTree engine settings tuning) state) :
    Follows units (finalTree engine settings tuning alterations names)
      (process settings tuning alterations lookup skipLookup names state) := by
  have hshaped := h.settleOrder.takeThrough "structure passes" (Stage.keepsName_shape settings)
  unfold process
  dsimp only
  generalize hready : (if wantsNames settings skipLookup then _ else _ : State) = ready
  have hnoted : Follows units (onward (Stage.shape settings) (builtTree engine settings tuning))
      ready := by
    rw [← hready]
    split
    · exact hshaped.of_eq rfl rfl
    · exact hshaped
  have hfolded := hnoted.takeThrough "optimization passes" (Stage.keepsName_fold settings tuning)
  have haltered := hfolded.takeThrough_onlyIf "alterations" settings.passes.applyAlterations
    (Stage.keepsName_alter alterations)
  unfold finishFrom
  dsimp only
  generalize haudit : (if settings.passes.checkRefs then _ else _ : State) = audited
  have haudited : Follows units _ audited :=
    haltered.of_eq (by rw [← haudit]; split <;> rfl) (by rw [← haudit]; split <;> rfl)
  have hfinished := haudited.takeThrough "cleanup passes" (Stage.keepsName_finish settings names)
  exact hfinished.of_eq rfl rfl

def fetchedRun (engine : Engine) (settings : Settings) (tuning : Tuning)
    (alterations : Register String (List Alteration)) (reply : String → Reply) (skipLookup : Bool)
    (units : List UnitRecord) : Except Halt (List EventTree × Report) :=
  (run engine settings tuning alterations
    (Lookup.fetch reply settings.cardsUrl settings.talentsUrl) skipLookup units).1

theorem fetchedRun_eq (reply : String → Reply) (skipLookup : Bool) (units : List UnitRecord) :
    fetchedRun engine settings tuning alterations reply skipLookup units =
      match units.findSome? (haltOf engine settings tuning) with
      | some halt => .error halt
      | none =>
        let lookup := Lookup.fetch reply settings.cardsUrl settings.talentsUrl
        let built := (buildFrom engine settings tuning units.length 1 units {}).1
        (lookedUp settings lookup skipLookup).map fun names =>
          let state := process settings tuning alterations lookup skipLookup names built
          (state.trees, state.report) := by
  obtain ⟨hhalt, -⟩ := buildFrom_spec engine settings tuning units.length 1 units {}
  rw [fetchedRun, run_eq_process, ← hhalt]
  obtain ⟨state, halted | halt⟩ := buildFrom engine settings tuning units.length 1 units {} <;> rfl

/-- If a run needs names, the answers for both catalogues are manageable. -/
def Answered (settings : Settings) (reply : String → Reply) (skipLookup : Bool) : Prop :=
  wantsNames settings skipLookup = true →
    (reply settings.cardsUrl).Manageable ∧ (reply settings.talentsUrl).Manageable

theorem lookedUp_cases (settings : Settings) (reply : String → Reply) (skipLookup : Bool) :
    let found := lookedUp settings
      (Lookup.fetch reply settings.cardsUrl settings.talentsUrl) skipLookup
    (∃ names, found = .ok names ∧ Answered settings reply skipLookup) ∨
    (∃ url reason, (url = settings.cardsUrl ∨ url = settings.talentsUrl) ∧
      found = .error (.failure ⟨.lookup url, reason⟩)) ∨
    ∃ fault, found = .error (.fault fault) ∧ ¬ Answered settings reply skipLookup := by
  unfold lookedUp Answered
  cases wantsNames settings skipLookup with
  | false => exact .inl ⟨[], rfl, nofun⟩
  | true =>
      simp only [if_true, true_implies]
      exact Lookup.fetch_cases reply settings.cardsUrl settings.talentsUrl

/-- A run returns, and each unit has come to what it comes to by itself; or it is halted by a text
that is no story or by a lookup that failed; or by a fault, for which it takes a roll that is not
bounded or an answer that cannot be managed. -/
theorem run_contained (engine : Engine) (settings : Settings) (tuning : Tuning)
    (alterations : Register String (List Alteration)) (reply : String → Reply) (skipLookup : Bool)
    (units : List UnitRecord) :
    let outcome := fetchedRun engine settings tuning alterations reply skipLookup units
    (∃ trees report names, outcome = .ok (trees, report) ∧
      (∀ unit ∈ units, unit.Bounded) ∧ Answered settings reply skipLookup ∧
      trees = (units.filterMap
        (finalTree engine settings tuning alterations names)).mergeSort notAfter ∧
      report.failed.Perm (units.filterMap
        (lost (finalTree engine settings tuning alterations names)))) ∨
    (∃ unit ∈ units, ∃ reason, outcome = .error (.failure ⟨.bytecode unit.displayName, reason⟩)) ∨
    (∃ url reason, (url = settings.cardsUrl ∨ url = settings.talentsUrl) ∧
      outcome = .error (.failure ⟨.lookup url, reason⟩)) ∨
    ∃ fault, outcome = .error (.fault fault) ∧
      ((∃ unit ∈ units, ¬ unit.Bounded) ∨ ¬ Answered settings reply skipLookup) := by
  intro outcome
  have houtcome : outcome = _ := fetchedRun_eq reply skipLookup units
  cases hfirst : units.findSome? (haltOf engine settings tuning) with
  | some halt =>
      rw [hfirst] at houtcome
      rcases cases_of_findSome?_haltOf hfirst with
        ⟨unit, hunit, reason, rfl⟩ | ⟨fault, rfl, hbounded⟩
      · exact .inr (.inl ⟨unit, hunit, reason, houtcome⟩)
      · exact .inr (.inr (.inr ⟨fault, houtcome, .inl hbounded⟩))
  | none =>
      rw [hfirst] at houtcome
      rcases lookedUp_cases settings reply skipLookup with
        ⟨names, hnames, hanswered⟩ | ⟨url, reason, hurl, hnames⟩ | ⟨fault, hnames, hanswered⟩
      · dsimp only at houtcome
        rw [hnames] at houtcome
        have hprocess : Follows units (finalTree engine settings tuning alterations names) _ :=
          follows_process (Lookup.fetch reply settings.cardsUrl settings.talentsUrl) skipLookup
            names (follows_buildFrom units.length hfirst)
        refine .inl ⟨_, _, names, houtcome, bounded_of_findSome?_haltOf hfirst, hanswered, ?_,
          hprocess.failed⟩
        rw [← sortsBy_name.mergeSort_congr hprocess.trees]
        exact (List.mergeSort_of_pairwise (inOrder_process ..)).symm
      · dsimp only at houtcome
        rw [hnames] at houtcome
        exact .inr (.inr (.inl ⟨url, reason, hurl, houtcome⟩))
      · dsimp only at houtcome
        rw [hnames] at houtcome
        exact .inr (.inr (.inr ⟨fault, houtcome, .inr hanswered⟩))

/-! ### A roll without bounds -/

def rollingText (line least most : String) : String :=
  "\x7b\"root\": [[\"ev\", " ++ least ++ ", " ++ most ++
    ", \"rnd\", \"/ev\", \x7b\"VAR=\": \"gold\"\x7d]], " ++
    "\"script\": \x7b\"start\": \x7b\"lines\": [\"" ++ line ++ "\"]\x7d\x7d\x7d"

def isHaltedByNaN (outcome : Except Halt (List EventTree × Report)) : Bool :=
  match outcome with
  | .error (.fault .wholeOfNaN) => true
  | _ => false

/-- The mill rolls from what is no number on, and this halts the run, although the well is as it
should be and no names are needed. -/
theorem mill_halts_run :
    fetchedRun Engine.scripted {} {} [] Reply.offline true
        [unitWith "Mill" (some (rollingText "A mill." "NaN" "6")),
          unitWith "Well" (some (rollingText "A well." "1" "6"))] =
      .error (.fault .wholeOfNaN) := by
  have hhalted : isHaltedByNaN (fetchedRun Engine.scripted {} {} [] Reply.offline true
      [unitWith "Mill" (some (rollingText "A mill." "NaN" "6")),
        unitWith "Well" (some (rollingText "A well." "1" "6"))]) = true := by decide +kernel
  unfold isHaltedByNaN at hhalted
  split at hhalted
  · next houtcome => exact houtcome
  · cases hhalted

end Run

end StoryAtlas
