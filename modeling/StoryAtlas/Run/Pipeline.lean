import StoryAtlas.Names.Fetch
import StoryAtlas.Run.Passes
import StoryAtlas.Run.Report
import StoryAtlas.Run.Unit
import StoryAtlas.Total

/-!
# A run

A run builds the tree of every unit, puts the trees in the order of their names, and takes them
through the stages. A unit that fails in a stage is reported and dropped, and the others go on. What
halts a run is a text that is no compiled story, a fault in its analysis, and a lookup of names that
fails; the journal keeps what was reported until then.
-/

namespace StoryAtlas.Run

/-- Where a run stands. -/
structure State where
  trees : List EventTree := []
  report : Report := {}
  journal : Journal := []

namespace State

def note (entries : Journal) (state : State) : State :=
  { state with journal := state.journal ++ entries }

def update (change : Report → Report) (state : State) : State :=
  { state with report := change state.report }

def size (state : State) : Nat := total (state.trees.map EventTree.size)

/-- Keeps the tree of a unit. -/
def keep (tree : EventTree) (truncated : Bool) (state : State) : State where
  trees := state.trees ++ [tree]
  report := { state.report with
    parsed := state.report.parsed + 1
    truncated := state.report.truncated ++ if truncated then [tree.name] else [] }
  journal := state.journal

def fail (name : String) : State → State :=
  update fun report => { report with failed := report.failed ++ [name] }

def skipEmpty : State → State := update fun report => { report with empty := report.empty + 1 }

end State

def reportStart (position total : Nat) (unit : UnitRecord) : Journal :=
  Journal.debug ("[" ++ toString position ++ "/" ++ toString total ++ "] parsing " ++
    Text.quoted unit.displayName)

/-- Builds the units one after the other until one halts the run; the first has the given
position. -/
def buildFrom (engine : Engine) (settings : Settings) (tuning : Tuning) (total : Nat) :
    Nat → List UnitRecord → State → State × Option Halt
  | _, [], state => (state, none)
  | position, unit :: units, state =>
    match present unit.text with
    | none => buildFrom engine settings tuning total (position + 1) units state.skipEmpty
    | some text =>
      let (built, journal) := buildUnit engine settings tuning unit text
      let noted := state.note (reportStart position total unit ++ journal)
      match built with
      | .halted halt => (noted, some halt)
      | .failed =>
        buildFrom engine settings tuning total (position + 1) units (noted.fail unit.displayName)
      | .tree tree truncated =>
        buildFrom engine settings tuning total (position + 1) units (noted.keep tree truncated)

/-- Not later in the order of names; trees of one name keep their order. -/
def notAfter (a b : EventTree) : Bool := !decide (b.name < a.name)

/-- Counts what was built and puts the trees in order. -/
def settleOrder (state : State) : State :=
  let counted := state.update fun report => { report with nodesBuilt := state.size }
  { counted.note counted.report.buildSummary with trees := state.trees.mergeSort notAfter }

def failedName (done : EventTree × Work) : Option String :=
  match done.2.tree with
  | .ok _ => none
  | .error _ => some done.1.name

def reportDrop (title name : String) : Journal :=
  Journal.failure ("unit=" ++ name ++ " failed during " ++ title ++ ", dropping it")

/-- What a stage reported about one tree, and that the tree is dropped if it is. -/
def stageJournal (title : String) (done : EventTree × Work) : Journal :=
  done.2.journal ++ ((failedName done).map (reportDrop title)).getD []

/-- Takes all trees through a stage and drops those that it gives up. -/
def takeThrough (title : String) (stage : Stage) (state : State) : State :=
  let done := state.trees.map fun tree => (tree, stage tree)
  { trees := done.filterMap fun (_, work) => work.tree.toOption
    report := { state.report with
      failed := state.report.failed ++ done.filterMap failedName
      passCounts := state.report.passCounts.addAll (done.flatMap fun (_, work) => work.counts) }
    journal := state.journal ++ done.flatMap (stageJournal title) }

/-- Lists the references that lead nowhere. -/
def audit (state : State) : State :=
  let (found, journal) := Dangling.inTrees state.trees
  (state.update fun report => { report with dangling := found }).note journal

def settleReport (state : State) : State :=
  let counted := state.update fun report => { report with nodesFinal := state.size }
  counted.note counted.report.summary

/-- The stages after the names have been looked up. -/
def finishFrom (settings : Settings) (tuning : Tuning)
    (alterations : Register String (List Alteration)) (names : NameTable) (state : State) : State :=
  let passes := settings.passes
  let folded := takeThrough "optimization passes" (Stage.fold settings tuning) state
  let altered :=
    if passes.applyAlterations then takeThrough "alterations" (Stage.alter alterations) folded
    else folded
  let audited := if passes.checkRefs then audit altered else altered
  settleReport (takeThrough "cleanup passes" (Stage.finish settings names) audited)

/-- Whether a run needs names. -/
def wantsNames (settings : Settings) (skipLookup : Bool) : Bool :=
  settings.passes.nameCards && !skipLookup

/-- Runs over all units. The lookup is only looked at if the run needs names. -/
def run (engine : Engine) (settings : Settings) (tuning : Tuning)
    (alterations : Register String (List Alteration)) (lookup : Lookup) (skipLookup : Bool)
    (units : List UnitRecord) : Except Halt (List EventTree × Report) × Journal :=
  match buildFrom engine settings tuning units.length 1 units {} with
  | (state, some halt) => (.error halt, state.journal)
  | (state, none) =>
    let shaped := takeThrough "structure passes" (Stage.shape settings) (settleOrder state)
    let finish (names : NameTable) (ready : State) :=
      let state := finishFrom settings tuning alterations names ready
      (Except.ok (state.trees, state.report), state.journal)
    if wantsNames settings skipLookup then
      let ready := shaped.note lookup.2
      match lookup.1 with
      | .error halt => (.error halt, ready.journal)
      | .ok names => finish names ready
    else finish [] shaped

end StoryAtlas.Run
