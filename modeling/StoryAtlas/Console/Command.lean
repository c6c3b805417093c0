import StoryAtlas.Archive
import StoryAtlas.Console.Arguments
import StoryAtlas.Edit.Shipped
import StoryAtlas.File.Disk
import StoryAtlas.Journal.Setup
import StoryAtlas.Run.Pipeline
import StoryAtlas.Text.Line
import StoryAtlas.Total
import StoryAtlas.Unit.Shipped

/-!
# The commands

Building reads the units, runs over them and writes the trees. Checking lists the references of
written trees that lead nowhere, and counting gives their sizes. A command ends with a code, with
lines that are its result, and with the failures it reports; a fault that it does not contain
escapes.

A command sees the files of a disk and leaves a disk behind.
-/

namespace StoryAtlas.Console

/-- What a command does not contain. -/
inductive Escape where
  | fault (fault : Fault)
  | disk (fault : DiskFault)
  | level (fault : LevelFault)

def Escape.ofSetup : SetupFault → Escape
  | .level found => .level found
  | .disk found => .disk found

structure Outcome where
  exitCode : Nat := 0
  lines : List String := []
  /-- The failures that are reported, each with its code and its message. -/
  errors : List (String × String) := []
  escape : Option Escape := none
  disk : Disk
  /-- The entries of the journal that are shown. -/
  journal : Journal := []
  logFile : Option FilePath := none
  written : Option (FilePath × String) := none

def misuseCode : Nat := 2

def alterationsCode : String := "ALTERATIONS_INVALID"

namespace Outcome

def withFailure (code message : String) (outcome : Outcome) : Outcome :=
  { outcome with exitCode := 1, errors := [(code, message)] }

def withEscape (escape : Escape) (outcome : Outcome) : Outcome :=
  { outcome with exitCode := 1, escape := some escape }

def withHalt (outcome : Outcome) : Halt → Outcome
  | .failure failure => outcome.withFailure failure.code failure.message
  | .invalid issues =>
    outcome.withFailure alterationsCode (toString issues.length ++ " issues in the alterations")
  | .fault fault => outcome.withEscape (.fault fault)

/-- What a file shows of the journal: all of it, unless the file is another or holds the result. -/
def logIn (outcome : Outcome) (path : FilePath) : Journal :=
  if outcome.logFile.any (outcome.disk.samePlace path) &&
      !outcome.written.any fun file => outcome.disk.samePlace path file.1
  then outcome.journal
  else []

/-- What is printed as the result. -/
def printed (outcome : Outcome) : String :=
  String.join (outcome.lines.map fun line => line ++ "\n")

/-- The lines that a reader sees: one that is printed may hold the end of a line itself. -/
def seenLines (outcome : Outcome) : List String := Text.lines outcome.printed

end Outcome

/-! ### Building -/

/-- The parts of a run that come from outside: engines, and servers that reply to requests. -/
structure Surroundings where
  shelf : Engine.Shelf := Engine.shelf
  reply : String → Reply := Reply.offline

/-- The value of an option, if it says anything. -/
def chosen (option : Option String) (standard : String) : String := (present option).getD standard

def loadEntries (disk : Disk) : Option FilePath → Except Halt (List UnitAlterations)
  | some path => Archive.loadAlterations path.text (disk.read path)
  | none => .ok Edit.Shipped.all

/-- What a run starts from, in the order in which it is looked for. -/
def prepare (around : Surroundings) (settings : Settings) (options : BuildOptions) (disk : Disk) :
    Except Halt (Engine × List UnitRecord × List UnitAlterations) := do
  let engine ← Engine.load around.shelf (chosen options.engine settings.enginePath)
  let events := options.events.getD settings.eventsPath
  let units ← Archive.loadUnits events.text (disk.read events)
  let entries ← loadEntries disk (options.alterations.or settings.alterationsPath)
  return (engine, units, entries)

def runAll (around : Surroundings) (settings : Settings) (options : BuildOptions) (disk : Disk) :
    Except Halt (List EventTree × Run.Report) × Journal :=
  match prepare around settings options disk with
  | .error halt => (.error halt, [])
  | .ok (engine, units, entries) =>
    Run.run engine settings Tuning.shipped (UnitAlterations.byUnit entries)
      (Lookup.fetch around.reply settings.cardsUrl settings.talentsUrl) options.skipLookup units

def buildLines (trees : List EventTree) (report : Run.Report) (output : FilePath) : List String :=
  ["trees: " ++ toString trees.length ++ " (failed " ++ toString report.failed.length ++
      ", no content " ++ toString report.empty ++ ")",
    "nodes: " ++ toString report.nodesFinal ++ " (built " ++ toString report.nodesBuilt ++ ")"] ++
  (if report.failed.isEmpty then [] else ["failed units: " ++ Text.join ", " report.failed]) ++
  (if report.dangling.isEmpty then [] else ["invalid refs: " ++ toString report.dangling.length]) ++
  ["written: " ++ output.text]

def writeTrees (outcome : Outcome) (output : FilePath) (trees : List EventTree)
    (report : Run.Report) : Outcome :=
  let text := Archive.dumpTrees trees
  match outcome.disk.write output text with
  | .error fault => outcome.withEscape (.disk fault)
  | .ok disk =>
    { outcome with
      lines := buildLines trees report output
      disk := disk
      written := some (output, text) }

/-- Adds what the journal shows to the file it is shown in. -/
def writeLog (disk : Disk) (journal : Journal) : Option FilePath → Except DiskFault Disk
  | some path => disk.append path (String.join (journal.map fun entry => entry.text ++ "\n"))
  | none => .ok disk

def build (around : Surroundings) (settings : Settings) (options : BuildOptions) (disk : Disk) :
    Outcome :=
  let logFile := options.logFile.or settings.logPath
  let level := if options.verbose then "DEBUG" else settings.logLevel
  match JournalSetup.install {} disk logFile level with
  | .error fault => Outcome.withEscape (.ofSetup fault) { disk := disk }
  | .ok (setup, opened) =>
    let (result, journal) := runAll around settings options opened
    let shown := setup.shown journal
    match writeLog opened shown logFile with
    | .error fault => Outcome.withEscape (.disk fault) { disk := opened }
    | .ok logged =>
      let outcome : Outcome := { disk := logged, journal := shown, logFile := logFile }
      match result with
      | .error halt => outcome.withHalt halt
      | .ok (trees, report) =>
        writeTrees outcome (options.output.getD settings.outputPath) trees report

/-! ### Checking and counting -/

/-- Reads written trees and tells something of them. -/
def overTrees (path : FilePath) (disk : Disk) (tell : List EventTree → Outcome) : Outcome :=
  match Archive.loadTrees path.text (disk.read path) with
  | .error halt => Outcome.withHalt { disk := disk } halt
  | .ok trees => tell trees

/-- Lists links until one cannot be shown. -/
def listDangling (disk : Disk) (found : List Dangling) : Outcome :=
  let shown := found.takeWhile fun link => link.showFault?.isNone
  let outcome : Outcome := { disk := disk, exitCode := 1, lines := shown.map Dangling.describe }
  match found.findSome? Dangling.showFault? with
  | some fault => outcome.withEscape (.fault fault)
  | none => outcome

def check (path : FilePath) (disk : Disk) : Outcome :=
  overTrees path disk fun trees =>
    match trees.findSome? EventTree.auditFault? with
    | some fault => Outcome.withEscape (.fault fault) { disk := disk }
    | none =>
      match trees.flatMap EventTree.dangling with
      | [] =>
        { disk := disk
          lines := ["ok: " ++ toString trees.length ++ " trees, no invalid refs"] }
      | found => listDangling disk found

def statsLine (tree : EventTree) : String :=
  match tree.root with
  | none => tree.name ++ ": empty"
  | some root =>
    tree.name ++ ": nodes=" ++ toString root.size ++ " depth=" ++ toString root.height

def stats (path : FilePath) (disk : Disk) : Outcome :=
  overTrees path disk fun trees =>
    let nodes := total (trees.map EventTree.size)
    { disk := disk
      lines := trees.map statsLine ++
        ["total: " ++ toString trees.length ++ " trees, " ++ toString nodes ++ " nodes"] }

def helpLines : List String :=
  ["Compile ink story bytecode into deduplicated event trees",
    "commands: build, check PATH, stats PATH",
    "options of build: " ++ Text.join ", " (buildTable.map (·.1))]

def run (around : Surroundings) (settings : Settings) (disk : Disk) (words : List String) :
    Outcome :=
  match parse words with
  | none => { disk := disk, exitCode := misuseCode }
  | some (.build options) => build around settings options disk
  | some (.check path) => check path disk
  | some (.stats path) => stats path disk
  | some .help => { disk := disk, lines := helpLines }

/-- The files that a command reads. -/
def inputs (settings : Settings) : Command → List FilePath
  | .build options =>
    options.events.getD settings.eventsPath ::
      (options.alterations.or settings.alterationsPath).toList
  | .check path => [path]
  | .stats path => [path]
  | .help => []

end StoryAtlas.Console
