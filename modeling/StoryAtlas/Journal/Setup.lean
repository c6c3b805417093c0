import StoryAtlas.File.Disk
import StoryAtlas.Journal
import StoryAtlas.Text.Fold
import StoryAtlas.Text.Quoted
import StoryAtlas.Text.Trim

/-!
# Where the journal is shown

The journal is shown from some severity on, on the console and perhaps in a file. Where it is shown
is settled once, and the file is opened then; later calls only change the severity.
-/

namespace StoryAtlas

/-- From which severity on entries are shown. -/
inductive Level where
  /-- No severity has been set. -/
  | unset
  | from (severity : Severity)
deriving DecidableEq, Repr

/-- A name that stands for something else than a level. -/
inductive LevelFault where
  /-- It stands for a text, which names no level. -/
  | unknown (text : String)
  /-- It stands for what is no text either, shown here. -/
  | unsuitable (shown : String)
deriving DecidableEq, Repr

namespace LevelFault

def message : LevelFault → String
  | unknown text => "Unknown level: " ++ Text.quoted text
  | unsuitable shown => "Level not an integer or a valid string: " ++ shown

end LevelFault

namespace Level

def name : Level → String
  | unset => "NOTSET"
  | .from severity => severity.name

/-- The rank that counts; where none is set, warnings are shown. -/
def rank : Level → Nat
  | unset => Severity.warning.rank
  | .from severity => severity.rank

/-- The names of levels, two of which have another name. -/
def named : List (String × Level) :=
  [("DEBUG", .from .debug), ("INFO", .from .info), ("WARNING", .from .warning),
    ("WARN", .from .warning), ("ERROR", .from .error), ("CRITICAL", .from .critical),
    ("FATAL", .from .critical), ("NOTSET", .unset)]

/-- The layout of an entry, in the three styles in which a layout is written. -/
def layouts : List String :=
  ["%(levelname)s:%(name)s:%(message)s", "\x7blevelname\x7d:\x7bname\x7d:\x7bmessage\x7d",
    "$\x7blevelname\x7d:$\x7bname\x7d:$\x7bmessage\x7d"]

/-- The styles as a table: the mark of a style, what formats it, and its layout. -/
def shownLayouts : String :=
  let rows := (["%", "\x7b", "$"].zip ["Percent", "StrFormat", "StringTemplate"]).zip layouts
  "\x7b" ++ Text.join ", " (rows.map fun ((mark, style), layout) =>
    Text.quoted mark ++ ": (<class 'logging." ++ style ++ "Style'>, " ++ Text.quoted layout ++
      ")") ++ "\x7d"

/-- The names of layouts, which stand among the names of levels. -/
def taken : List (String × LevelFault) :=
  [("BASIC_FORMAT", .unknown (layouts.headD "")), ("_STYLES", .unsuitable shownLayouts)]

/-- The level of a name in any case; a name that stands for nothing gives the usual level. -/
def ofName (name : String) : Except LevelFault Level :=
  let raised := String.ofList (Text.raised name.toList)
  match taken.find? fun entry => entry.1 == raised with
  | some (_, fault) => .error fault
  | none => .ok (((named.find? fun entry => entry.1 == raised).map (·.2)).getD (.from .info))

end Level

inductive Sink where
  | console
  | file (path : FilePath)
deriving DecidableEq, Repr

structure JournalSetup where
  level : Level := .unset
  sinks : List Sink := []

/-- Why the journal cannot be shown as is asked. -/
inductive SetupFault where
  | level (fault : LevelFault)
  | disk (fault : DiskFault)

namespace JournalSetup

/-- Sets the level. The first call also settles where the journal is shown, and opens the file. -/
def install (setup : JournalSetup) (disk : Disk) (file : Option FilePath) (level : String) :
    Except SetupFault (JournalSetup × Disk) := do
  let level ← (Level.ofName level).mapError .level
  if setup.sinks.isEmpty then
    let opened ←
      match file with
      | some path => (disk.append path "").mapError .disk
      | none => pure disk
    return (⟨level, .console :: (file.map Sink.file).toList⟩, opened)
  else return ({ setup with level := level }, disk)

/-- Until anything is installed, entries are left to whoever listens further up. -/
def propagates (setup : JournalSetup) : Bool := setup.sinks.isEmpty

/-- The entries that are shown. -/
def shown (setup : JournalSetup) (journal : Journal) : Journal :=
  journal.filter fun entry => setup.level.rank ≤ entry.severity.rank

end JournalSetup

end StoryAtlas
