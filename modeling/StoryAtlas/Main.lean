import StoryAtlas.Console.Command
import StoryAtlas.Settings.Read

/-!
# The program

The program reads its settings from the environment and the files that the command needs, lets the
command run, and carries out what the command leaves behind: lines, reports, and files.
-/

namespace StoryAtlas.Console

def misuseText : String := "unknown command or option; try --help"

def readInput (path : FilePath) : IO (List (FilePath × String)) := do
  try
    return [(path, ← IO.FS.readFile path.text)]
  catch _ => return []

/-- The part of the disk that a command reads. -/
def readDisk (settings : Settings) : Option Command → IO Disk
  | none => return {}
  | some command => return Disk.ofFiles (← (inputs settings command).mapM readInput).flatten

/-- The variables that give settings, in small letters and in capitals. -/
def readEnvironment : IO (List (String × String)) := do
  let names := Settings.settingNames.map fun name => Settings.environmentMark ++ name
  let both := names ++ names.map String.toUpper
  let found ← both.mapM fun name => do return (← IO.getEnv name).map fun text => (name, text)
  return found.filterMap id

def makeParent (path : FilePath) : IO Unit := IO.FS.createDirAll path.parent.text

def writeOutput (file : FilePath × String) : IO Unit := do
  makeParent file.1
  IO.FS.writeFile file.1.text file.2

def appendLog (journal : Journal) (path : FilePath) : IO Unit := do
  makeParent path
  let handle ← IO.FS.Handle.mk path.text .append
  for entry in journal do handle.putStrLn entry.text

def Escape.message : Escape → String
  | fault found => found.message
  | disk .isDirectory => "the output is a directory"
  | disk .fileExists => "the directory of the output is a file"
  | disk .notDirectory => "the directory of the output is inside a file"
  | level found => found.message

def carryOut (outcome : Outcome) : IO UInt32 := do
  for entry in outcome.journal do IO.eprintln entry.text
  outcome.logFile.forM (appendLog outcome.journal)
  outcome.written.forM writeOutput
  IO.print outcome.printed
  for (code, message) in outcome.errors do IO.eprintln ("error [" ++ code ++ "]: " ++ message)
  outcome.escape.forM fun escape => IO.eprintln ("error: " ++ escape.message)
  if outcome.exitCode = misuseCode then IO.eprintln misuseText
  return outcome.exitCode.toUInt32

def readSettings : IO (Except Settings.ReadError Settings) := do
  return Settings.read [] (← readEnvironment)

end StoryAtlas.Console

open StoryAtlas StoryAtlas.Console in
def main (args : List String) : IO UInt32 := do
  match ← readSettings with
  | .error found =>
    IO.eprintln ("error: " ++ found.message)
    return 1
  | .ok settings =>
    let disk ← readDisk settings (parse args)
    carryOut (run {} settings disk args)
