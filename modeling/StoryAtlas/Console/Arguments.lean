import StoryAtlas.File.Path

/-!
# The command line

The first word that is no option names a command. Options may stand anywhere after it; an option
takes its value from the next word or after an equals sign, and the last of several values counts.
Two dashes alone end the options. Whatever does not fit is a misuse.
-/

namespace StoryAtlas.Console

structure BuildOptions where
  events : Option FilePath := none
  output : Option FilePath := none
  engine : Option String := none
  alterations : Option FilePath := none
  skipLookup : Bool := false
  logFile : Option FilePath := none
  verbose : Bool := false

inductive Command where
  | build (options : BuildOptions)
  | check (path : FilePath)
  | stats (path : FilePath)
  | help

/-- An option takes a value, or it is set by its name alone. -/
inductive OptionKind (α : Type) where
  | valued (set : String → α → α)
  | flag (set : α → α)

abbrev OptionTable (α : Type) := List (String × OptionKind α)

def OptionTable.find {α : Type} (table : OptionTable α) (name : String) : Option (OptionKind α) :=
  (table.find? fun entry => entry.1 == name).map (·.2)

def isOption (word : String) : Bool := word.startsWith "-" && 1 < word.length

/-- The name and the value of an option that brings its value along. -/
def splitValue (word : String) : String × Option String :=
  match Text.breakOn ['='] word.toList with
  | some (name, value) => (String.ofList name, some (String.ofList value))
  | none => (word, none)

def helpOption : String := "--help"

/-- What the words give: options that are set, and the words that are left. -/
structure Given (α : Type) where
  options : α
  words : List String := []
  help : Bool := false

/-- What a word makes of the options: it sets one, or it names one that still wants its value. -/
inductive Effect (α : Type) where
  | given (given : Given α)
  | wanting (set : String → α → α)

def readOption {α : Type} (table : OptionTable α) (given : Given α) (word : String) :
    Option (Effect α) :=
  let (name, value) := splitValue word
  match table.find name, value with
  | some (.flag set), none => some (.given { given with options := set given.options })
  | some (.valued set), some text => some (.given { given with options := set text given.options })
  | some (.valued set), none => some (.wanting set)
  | none, none => if name = helpOption then some (.given { given with help := true }) else none
  | _, _ => none

/-- Reads options and words; a misuse gives nothing. -/
def readWords {α : Type} (table : OptionTable α) :
    Given α → Option (String → α → α) → List String → Option (Given α)
  | given, none, [] => some given
  | _, some _, [] => none
  | given, some set, text :: rest =>
    readWords table { given with options := set text given.options } none rest
  | given, none, word :: rest =>
    if word = "--" then some { given with words := given.words ++ rest }
    else if isOption word then
      match readOption table given word with
      | some (.given next) => readWords table next none rest
      | some (.wanting set) => readWords table given (some set) rest
      | none => none
    else readWords table { given with words := given.words ++ [word] } none rest

def buildTable : OptionTable BuildOptions :=
  [("--events", .valued fun text options => { options with events := some (.ofText text) }),
    ("--output", .valued fun text options => { options with output := some (.ofText text) }),
    ("--engine", .valued fun text options => { options with engine := some text }),
    ("--alterations", .valued fun text options =>
      { options with alterations := some (.ofText text) }),
    ("--skip-lookup", .flag fun options => { options with skipLookup := true }),
    ("--log-file", .valued fun text options => { options with logFile := some (.ofText text) }),
    ("--verbose", .flag fun options => { options with verbose := true })]

def parseBuild (words : List String) : Option Command := do
  let given ← readWords buildTable { options := {} } none words
  if given.help then some .help
  else if given.words.isEmpty then some (.build given.options)
  else none

/-- A command that takes one path. -/
def parsePath (command : FilePath → Command) (words : List String) : Option Command := do
  let given ← readWords ([] : OptionTable Unit) { options := () } none words
  if given.help then some .help
  else
    match given.words with
    | [path] => some (command (.ofText path))
    | _ => none

def parseNamed : List String → Option Command
  | "build" :: words => parseBuild words
  | "check" :: words => parsePath .check words
  | "stats" :: words => parsePath .stats words
  | _ => none

def parse : List String → Option Command
  | "--" :: words => parseNamed words
  | word :: words => if word = helpOption then some .help else parseNamed (word :: words)
  | [] => none

end StoryAtlas.Console
