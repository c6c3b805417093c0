import StoryAtlas.Json.Reader
import StoryAtlas.Schema.Model
import StoryAtlas.Schema.Scalar
import StoryAtlas.Settings.Basic
import StoryAtlas.Text.Fold

/-!
# Reading settings

Settings are given as values by name, or as environment variables whose names begin with a mark.
Names are read in any case. Of several values for one setting the first counts, of several variables
the last; a given value wins over a variable, and names that are no settings are passed over. A
variable that holds a list has to be written in the interchange notation; one that is not is refused
before anything is checked.
-/

namespace StoryAtlas

namespace Schema

open Checked

/-- The path of a file, given as text. -/
def path : Json → Checked FilePath
  | .str text => valid (.ofText text)
  | _ => fail .pathType

end Schema

namespace Settings

open Schema

def standard : Settings := {}

def readLimits (fields : Fields) : Checked Limits :=
  let base : Limits := {}
  Limits.mk <$> optionalField fields "max_depth" base.maxDepth whole <*>
    optionalField fields "sibling_first_depth" base.siblingFirstDepth whole <*>
    optionalField fields "sibling_first_node_budget" base.siblingFirstBudget whole <*>
    optionalField fields "depth_first_node_budget" base.depthFirstBudget whole <*>
    optionalField fields "text_loop_detection_enabled" base.detectTextLoops bool <*>
    optionalField fields "choice_and_path_loop_detection_enabled" base.detectRepeatedStates bool <*>
    optionalField fields "split_dialogue_on_effects_enabled" base.splitDialogue bool <*>
    optionalField fields "path_convergence_min_choices" base.convergenceChoices whole

def passFlag (fields : Fields) (name : String) : Checked Bool :=
  optionalField fields (name ++ "_enabled") true bool

def readPasses (fields : Fields) : Checked Passes :=
  Passes.mk <$> passFlag fields "filter_default_nodes" <*>
    passFlag fields "separate_choices_from_effects" <*>
    passFlag fields "hub_pattern_optimization" <*>
    passFlag fields "normalize_refs_pointing_to_choice_nodes" <*>
    passFlag fields "normalize_refs_pointing_to_combat_nodes" <*>
    passFlag fields "promote_shallow_dialogue_menu_hub" <*>
    passFlag fields "convert_sibling_and_cousin_refs" <*>
    passFlag fields "apply_alterations" <*>
    passFlag fields "check_invalid_refs" <*>
    passFlag fields "clean_up_random_values" <*>
    passFlag fields "replace_card_ids"

def readSharing (fields : Fields) : Checked Share.Options :=
  let base : Share.Options := {}
  Share.Options.mk <$> optionalField fields "dedup_iterations" base.iterations whole <*>
    optionalField fields "dedup_min_subtree_size" base.minSize whole <*>
    optionalField fields "dedup_signature_depth" base.signatureDepth whole

def unitNames (fields : Fields) (name : String) (base : List String) : Checked (List String) :=
  optionalField fields name base (list plainText)

/-- Checks the settings given by name; the others are as they ship. -/
def ofFields (fields : Fields) : Checked Settings :=
  Settings.mk <$> optionalField fields "app_name" standard.appName plainText <*>
    optionalField fields "events_path" standard.eventsPath path <*>
    optionalField fields "output_path" standard.outputPath path <*>
    optionalField fields "alterations_path" none (nullable path) <*>
    optionalField fields "log_path" none (nullable path) <*>
    optionalField fields "log_level" standard.logLevel plainText <*>
    optionalField fields "story_engine_factory" standard.enginePath plainText <*>
    readLimits fields <*>
    readPasses fields <*>
    readSharing fields <*>
    unitNames fields "dedup_unit_blacklist" standard.unshared <*>
    optionalField fields "hub_pattern_min_choices" standard.hubMinChoices whole <*>
    unitNames fields "hub_pattern_unit_blacklist" standard.hubsKept <*>
    unitNames fields "default_node_blacklist" standard.fallbacksDropped <*>
    unitNames fields "cousin_ref_blacklist" standard.cousinsKept <*>
    unitNames fields "complex_cousin_ref_blacklist" standard.crowdedCousinsKept <*>
    optionalField fields "cards_lookup_url" standard.cardsUrl plainText <*>
    optionalField fields "talents_lookup_url" standard.talentsUrl plainText <*>
    optionalField fields "lookup_timeout_s" standard.lookupTimeout fraction

def limitFields (limits : Limits) : Fields :=
  [("max_depth", .int limits.maxDepth),
    ("sibling_first_depth", .int limits.siblingFirstDepth),
    ("sibling_first_node_budget", .int limits.siblingFirstBudget),
    ("depth_first_node_budget", .int limits.depthFirstBudget),
    ("text_loop_detection_enabled", .bool limits.detectTextLoops),
    ("choice_and_path_loop_detection_enabled", .bool limits.detectRepeatedStates),
    ("split_dialogue_on_effects_enabled", .bool limits.splitDialogue),
    ("path_convergence_min_choices", .int limits.convergenceChoices)]

def passFields (passes : Passes) : Fields :=
  [("filter_default_nodes", passes.dropFallbacks),
    ("separate_choices_from_effects", passes.separateChoices),
    ("hub_pattern_optimization", passes.foldHubs),
    ("normalize_refs_pointing_to_choice_nodes", passes.skipWrappers),
    ("normalize_refs_pointing_to_combat_nodes", passes.skipFights),
    ("promote_shallow_dialogue_menu_hub", passes.promoteHubs),
    ("convert_sibling_and_cousin_refs", passes.borrowChildren),
    ("apply_alterations", passes.applyAlterations),
    ("check_invalid_refs", passes.checkRefs),
    ("clean_up_random_values", passes.revealRolls),
    ("replace_card_ids", passes.nameCards)].map fun (name, flag) => (name ++ "_enabled", .bool flag)

def pathJson (path : FilePath) : Json := .str path.text

/-- The settings by name, apart from the time that a server has. -/
def toJson (settings : Settings) : Json :=
  .obj ([("app_name", .str settings.appName),
    ("events_path", pathJson settings.eventsPath),
    ("output_path", pathJson settings.outputPath),
    ("alterations_path", Json.ofOption pathJson settings.alterationsPath),
    ("log_path", Json.ofOption pathJson settings.logPath),
    ("log_level", .str settings.logLevel),
    ("story_engine_factory", .str settings.enginePath)] ++
    limitFields settings.limits ++ passFields settings.passes ++
    [("dedup_iterations", .int settings.sharing.iterations),
    ("dedup_min_subtree_size", .int settings.sharing.minSize),
    ("dedup_signature_depth", .int settings.sharing.signatureDepth),
    ("dedup_unit_blacklist", Json.ofStrings settings.unshared),
    ("hub_pattern_min_choices", .int settings.hubMinChoices),
    ("hub_pattern_unit_blacklist", Json.ofStrings settings.hubsKept),
    ("default_node_blacklist", Json.ofStrings settings.fallbacksDropped),
    ("cousin_ref_blacklist", Json.ofStrings settings.cousinsKept),
    ("complex_cousin_ref_blacklist", Json.ofStrings settings.crowdedCousinsKept),
    ("cards_lookup_url", .str settings.cardsUrl),
    ("talents_lookup_url", .str settings.talentsUrl)])

/-! ### The environment -/

def environmentMark : String := "eventmap_"

def listNames : List String :=
  ["dedup_unit_blacklist", "hub_pattern_unit_blacklist", "default_node_blacklist",
    "cousin_ref_blacklist", "complex_cousin_ref_blacklist"]

def settingNames : List String :=
  match standard.toJson with
  | .obj fields => fields.map (·.1) ++ ["lookup_timeout_s"]
  | _ => []

/-- Why settings cannot be read. -/
inductive ReadError where
  /-- A variable that should hold a list holds no document. -/
  | unreadableVariable (name : String) (fault : Json.ReadError)
  | invalid (issues : List Issue)

def ReadError.message : ReadError → String
  | unreadableVariable name _ =>
    "error parsing value for field \"" ++ name ++ "\" from source \"EnvSettingsSource\""
  | invalid issues => toString issues.length ++ " issues in the settings"

/-- A name as it is compared: in small letters. -/
def nameKey (name : String) : String := String.ofList (name.toList.map Text.smallLetter)

/-- The values for settings, under the names of these. -/
def named (values : Fields) : Fields :=
  settingNames.filterMap fun name =>
    (values.find? fun field => nameKey field.1 == name).map fun field => (name, field.2)

/-- The value that a variable gives to a setting; a list that is null is not given. -/
def valueOfVariable (name text : String) : Except ReadError (Option Json) :=
  if listNames.contains name then
    match Json.parse text with
    | .ok .null => .ok none
    | .ok value => .ok (some value)
    | .error fault => .error (.unreadableVariable name fault)
  else .ok (some (.str text))

/-- The last variable for a setting, in whatever case its name is written. -/
def variableFor (environment : List (String × String)) (name : String) : Option String :=
  (environment.reverse.find? fun entry => nameKey entry.1 == environmentMark ++ name).map (·.2)

/-- The settings that the environment gives. -/
def fromEnvironment (environment : List (String × String)) : Except ReadError Fields := do
  let given ← settingNames.mapM fun name => do
    match variableFor environment name with
    | none => return none
    | some text => return (← valueOfVariable name text).map fun value => (name, value)
  return given.filterMap fun field => field

def read (values : Fields) (environment : List (String × String)) : Except ReadError Settings := do
  let fields ← fromEnvironment environment
  ((ofFields (named values ++ fields)).toExcept).mapError .invalid

end Settings

end StoryAtlas
