import StoryAtlas.Explore.Limits
import StoryAtlas.File.Path
import StoryAtlas.Share.Collapse

/-!
# Settings

The settings of a run: where its files are, how far stories are explored, which passes are made over
the trees and from which units a pass keeps away.
-/

namespace StoryAtlas

/-- Which passes are made. -/
structure Passes where
  dropFallbacks : Bool := true
  separateChoices : Bool := true
  foldHubs : Bool := true
  skipWrappers : Bool := true
  skipFights : Bool := true
  promoteHubs : Bool := true
  borrowChildren : Bool := true
  applyAlterations : Bool := true
  checkRefs : Bool := true
  revealRolls : Bool := true
  nameCards : Bool := true
deriving DecidableEq, Repr

structure Settings where
  appName : String := "eventmap"
  eventsPath : FilePath := .ofText "data/events.json"
  outputPath : FilePath := .ofText "data/event-trees.json"
  alterationsPath : Option FilePath := none
  logPath : Option FilePath := none
  logLevel : String := "INFO"
  enginePath : String := ""
  limits : Limits := {}
  passes : Passes := {}
  sharing : Share.Options := {}
  /-- Units whose repeated parts are kept. -/
  unshared : List String := ["Historic Shard"]
  hubMinChoices : Int := 3
  /-- Units whose hubs are reported and kept. -/
  hubsKept : List String := []
  /-- The only units whose fallbacks are dropped. -/
  fallbacksDropped : List String := ["A Familiar Face"]
  /-- Units without any borrowing between cousins. -/
  cousinsKept : List String :=
    ["Vesparin Vault", "TempleOffering", "Frozen Heart", "The Defiled Sanctum", "The Ferryman",
      "Warfront Survivor"]
  /-- Units without borrowing between cousins that have siblings. -/
  crowdedCousinsKept : List String := ["The Priestess"]
  cardsUrl : String :=
    "https://blightbane.io/api/cards-codex?search=&rarity=&category=&type=&banner=&exp="
  talentsUrl : String :=
    "https://blightbane.io/api/cards-codex?search=&rarity=&category=10&type=&banner=&exp="
  /-- The seconds that a server has for an answer. -/
  lookupTimeout : Float := 20.0

end StoryAtlas
