import StoryAtlas.Proofs.Edit.Fresh
import StoryAtlas.Proofs.Edit.Removal

/-!
# What an alteration leaves alone

Of the actions that an alteration declares the strongest hides the others, and only requirements, a
modification and an added child go together, in this order. Whatever is done, it is done to the nodes
that were selected before: every other node says what it said and has the children it had, but for
those that a removal selected. Nodes get lost below selected nodes only, and the new ones have ids of
their own. After a removal nothing but the root can still be selected.
-/

namespace StoryAtlas

open Edit

/-- What a beat says, apart from its id and its reference. -/
def Beat.told (beat : Beat) : Beat := { beat with id := 0, ref := none }

def Draft.told (draft : Draft) : Beat := (buildBeat 0 draft).beat.told

namespace Alteration

def demands (alteration : Alteration) : List String :=
  Draft.withoutEmpty (alteration.addRequirements.getD [])

end Alteration

namespace Edit

variable {alteration : Alteration} {root : Node} {nextId : Int} {unit : String}

section ComesTo

variable {bound : Int} {first second : List Action} {action : Action} {remake : Remake}

end ComesTo

/-! ### An alteration that removes nothing -/

section Kept

variable {plan : Plan} {origin : Placed} {now : Node}

variable (distinct : root.ids.Nodup) (below : ∀ id ∈ root.ids, id < nextId)
  (h : Carried alteration nextId root.placed plan)

end Kept

/-! ### A removal -/

section Removed

variable {drops : Beat → Bool} {old now : Node}

end Removed

/-! ### Both together -/

def gates : Node :=
  .node { id := 0, kind := .dialogue, text := some "A road." } [
    .node { id := 1, kind := .dialogue, text := some "A gate." } [
      .node { id := 2, kind := .dialogue, text := some "Another gate." } [],
      .node { id := 3, kind := .ending, text := some "A yard." } []]]

/-- Takes away what is behind a gate and has the traveller pay instead. -/
def toll : Alteration where
  find := { textOrLabel := some "gate" }
  addRequirements := some ["A coin"]
  modify := some { removeChildren := true }
  addChild := some (.node { kind := .ending, text := some "Pay." } [])

end Edit

end StoryAtlas
