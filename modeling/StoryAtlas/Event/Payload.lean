import StoryAtlas.Event.Stray

/-!
# Event trees as documents

The written form of a node leaves out what is absent and the empty lists of requirements, effects
and children. It keeps the empty text, the number zero and an empty list of borrowed children, which
all say something.

Reading is more liberal than writing: ids may be numerals, the members of the text lists may be
anything that has a text, a void list counts as absent, and stray values count as what they equal or
as nothing. The fields are read in a fixed order, and the first fault in that order is the one
reported.
-/

namespace StoryAtlas

namespace Node

def optional {α : Type} (key : String) (write : α → Json) (value : Option α) :
    List (String × Json) :=
  match value with
  | some value => [(key, write value)]
  | none => []

def unlessEmpty (key : String) (items : List Json) : List (String × Json) :=
  if items.isEmpty then [] else [(key, .arr items)]

def slotField (strays : Strays) (beat : Beat) (slot : Slot) : List (String × Json) :=
  ((strays.written beat slot).map fun value => (slot.key, value)).toList

def beatFields (strays : Strays) (beat : Beat) : List (String × Json) :=
  ("id", .int beat.id) :: (slotField strays beat .text ++
    [("type", .str beat.kind.name)] ++
    slotField strays beat .label ++
    unlessEmpty "requirements" (beat.requirements.map .str) ++
    unlessEmpty "effects" (beat.effects.map .str) ++
    slotField strays beat .continues ++
    slotField strays beat .ref ++
    optional "refChildren" Json.ofInts beat.refChildren)

mutual

/-- The written form of a node in which stray values were found. -/
def toPayloadWith (strays : Strays) : Node → Json
  | .node beat children =>
    .obj (beatFields strays beat ++ unlessEmpty "children" (toPayloadsWith strays children))

def toPayloadsWith (strays : Strays) : List Node → List Json
  | [] => []
  | node :: nodes => toPayloadWith strays node :: toPayloadsWith strays nodes

end

def toPayload (node : Node) : Json := toPayloadWith [] node

/-- A field that has to be there. -/
def demand (fields : List (String × Json)) (key : String) : Except Fault Json :=
  match Register.get? key fields with
  | some value => .ok value
  | none => .error (.missingField key)

def readKind : Json → Except Fault Kind
  | .str name =>
    match Kind.ofName? name with
    | some kind => .ok kind
    | none => .error (.unknownKind (.str name))
  | value => .error (.unknownKind value)

def slotText (slot : Slot) (fields : List (String × Json)) : Option String :=
  (Register.get? slot.key fields).bind Json.text?

def slotWhole (slot : Slot) (fields : List (String × Json)) : Option Int :=
  (Register.get? slot.key fields).bind Json.whole?

def readBeat (fields : List (String × Json)) : Except Fault Beat := do
  let id ← (← demand fields "id").toWhole
  let kind ← readKind (← demand fields "type")
  let requirements ← Json.membersOrNone (Register.get? "requirements" fields)
  let effects ← Json.membersOrNone (Register.get? "effects" fields)
  let refChildren ←
    match Register.get? "refChildren" fields with
    | none | some .null => pure none
    | some value => do
      let members ← value.members
      pure (some (← members.mapM Json.toWhole))
  return {
    id := id
    kind := kind
    text := slotText .text fields
    label := slotText .label fields
    requirements := requirements.map Json.display
    effects := effects.map Json.display
    continues := slotWhole .continues fields
    ref := slotWhole .ref fields
    refChildren := refChildren }

mutual

/-- Reads a node; the beat is read before the children. -/
def ofPayload : Json → Except Fault Node
  | .obj fields => do
    let beat ← readBeat fields
    let children ← ofChildren fields
    return .node beat children
  | _ => .error .notANode

/-- Reads the children out of the fields of a node. -/
def ofChildren : List (String × Json) → Except Fault (List Node)
  | [] => .ok []
  | (key, value) :: fields =>
    if key = "children" then
      match value with
      | .arr items => ofPayloads items
      | other =>
        if other.isVoid then .ok []
        else
          match other.members with
          | .error fault => .error fault
          | .ok _ => .error .notANode
    else ofChildren fields

def ofPayloads : List Json → Except Fault (List Node)
  | [] => .ok []
  | item :: items => do
    let node ← ofPayload item
    let nodes ← ofPayloads items
    return node :: nodes

end

end Node

end StoryAtlas
