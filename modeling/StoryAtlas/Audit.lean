import StoryAtlas.Event.Payload
import StoryAtlas.Journal

/-!
# References that lead nowhere

A reference or a borrowed child that is no node of its own tree is reported with the node that names
it. The report shows the node by its label, or else by the beginning of its text.

Stray values are links and labels too. Some of them stop an audit: a value with parts cannot be
looked for among the ids, and neither a number nor a truth value can be cut to length for a report.
-/

namespace StoryAtlas

/-- The field of a node that names another. -/
inductive Link where
  | ref
  | refChildren
deriving DecidableEq, Repr

def Link.name : Link → String
  | ref => "ref"
  | refChildren => "refChildren"

structure Dangling where
  unit : String
  node : Int
  /-- What the link names, as it is written. -/
  target : Json
  /-- What the node is shown by. -/
  identity : Json
  link : Link

namespace Dangling

def identityLimit : Nat := 120

def shownLimit : Nat := 80

/-- The beginning of a value, if it has one. -/
def clip (count : Nat) : Json → Json
  | .str text => .str (Text.clip count text)
  | .arr items => .arr (items.take count)
  | value => value

def identityOf (strays : Strays) (beat : Beat) : Json :=
  let label := (strays.written beat .label).getD .null
  let text := (strays.written beat .text).getD .null
  if !label.isVoid then label
  else if !text.isVoid then clip identityLimit text
  else .str "(no text)"

/-- The identity in a report, cut where it would grow too long. -/
def shown (found : Dangling) : Json :=
  match found.identity with
  | .str text =>
    if text.length ≤ shownLimit then .str text
    else .str (Text.clip (shownLimit - 3) text ++ "...")
  | value => value

def describe (found : Dangling) : String :=
  found.unit ++ ": node " ++ toString found.node ++ " " ++ found.link.name ++ " -> " ++
    found.target.display ++ " " ++ found.shown.literal

def links (strays : Strays) (beat : Beat) : List (Link × Json) :=
  ((strays.written beat .ref).toList.map fun target => (Link.ref, target)) ++
    ((beat.refChildren.getD []).map fun target => (Link.refChildren, .int target))

/-- The target is one of the ids. -/
def isAmong (ids : List Int) (target : Json) : Bool := target.whole?.any ids.contains

def inBeat (unit : String) (ids : List Int) (strays : Strays) (beat : Beat) : List Dangling :=
  ((links strays beat).filter fun link => !isAmong ids link.2).map fun (link, target) =>
    { unit := unit
      node := beat.id
      target := target
      identity := identityOf strays beat
      link := link }

/-- The links of a tree that name no node of it, in walk order. -/
def inTree (unit : String) (strays : Strays) (root : Node) : List Dangling :=
  root.walk.flatMap fun node => inBeat unit root.ids strays node.value

/-! ### What stops an audit -/

/-- A value with parts is no target that could be looked for. -/
def seekFault? (strays : Strays) (beat : Beat) : Option Fault :=
  match strays.written beat .ref with
  | some (.arr items) => some (.unsearchable (Json.arr items).kindName)
  | some (.obj fields) => some (.unsearchable (Json.obj fields).kindName)
  | _ => none

/-- The text of a beat without a label has to have a beginning. -/
def clipFault? (strays : Strays) (beat : Beat) : Option Fault :=
  let label := (strays.written beat .label).getD .null
  match (strays.written beat .text).getD .null with
  | .str _ | .arr _ => none
  | .obj fields => if label.isVoid && !fields.isEmpty then some (.unsearchable "slice") else none
  | text => if label.isVoid && !text.isVoid then some (.indivisible text.kindName) else none

/-- What stops the search for the links of a tree that lead nowhere. -/
def treeFault? (strays : Strays) (root : Node) : Option Fault :=
  root.walk.findSome? fun (node : Node) => (seekFault? strays node.value).or
    (if (inBeat "" root.ids strays node.value).isEmpty then none
    else clipFault? strays node.value)

/-- What stops the report of a link. -/
def showFault? (found : Dangling) : Option Fault :=
  match found.identity with
  | .str _ | .arr _ | .obj _ => none
  | value => some (.immeasurable value.kindName)

/-- The links of a tree that lead nowhere, if all of them can be found and shown. -/
def audit (unit : String) (strays : Strays) (root : Node) : Except Fault (List Dangling) :=
  let found := inTree unit strays root
  match (treeFault? strays root).or (found.findSome? showFault?) with
  | some fault => .error fault
  | none => .ok found

end Dangling

end StoryAtlas
