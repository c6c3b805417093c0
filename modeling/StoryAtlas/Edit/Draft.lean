import StoryAtlas.Event.Place
import StoryAtlas.Journal
import StoryAtlas.Edit.Selector
import StoryAtlas.Schema.Node

/-!
# Drafted subtrees

An alteration may bring a subtree of its own. Its nodes have no ids yet, so a reference inside a
draft pairs a source number with a target number, and a reference out of it names a text to be
searched for in the tree. A draft names at most one of these and a plain id, and a node that refers
has no children.
-/

namespace StoryAtlas

structure Draft where
  kind : Kind
  text : Option String := none
  label : Option String := none
  requirements : List String := []
  effects : List String := []
  continues : Option Int := none
  ref : Option Int := none
  refChildren : Option (List Int) := none
  refTarget : Option Int := none
  refSource : Option Int := none
  /-- The text of the node to refer to. -/
  refCreate : Option String := none
  /-- Among replaced children, whether to borrow the children of the first that has any. -/
  borrowsFirst : Bool := false
deriving DecidableEq, Repr, Inhabited

/-- A drafted subtree. -/
abbrev DraftTree := Rose Draft

namespace Draft

/-- How many ways of referring a draft uses. -/
def linkCount (draft : Draft) : Nat :=
  draft.ref.toList.length + draft.refSource.toList.length + draft.refCreate.toList.length

def broken (tree : DraftTree) : Option String :=
  if 1 < tree.value.linkCount then some "use at most one of ref, refSource and refCreate"
  else if tree.value.linkCount = 1 ∧ !tree.children.isEmpty then
    some "a node with a ref cannot declare children"
  else none

def withoutEmpty (texts : List String) : List String := texts.filter fun text => !text.isEmpty

/-- Drops the empty requirements and effects. -/
def settle (draft : Draft) : Draft :=
  { draft with
    requirements := withoutEmpty draft.requirements
    effects := withoutEmpty draft.effects }

open Schema Schema.Checked

def fieldNames : List String :=
  ["type", "text", "choiceLabel", "requirements", "effects", "numContinues", "ref", "refChildren",
    "refTarget", "refSource", "refCreate", "refChildrenFromFirstSibling", "children"]

/-- Checks the fields of a draft apart from its children. -/
def checkOwn (fields : Fields) : Checked Draft :=
  Draft.mk <$> requiredField fields "type" nodeKind <*>
    optionalField fields "text" none (nullable plainText) <*>
    optionalField fields "choiceLabel" none (nullable plainText) <*>
    optionalField fields "requirements" [] (list plainText) <*>
    optionalField fields "effects" [] (list plainText) <*>
    optionalField fields "numContinues" none (nullable natural) <*>
    optionalField fields "ref" none (nullable whole) <*>
    optionalField fields "refChildren" none (nullable (list whole)) <*>
    optionalField fields "refTarget" none (nullable whole) <*>
    optionalField fields "refSource" none (nullable whole) <*>
    optionalField fields "refCreate" none (nullable nonemptyText) <*>
    optionalField fields "refChildrenFromFirstSibling" false bool

/-- Puts a draft together with its children. -/
def assemble (own : Checked Draft) (children : Checked (List DraftTree)) (rest : Checked Unit) :
    Checked DraftTree :=
  ((Rose.node <$> own <*> children <* rest).andAlso broken).map fun tree =>
    tree.withValue tree.value.settle

mutual

def checkTree : Json → Checked DraftTree
  | .obj fields => assemble (checkOwn fields) (checkChildren fields) (nothingElse fieldNames fields)
  | _ => fail .modelType

/-- Checks the children among the fields of a draft. -/
def checkChildren : List (String × Json) → Checked (List DraftTree)
  | [] => valid []
  | (key, value) :: fields =>
    if key = "children" then
      match value with
      | .arr items => (checkTrees 0 items).under (.field "children")
      | _ => (fail .listType).under (.field "children")
    else checkChildren fields

def checkTrees : Nat → List Json → Checked (List DraftTree)
  | _, [] => valid []
  | index, item :: items =>
    List.cons <$> (checkTree item).under (.item index) <*> checkTrees (index + 1) items

end

def textField (name : String) (value : Option String) : List (String × Json) :=
  (value.map fun text => (name, Json.str text)).toList

def intField (name : String) (value : Option Int) : List (String × Json) :=
  (value.map fun number => (name, Json.int number)).toList

def listField (name : String) (items : List Json) : List (String × Json) :=
  if items.isEmpty then [] else [(name, .arr items)]

def flagField (name : String) (flag : Bool) : List (String × Json) :=
  if flag then [(name, .bool true)] else []

def ownFields (draft : Draft) : List (String × Json) :=
  ("type", .str draft.kind.name) :: (textField "text" draft.text ++
    textField "choiceLabel" draft.label ++
    listField "requirements" (draft.requirements.map .str) ++
    listField "effects" (draft.effects.map .str) ++
    intField "numContinues" draft.continues ++
    intField "ref" draft.ref ++
    (draft.refChildren.map fun ids => ("refChildren", Json.ofInts ids)).toList ++
    intField "refTarget" draft.refTarget ++
    intField "refSource" draft.refSource ++
    textField "refCreate" draft.refCreate ++
    flagField "refChildrenFromFirstSibling" draft.borrowsFirst)

mutual

/-- The draft as a document, without what is absent or as usual. -/
def toJson : DraftTree → Json
  | .node draft children => .obj (ownFields draft ++ listField "children" (toJsons children))

def toJsons : List DraftTree → List Json
  | [] => []
  | tree :: trees => toJson tree :: toJsons trees

end

end Draft

end StoryAtlas
