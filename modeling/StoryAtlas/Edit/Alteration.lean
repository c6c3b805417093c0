import StoryAtlas.Edit.Draft

/-!
# Alterations

An alteration selects nodes and says what is done to them. Several actions may be given together. A
removal hides all others, a replacement of the node hides the rest, and so does a replacement of its
children; added requirements, a modification and an added child apply one after the other.
-/

namespace StoryAtlas

structure Modification where
  removeRef : Bool := false
  removeText : Bool := false
  removeContinues : Bool := false
  removeChildren : Bool := false
  kind : Option Kind := none
  refCreate : Option String := none
  refCreateOpening : Option String := none
deriving DecidableEq, Repr

structure Alteration where
  find : Selector
  addRequirements : Option (List String) := none
  addChild : Option DraftTree := none
  replaceNode : Option DraftTree := none
  replaceChildren : Option (List DraftTree) := none
  modify : Option Modification := none
  remove : Bool := false

/-- The alterations of one unit. -/
structure UnitAlterations where
  name : String
  alterations : List Alteration := []

open Schema Schema.Checked

namespace Modification

def fieldNames : List String :=
  ["removeRef", "removeText", "removeNumContinues", "removeChildren", "type", "refCreate",
    "refCreateStartsWith"]

def check : Json → Checked Modification := object fun fields =>
  Modification.mk <$> optionalField fields "removeRef" false bool <*>
    optionalField fields "removeText" false bool <*>
    optionalField fields "removeNumContinues" false bool <*>
    optionalField fields "removeChildren" false bool <*>
    optionalField fields "type" none (nullable nodeKind) <*>
    optionalField fields "refCreate" none (nullable nonemptyText) <*>
    optionalField fields "refCreateStartsWith" none (nullable nonemptyText) <*
    nothingElse fieldNames fields

def toJson (change : Modification) : Json :=
  .obj (Draft.flagField "removeRef" change.removeRef ++
    Draft.flagField "removeText" change.removeText ++
    Draft.flagField "removeNumContinues" change.removeContinues ++
    Draft.flagField "removeChildren" change.removeChildren ++
    Draft.textField "type" (change.kind.map Kind.name) ++
    Draft.textField "refCreate" change.refCreate ++
    Draft.textField "refCreateStartsWith" change.refCreateOpening)

end Modification

namespace Alteration

def fieldNames : List String :=
  ["find", "addRequirements", "addChild", "replaceNode", "replaceChildren", "modifyNode",
    "removeNode"]

def isIdle (alteration : Alteration) : Bool :=
  !alteration.remove && alteration.addRequirements.isNone && alteration.addChild.isNone &&
    alteration.replaceNode.isNone && alteration.replaceChildren.isNone && alteration.modify.isNone

def check : Json → Checked Alteration := object fun fields =>
  (Alteration.mk <$> requiredField fields "find" Selector.check <*>
    optionalField fields "addRequirements" none (nullable (list plainText)) <*>
    optionalField fields "addChild" none (nullable Draft.checkTree) <*>
    optionalField fields "replaceNode" none (nullable Draft.checkTree) <*>
    optionalField fields "replaceChildren" none (nullable (list Draft.checkTree)) <*>
    optionalField fields "modifyNode" none (nullable Modification.check) <*>
    optionalField fields "removeNode" false bool <*
    nothingElse fieldNames fields).andAlso fun alteration =>
      if alteration.isIdle then some "alteration declares no action" else none

def toJson (alteration : Alteration) : Json :=
  .obj (("find", alteration.find.toJson) ::
    ((alteration.addRequirements.map fun texts =>
      ("addRequirements", Json.ofStrings texts)).toList ++
    (alteration.addChild.map fun tree => ("addChild", Draft.toJson tree)).toList ++
    (alteration.replaceNode.map fun tree => ("replaceNode", Draft.toJson tree)).toList ++
    (alteration.replaceChildren.map fun trees =>
      ("replaceChildren", Json.arr (Draft.toJsons trees))).toList ++
    (alteration.modify.map fun change => ("modifyNode", change.toJson)).toList ++
    Draft.flagField "removeNode" alteration.remove))

end Alteration

namespace UnitAlterations

def checkOne : Json → Checked UnitAlterations := object fun fields =>
  UnitAlterations.mk <$> requiredField fields "name" nonemptyText <*>
    optionalField fields "alterations" [] (list Alteration.check) <*
    nothingElse ["name", "alterations"] fields

/-- Checks the alterations of all units before any is applied. -/
def check : Json → Checked (List UnitAlterations) := list checkOne

def toJson (unit : UnitAlterations) : Json :=
  .obj (("name", .str unit.name) ::
    Draft.listField "alterations" (unit.alterations.map Alteration.toJson))

/-- All alterations of each unit, those of repeated entries one after the other. -/
def byUnit (units : List UnitAlterations) : Register String (List Alteration) :=
  units.foldl (fun grouped unit =>
    Register.put unit.name ((Register.get? unit.name grouped).getD [] ++ unit.alterations)
      grouped) []

end UnitAlterations

end StoryAtlas
