/-!
# Checked values

Checking a document finds every issue in it and not only the first. A checked value is therefore
either a value or the list of issues in document order, and two checks side by side put their issues
together.
-/

namespace StoryAtlas.Schema

/-- One step on the way to the place of an issue. -/
inductive Step where
  | field (name : String)
  | item (index : Nat)
deriving DecidableEq, Repr

inductive IssueKind where
  | missing
  | modelType
  | listType
  | dictType
  | stringType
  | stringTooShort
  | enumeration
  | greaterThanEqual
  | boolType
  | boolParsing
  | intType
  | intParsing
  | intParsingSize
  | intFromFloat
  | finiteNumber
  | floatType
  | floatParsing
  | pathType
  | extraForbidden
  /-- A rule of the model itself, with the text of the rule. -/
  | valueError (rule : String)
deriving DecidableEq, Repr

namespace IssueKind

def name : IssueKind → String
  | missing => "missing"
  | modelType => "model_type"
  | listType => "list_type"
  | dictType => "dict_type"
  | stringType => "string_type"
  | stringTooShort => "string_too_short"
  | enumeration => "enum"
  | greaterThanEqual => "greater_than_equal"
  | boolType => "bool_type"
  | boolParsing => "bool_parsing"
  | intType => "int_type"
  | intParsing => "int_parsing"
  | intParsingSize => "int_parsing_size"
  | intFromFloat => "int_from_float"
  | finiteNumber => "finite_number"
  | floatType => "float_type"
  | floatParsing => "float_parsing"
  | pathType => "path_type"
  | extraForbidden => "extra_forbidden"
  | valueError _ => "value_error"

/-- The text of the issue, where there is more to say than its kind. -/
def rule? : IssueKind → Option String
  | valueError rule => some ("Value error, " ++ rule)
  | _ => none

end IssueKind

structure Issue where
  path : List Step
  kind : IssueKind
deriving DecidableEq, Repr

inductive Checked (α : Type) where
  | valid (value : α)
  | invalid (issues : List Issue)
deriving Repr

namespace Checked

variable {α β : Type}

def map (f : α → β) : Checked α → Checked β
  | valid value => valid (f value)
  | invalid issues => invalid issues

def combine : Checked (α → β) → Checked α → Checked β
  | valid f, valid value => valid (f value)
  | valid _, invalid issues => invalid issues
  | invalid issues, valid _ => invalid issues
  | invalid issues, invalid more => invalid (issues ++ more)

instance : Functor Checked where
  map := map

instance : Applicative Checked where
  pure := valid
  seq f x := combine f (x ())

/-- A single issue at the value itself. -/
def fail (kind : IssueKind) : Checked α := invalid [⟨[], kind⟩]

/-- Places the issues one step further down. -/
def under (step : Step) : Checked α → Checked α
  | valid value => valid value
  | invalid issues => invalid (issues.map fun issue => { issue with path := step :: issue.path })

/-- A rule that is looked at only if nothing else is wrong. -/
def andAlso (check : Checked α) (rule : α → Option String) : Checked α :=
  match check with
  | valid value =>
    match rule value with
    | some text => fail (.valueError text)
    | none => valid value
  | invalid issues => invalid issues

def andThen (check : Checked α) (next : α → Checked β) : Checked β :=
  match check with
  | valid value => next value
  | invalid issues => invalid issues

def toExcept : Checked α → Except (List Issue) α
  | valid value => .ok value
  | invalid issues => .error issues

end Checked

end StoryAtlas.Schema
