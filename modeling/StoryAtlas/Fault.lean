import StoryAtlas.Json.Display
import StoryAtlas.Json.Reader
import StoryAtlas.Text.Trim

/-!
# Faults

What can be wrong with a value that the library is given, each with the text that reports it. The
wording is part of the answer, since warnings and run failures quote it.
-/

namespace StoryAtlas

inductive Fault where
  /-- A text where a whole number was wanted. -/
  | badNumeral (text : String)
  /-- A run of digits beyond the limit. -/
  | numeralTooLong (digits : Nat)
  /-- A value of a type that is never a number. -/
  | notNumeric (kind : String)
  /-- The float that is no number cannot be made whole. -/
  | wholeOfNaN
  | wholeOfInfinity
  | notIterable (kind : String)
  /-- A value of a type that is never looked for among others. -/
  | unsearchable (kind : String)
  /-- A value of a type that has no beginning. -/
  | indivisible (kind : String)
  /-- A value of a type that has no length. -/
  | immeasurable (kind : String)
  | unknownKind (value : Json)
  | missingField (name : String)
  | notANode
  | unnamedTree
  /-- The story stopped while it was played. -/
  | story (report : String)
  /-- No node of the tree carries the id that a request names. -/
  | noNode (id : Int)
  /-- A module path that starts at no module. -/
  | relativePath (name : String)

namespace Fault

/-- A quoted text is cut where a report would grow too long. -/
def numeralReportLimit : Nat := 200

def message : Fault → String
  | badNumeral text =>
    "invalid literal for int() with base 10: " ++ Text.clip numeralReportLimit (Text.quoted text)
  | numeralTooLong digits =>
    "Exceeds the limit (" ++ toString Text.digitLimit ++
      " digits) for integer string conversion: value has " ++ toString digits ++
      " digits; use sys.set_int_max_str_digits() to increase the limit"
  | notNumeric kind =>
    "int() argument must be a string, a bytes-like object or a real number, not '" ++ kind ++ "'"
  | wholeOfNaN => "cannot convert float NaN to integer"
  | wholeOfInfinity => "cannot convert float infinity to integer"
  | notIterable kind => "'" ++ kind ++ "' object is not iterable"
  | unsearchable kind => "unhashable type: '" ++ kind ++ "'"
  | indivisible kind => "'" ++ kind ++ "' object is not subscriptable"
  | immeasurable kind => "object of type '" ++ kind ++ "' has no len()"
  | unknownKind value => Json.literal value ++ " is not a valid NodeType"
  | missingField name => Text.quoted name
  | notANode => "node payload must be an object"
  | unnamedTree => "tree payload must be an object with a name"
  | story report => report
  | noNode id => "no node " ++ toString id
  | relativePath name =>
    "the 'package' argument is required to perform a relative import for " ++ Text.quoted name

def ofNumeral (text : String) : Text.NumeralError → Fault
  | .malformed => badNumeral text
  | .tooLong digits => numeralTooLong digits

end Fault

/-- Reads a text as a whole number. -/
def wholeOfText (text : String) : Except Fault Int :=
  (Text.readInt text.toList).mapError (Fault.ofNumeral text)

/-- The number of a run of digits found in a text. -/
def wholeOfRun (run : List Char) : Except Fault Int :=
  (Text.readRun run).mapError (Fault.ofNumeral (String.ofList run))

def wholeOfFloat (value : Float) : Except Fault Int :=
  match Decimal.read value with
  | .finite parts => .ok parts.truncate
  | .infinite _ => .error .wholeOfInfinity
  | .notANumber => .error .wholeOfNaN

namespace Json

/-- A whole number, given as one, as a truth value, as a fraction to be cut, or as a numeral. -/
def toWhole : Json → Except Fault Int
  | int value => .ok value
  | bool value => .ok (if value then 1 else 0)
  | float value => wholeOfFloat value
  | str text => wholeOfText text
  | value => .error (.notNumeric value.kindName)

/-- The members of anything that has members: items, characters or keys. -/
def members : Json → Except Fault (List Json)
  | arr items => .ok items
  | str text => .ok (text.toList.map fun c => str (String.singleton c))
  | obj fields => .ok (fields.map fun field => str field.1)
  | value => .error (.notIterable value.kindName)

/-- The members of a field that may be absent or void. -/
def membersOrNone (value : Option Json) : Except Fault (List Json) :=
  match value with
  | none => .ok []
  | some value => if value.isVoid then .ok [] else value.members

end Json

end StoryAtlas
