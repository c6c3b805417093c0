import StoryAtlas.Fault
import StoryAtlas.Schema.Checked

/-!
# Failures of a run

A failure names what could not be used and why, under a code that those who call the library can
test. When the reason is a document that is not written in the notation, or a file that cannot be
read, its wording is a matter of the reader that found it.

A run can also be halted by a document that breaks the rules of its model, or by a fault in a value
that nothing on the way is made to contain.
-/

namespace StoryAtlas

/-- What could not be used. -/
inductive Subject where
  | bytecode (unit : String)
  | lookup (url : String)
  | engine (path : String)
  | input (path : String)
deriving DecidableEq, Repr

/-- Why it could not be used. -/
inductive Reason where
  | told (text : String)
  /-- The document is not written in the notation. -/
  | malformed
  /-- There is no such file, or it is no text. -/
  | unreadable
deriving DecidableEq, Repr

structure Failure where
  subject : Subject
  reason : Reason
deriving DecidableEq, Repr

namespace Subject

def code : Subject → String
  | bytecode _ => "BYTECODE_PARSE_FAILED"
  | lookup _ => "NAME_LOOKUP_FAILED"
  | engine _ => "STORY_ENGINE_UNAVAILABLE"
  | input _ => "UNIT_INPUT_INVALID"

end Subject

namespace Reason

def text : Reason → String
  | told text => text
  | malformed => "malformed document"
  | unreadable => "unreadable file"

/-- Whether the wording is fixed by this library. -/
def isFixed : Reason → Bool
  | told _ => true
  | _ => false

end Reason

namespace Failure

def code (failure : Failure) : String := failure.subject.code

def message (failure : Failure) : String :=
  let detail := failure.reason.text
  match failure.subject with
  | .bytecode unit =>
    "story bytecode for " ++ Text.quoted unit ++ " is not valid JSON (" ++ detail ++ ")"
  | .lookup url => "name lookup failed for " ++ url ++ ": " ++ detail
  | .engine path => "cannot load story engine factory " ++ Text.quoted path ++ ": " ++ detail
  | .input path => "input file " ++ path ++ " is invalid: " ++ detail

end Failure

/-- What halts a run. -/
inductive Halt where
  | failure (failure : Failure)
  | invalid (issues : List Schema.Issue)
  | fault (fault : Fault)

namespace Halt

def told (subject : Subject) (text : String) : Halt := failure ⟨subject, .told text⟩

end Halt

end StoryAtlas
