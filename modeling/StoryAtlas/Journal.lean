/-!
# The journal

Passes report to a journal: a list of entries in the order in which they were made, each with a
severity. What is shown of it is decided by the reader, who keeps the entries from some severity on.
-/

namespace StoryAtlas

inductive Severity where
  | debug
  | info
  | warning
  | error
  | critical
deriving DecidableEq, Repr

namespace Severity

def rank : Severity → Nat
  | debug => 10
  | info => 20
  | warning => 30
  | error => 40
  | critical => 50

def name : Severity → String
  | debug => "DEBUG"
  | info => "INFO"
  | warning => "WARNING"
  | error => "ERROR"
  | critical => "CRITICAL"

end Severity

structure Entry where
  severity : Severity
  message : String
deriving DecidableEq, Repr

namespace Entry

def text (entry : Entry) : String := entry.severity.name ++ " " ++ entry.message

end Entry

abbrev Journal := List Entry

namespace Journal

def debug (message : String) : Journal := [⟨.debug, message⟩]

def info (message : String) : Journal := [⟨.info, message⟩]

def warning (message : String) : Journal := [⟨.warning, message⟩]

def failure (message : String) : Journal := [⟨.error, message⟩]

/-- The entries from a rank on, as text. -/
def shownFrom (rank : Nat) (journal : Journal) : List String :=
  (journal.filter fun entry => rank ≤ entry.severity.rank).map Entry.text

/-- The entries that call for attention. -/
def alerts (journal : Journal) : List String := journal.shownFrom Severity.warning.rank

end Journal

end StoryAtlas
