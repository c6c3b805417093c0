import StoryAtlas.Text.Blank
import StoryAtlas.Text.Digit

/-!
# Whole numbers in texts

A numeral is an optional sign and decimal digits of any script, with single underscores allowed
between digits and white space around the whole. A run of more than `digitLimit` digits is refused
before anything after it is looked at.
-/

namespace StoryAtlas.Text

inductive NumeralError where
  | malformed
  | tooLong (digits : Nat)
deriving DecidableEq, Repr

/-- The longest run of digits that is read as a number. -/
def digitLimit : Nat := 4300

/-- White space around a numeral; the four ASCII separators do not count. -/
def isNumeralBlank (c : Char) : Bool := isBlank c && !(28 ≤ c.toNat && c.toNat < 32)

def isNumeralChar (c : Char) : Bool := isDigit c || c == '_'

/-- Underscores stand one at a time and between digits. -/
def wellSpaced : List Char → Bool
  | [] => false
  | [c] => c != '_'
  | c :: d :: cs => !(c == '_' && d == '_') && wellSpaced (d :: cs)

def readMagnitude (cs : List Char) : Except NumeralError Nat :=
  let run := cs.takeWhile isNumeralChar
  let digits := run.filterMap digitValue?
  if run.head? = some '_' ∨ !wellSpaced run then .error .malformed
  else if digitLimit < digits.length then .error (.tooLong digits.length)
  else if (cs.dropWhile isNumeralChar).all isNumeralBlank then .ok (readDigits digits)
  else .error .malformed

def readInt (cs : List Char) : Except NumeralError Int :=
  match cs.dropWhile isNumeralBlank with
  | '-' :: rest => (readMagnitude rest).map fun magnitude => -(magnitude : Int)
  | '+' :: rest => (readMagnitude rest).map Int.ofNat
  | rest => (readMagnitude rest).map Int.ofNat

/-- Reads a bare run of digits, as a recogniser finds it. -/
def readRun (run : List Char) : Except NumeralError Int :=
  let digits := run.filterMap digitValue?
  if digitLimit < digits.length then .error (.tooLong digits.length)
  else .ok (readDigits digits)

end StoryAtlas.Text
