import StoryAtlas.Json.Basic
import StoryAtlas.Decimal.Binary
import StoryAtlas.Json.Reader
import StoryAtlas.Schema.Checked
import StoryAtlas.Text.Fold
import StoryAtlas.Text.Trim

/-!
# Checking single values

Texts are taken as they are. The other types are read with some tolerance: a truth value may be a
number or a word for it, a whole number may be a fraction without a fractional part or a numeral,
and a fraction may be any number or a numeral. A whole number that no double is near to is not taken
for a fraction.
-/

namespace StoryAtlas.Schema

open Checked

def plainText : Json → Checked String
  | .str value => valid value
  | _ => fail .stringType

def nonemptyText (value : Json) : Checked String :=
  (plainText value).andThen fun shown => if shown.isEmpty then fail .stringTooShort else valid shown

def trueWords : List String := ["1", "t", "true", "y", "yes", "on"]

def falseWords : List String := ["0", "f", "false", "n", "no", "off"]

def lowered (word : String) : String := String.ofList (word.toList.map Char.toLower)

/-- The largest whole number that a fraction may stand for. -/
def wholeLimit : Int := Decimal.twoTo 63

def wholeOfFraction (value : Float) : Checked Int :=
  match Decimal.read value with
  | .finite parts =>
    if parts.isWhole then
      let whole := parts.truncate
      if -wholeLimit < whole ∧ whole < wholeLimit then valid whole else fail .intParsingSize
    else fail .intFromFloat
  | _ => fail .finiteNumber

def boolOfWhole (value : Int) : Checked Bool :=
  if value = 0 then valid false else if value = 1 then valid true else fail .boolParsing

def bool : Json → Checked Bool
  | .bool value => valid value
  | .int value =>
    if -wholeLimit ≤ value ∧ value < wholeLimit then boolOfWhole value else fail .boolType
  | .float value =>
    match wholeOfFraction value with
    | valid whole => boolOfWhole whole
    | invalid _ => fail .boolType
  | .str word =>
    if trueWords.contains (lowered word) then valid true
    else if falseWords.contains (lowered word) then valid false
    else fail .boolParsing
  | _ => fail .boolType

/-- White space around a numeral; the four ASCII separators do not count. -/
def isPadding (c : Char) : Bool := Text.isBlank c && !(28 ≤ c.toNat && c.toNat < 32)

/-- The characters without underscores, if these stand one at a time and inside. -/
def withoutUnderscores (cs : List Char) : List Char :=
  if cs.head? = some '_' ∨ !Text.wellSpaced cs then cs else cs.filter (· != '_')

/-! ### Whole numbers -/

/-- How a text reads as a plain numeral: a minus sign or none, then ASCII digits of which the first
is no zero that others follow. -/
inductive PlainNumeral where
  | whole (value : Int)
  /-- The sign and the digits together are more than `Text.digitLimit`. -/
  | tooLong
  | malformed
deriving DecidableEq, Repr

namespace PlainNumeral

def ofDigits (negative : Bool) (cs : List Char) : PlainNumeral :=
  let digits := cs.takeWhile Char.isDigit
  if digits.head? = some '0' then if cs = ['0'] then whole 0 else malformed
  else if Text.digitLimit < digits.length + negative.toNat then tooLong
  else if cs.isEmpty || digits.length < cs.length then malformed
  else
    let magnitude : Int := Text.readDigits (Json.decimalDigits digits)
    whole (if negative then -magnitude else magnitude)

def ofChars : List Char → PlainNumeral
  | '-' :: rest => ofDigits true rest
  | cs => ofDigits false cs

end PlainNumeral

/-- What is left of a numeral after zeros and underscores, the last of which is given: the rest from
another digit, a minus sign or a point on, a point with what stands before it, and the last zero or
underscore where nothing follows. -/
def afterZeros (last : Char) : List Char → Option (List Char)
  | [] => some [last]
  | c :: rest =>
    if c = '0' ∨ c = '_' then afterZeros c rest
    else if c = '.' then some (last :: c :: rest)
    else if c.isDigit ∨ c = '-' then some (c :: rest)
    else none

def withoutLeadingZeros : List Char → Option (List Char)
  | '0' :: rest => afterZeros '0' rest
  | c :: rest => if c.isDigit ∨ c = '-' then some (c :: rest) else none
  | [] => none

/-- Drops a fraction of zeros; a point alone stays. -/
def withoutEmptyFraction (cs : List Char) : List Char :=
  let fraction := (cs.dropWhile (· != '.')).drop 1
  if !fraction.isEmpty && fraction.all (· == '0') then cs.takeWhile (· != '.') else cs

/-- A numeral without a sign in front, tidied. -/
def tidyMagnitude (cs : List Char) : Option (List Char) :=
  (withoutLeadingZeros cs).map fun rest => withoutUnderscores (withoutEmptyFraction rest)

/-- A numeral without white space around it, a plus sign, zeros in front, a fraction of zeros and
underscores inside; nothing if it cannot be one. -/
def tidyNumeral (cs : List Char) : Option (List Char) :=
  match Text.trimWhere isPadding cs with
  | '+' :: '-' :: _ => none
  | '+' :: rest => tidyMagnitude rest
  | '-' :: rest => (tidyMagnitude rest).map ('-' :: ·)
  | rest => tidyMagnitude rest

/-- A whole number written out: plain as it stands, or plain once it is tidied. Only a numeral that
needs no tidying can be too long. -/
def wholeOfWord (word : String) : Checked Int :=
  match PlainNumeral.ofChars word.toList with
  | .whole value => valid value
  | .tooLong => fail .intParsingSize
  | .malformed =>
    match (tidyNumeral word.toList).map PlainNumeral.ofChars with
    | some (.whole value) => valid value
    | _ => fail .intParsing

def whole : Json → Checked Int
  | .int value => valid value
  | .bool value => valid (if value then 1 else 0)
  | .float value => wholeOfFraction value
  | .str word => wholeOfWord word
  | _ => fail .intType

def natural (value : Json) : Checked Int :=
  (whole value).andThen fun number => if number < 0 then fail .greaterThanEqual else valid number

/-- The magnitude of a fraction: digits with an optional point and exponent, or a word. -/
def magnitudeOfWord (negative : Bool) (cs : List Char) : Option Float :=
  let small := cs.map Char.toLower
  if small = "inf".toList ∨ small = "infinity".toList then
    some (if negative then -1.0 / 0.0 else 1.0 / 0.0)
  else if small = "nan".toList then some (0.0 / 0.0)
  else
    let whole := cs.takeWhile Char.isDigit
    let afterWhole := cs.dropWhile Char.isDigit
    let (fraction, afterFraction) : List Char × List Char :=
      match afterWhole with
      | '.' :: rest => (rest.takeWhile Char.isDigit, rest.dropWhile Char.isDigit)
      | rest => ([], rest)
    let (exponent, rest) := Json.splitExponent afterFraction
    if (whole ++ fraction).isEmpty || !rest.isEmpty then none
    else
      let digits := Text.readDigits (Json.decimalDigits (whole ++ fraction))
      some (Json.nearestFloat negative digits (exponent.getD 0 - fraction.length))

/-- A fraction written out, with a sign or none. -/
def readFraction : List Char → Option Float
  | '-' :: rest => magnitudeOfWord true rest
  | '+' :: rest => magnitudeOfWord false rest
  | rest => magnitudeOfWord false rest

/-- A fraction with white space around it, or one with underscores and no white space. -/
def fractionOfWord (word : String) : Checked Float :=
  let cs := word.toList
  match (readFraction (Text.trimWhere isPadding cs)).or (readFraction (withoutUnderscores cs)) with
  | some value => valid value
  | none => fail .floatParsing

/-- The double nearest to a whole number. -/
def fractionOfWhole (value : Int) : Float := Json.nearestFloat (value < 0) value.natAbs 0

def fraction : Json → Checked Float
  | .float value => valid value
  | .int value =>
    let nearest := fractionOfWhole value
    if nearest.isInf then fail .floatType else valid nearest
  | .bool value => valid (if value then 1.0 else 0.0)
  | .str word => fractionOfWord word
  | _ => fail .floatType

end StoryAtlas.Schema
