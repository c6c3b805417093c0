import StoryAtlas.Json.Basic
import StoryAtlas.Text.Numeral

/-!
# Reading documents

The reader accepts the interchange notation together with the three words for the numbers that have
no digits. A repeated key keeps its first place and its last value. The text has to hold one value
and nothing else; a byte-order mark in front is nothing that a value starts with.

Reading stops at the first fault from the left. A whole number with more digits than
`Text.digitLimit` is a fault of its own; fractions have no such limit.
-/

namespace StoryAtlas.Json

inductive ReadError where
  | malformed
  | numberTooLong (digits : Nat)
deriving DecidableEq, Repr

def isGap (c : Char) : Bool := c == ' ' || c == '\n' || c == '\t' || c == '\r'

def skipGap (cs : List Char) : List Char := cs.dropWhile isGap

def hexValue? (c : Char) : Option Nat :=
  if '0' ≤ c ∧ c ≤ '9' then some (c.toNat - 48)
  else if 'a' ≤ c ∧ c ≤ 'f' then some (c.toNat - 87)
  else if 'A' ≤ c ∧ c ≤ 'F' then some (c.toNat - 55)
  else none

def readHex (a b c d : Char) : Option Nat := do
  return (((← hexValue? a) * 16 + (← hexValue? b)) * 16 + (← hexValue? c)) * 16 + (← hexValue? d)

def shortEscape? : Char → Option Char
  | '"' => some '"'
  | '\\' => some '\\'
  | '/' => some '/'
  | 'b' => some '\x08'
  | 'f' => some '\x0c'
  | 'n' => some '\n'
  | 'r' => some '\r'
  | 't' => some '\t'
  | _ => none

/-- A first half of a surrogate pair that no second half follows. -/
def flush (half : Option Nat) (done : List Char) : List Char :=
  if half.isSome then '\ufffd' :: done else done

/-- Takes one code unit: a pair of surrogates makes one character. -/
def takeUnit (half : Option Nat) (done : List Char) (unit : Nat) : Option Nat × List Char :=
  if 0xd800 ≤ unit ∧ unit < 0xdc00 then (some unit, flush half done)
  else if 0xdc00 ≤ unit ∧ unit < 0xe000 then
    match half with
    | some high => (none, Char.ofNat (0x10000 + (high - 0xd800) * 0x400 + (unit - 0xdc00)) :: done)
    | none => (none, '\ufffd' :: done)
  else (none, Char.ofNat unit :: flush half done)

/-- Reads a string after its opening quote; the characters so far are in reverse. -/
def readString (half : Option Nat) (done : List Char) :
    List Char → Except ReadError (List Char × List Char)
  | '"' :: rest => .ok ((flush half done).reverse, rest)
  | '\\' :: 'u' :: a :: b :: c :: d :: rest =>
    match readHex a b c d with
    | some unit =>
      let taken := takeUnit half done unit
      readString taken.1 taken.2 rest
    | none => .error .malformed
  | '\\' :: c :: rest =>
    match shortEscape? c with
    | some char => readString none (char :: flush half done) rest
    | none => .error .malformed
  | c :: rest =>
    if c.toNat < 32 ∨ c = '\\' then .error .malformed
    else readString none (c :: flush half done) rest
  | [] => .error .malformed

/-- The double nearest to `digits * 10 ^ exponent`. -/
def nearestFloat (negative : Bool) (digits : Nat) (exponent : Int) : Float :=
  let size : Int := (Nat.log2 digits : Int) * 3 / 10 + exponent
  let magnitude :=
    if digits = 0 ∨ size < -400 then 0.0
    else if 400 < size then 1.0 / 0.0
    else Float.ofScientific digits (exponent < 0) exponent.natAbs
  if negative then -magnitude else magnitude

def decimalDigits (cs : List Char) : List Nat := cs.map fun c => c.toNat - 48

/-- The digits after a point, if a point and at least one digit stand here. -/
def splitFraction : List Char → List Char × List Char
  | '.' :: rest =>
    let run := rest.takeWhile Char.isDigit
    if run.isEmpty then ([], '.' :: rest) else (run, rest.dropWhile Char.isDigit)
  | rest => ([], rest)

/-- The exponent, if its mark and at least one digit stand here. -/
def splitExponent (cs : List Char) : Option Int × List Char :=
  match cs with
  | mark :: rest =>
    if mark = 'e' ∨ mark = 'E' then
      let signed : Bool × List Char :=
        match rest with
        | '-' :: after => (true, after)
        | '+' :: after => (false, after)
        | after => (false, after)
      let run := signed.2.takeWhile Char.isDigit
      if run.isEmpty then (none, cs)
      else
        let magnitude : Int := Text.readDigits (decimalDigits run)
        (some (if signed.1 then -magnitude else magnitude), signed.2.dropWhile Char.isDigit)
    else (none, cs)
  | [] => (none, cs)

/-- The whole part of a number: a zero alone, or digits that start with another. -/
def splitWhole : List Char → Option (List Char × List Char)
  | '0' :: rest => some (['0'], rest)
  | cs =>
    let run := cs.takeWhile Char.isDigit
    if run.isEmpty then none else some (run, cs.dropWhile Char.isDigit)

def readNumber (negative : Bool) (cs : List Char) : Except ReadError (Json × List Char) :=
  match splitWhole cs with
  | none => .error .malformed
  | some (whole, afterWhole) =>
    let (fraction, afterFraction) := splitFraction afterWhole
    let (exponent, rest) := splitExponent afterFraction
    if fraction.isEmpty && exponent.isNone then
      if Text.digitLimit < whole.length then .error (.numberTooLong whole.length)
      else
        let magnitude : Int := Text.readDigits (decimalDigits whole)
        .ok (.int (if negative then -magnitude else magnitude), rest)
    else
      let digits := Text.readDigits (decimalDigits (whole ++ fraction))
      .ok (.float (nearestFloat negative digits (exponent.getD 0 - fraction.length)), rest)

mutual

/-- Reads one value; the first argument bounds the nesting together with the length. -/
def readValue : Nat → List Char → Except ReadError (Json × List Char)
  | 0, _ => .error .malformed
  | fuel + 1, cs =>
    match cs with
    | '"' :: rest =>
      (readString none [] rest).map fun (text, after) => (.str (String.ofList text), after)
    | '\x7b' :: rest =>
      match skipGap rest with
      | '\x7d' :: after => .ok (.obj [], after)
      | after => readFields fuel [] after
    | '[' :: rest =>
      match skipGap rest with
      | ']' :: after => .ok (.arr [], after)
      | after => readItems fuel [] after
    | 'n' :: 'u' :: 'l' :: 'l' :: rest => .ok (.null, rest)
    | 't' :: 'r' :: 'u' :: 'e' :: rest => .ok (.bool true, rest)
    | 'f' :: 'a' :: 'l' :: 's' :: 'e' :: rest => .ok (.bool false, rest)
    | 'N' :: 'a' :: 'N' :: rest => .ok (.float (0.0 / 0.0), rest)
    | 'I' :: 'n' :: 'f' :: 'i' :: 'n' :: 'i' :: 't' :: 'y' :: rest => .ok (.float (1.0 / 0.0), rest)
    | '-' :: 'I' :: 'n' :: 'f' :: 'i' :: 'n' :: 'i' :: 't' :: 'y' :: rest =>
      .ok (.float (-1.0 / 0.0), rest)
    | '-' :: rest => readNumber true rest
    | rest => readNumber false rest

/-- Reads the items of a list up to its closing bracket. -/
def readItems : Nat → List Json → List Char → Except ReadError (Json × List Char)
  | 0, _, _ => .error .malformed
  | fuel + 1, done, cs =>
    match readValue fuel cs with
    | .error fault => .error fault
    | .ok (item, rest) =>
      match skipGap rest with
      | ',' :: after => readItems fuel (item :: done) (skipGap after)
      | ']' :: after => .ok (.arr (item :: done).reverse, after)
      | _ => .error .malformed

/-- Reads the fields of an object up to its closing brace. -/
def readFields : Nat → List (String × Json) → List Char → Except ReadError (Json × List Char)
  | 0, _, _ => .error .malformed
  | fuel + 1, done, cs =>
    match cs with
    | '"' :: quoted =>
      match readString none [] quoted with
      | .error fault => .error fault
      | .ok (key, rest) =>
        match skipGap rest with
        | ':' :: afterColon =>
          match readValue fuel (skipGap afterColon) with
          | .error fault => .error fault
          | .ok (value, rest) =>
            let fields := Register.put (String.ofList key) value done
            match skipGap rest with
            | ',' :: after => readFields fuel fields (skipGap after)
            | '\x7d' :: after => .ok (.obj fields, after)
            | _ => .error .malformed
        | _ => .error .malformed
    | _ => .error .malformed

end

/-- Reads a text that holds one document. -/
def parse (text : String) : Except ReadError Json :=
  let cs := skipGap text.toList
  match readValue (2 * cs.length + 2) cs with
  | .error fault => .error fault
  | .ok (value, rest) => if (skipGap rest).isEmpty then .ok value else .error .malformed

end StoryAtlas.Json
