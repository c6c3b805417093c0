import StoryAtlas.Decimal.Binary

/-!
# Shortest decimal texts

A floating-point number is written with the fewest digits that read back as the same number, the
nearest such decimal if there are several. All arithmetic is on natural numbers: the numbers that
read back as a value form an interval around it, and the coarsest decimal grid with a point in that
interval gives the digits. If any point of a grid lies in the interval, one of the two grid points
next to the value does.
-/

namespace StoryAtlas.Decimal

def tenTo (exponent : Nat) : Nat := Nat.pow 10 exponent

/-- Four times a magnitude and the ends of the interval that reads back as it, over a common
denominator. The lower half of the interval is shorter at a power of two. -/
structure Interval where
  low : Nat
  value : Nat
  high : Nat
  denominator : Nat
  closed : Bool

def intervalAround (mantissa : Nat) (exponent : Int) : Interval :=
  let scale := twoTo exponent.toNat
  let below := if mantissa = twoTo 52 ∧ exponent ≠ -1074 then 1 else 2
  { low := (4 * mantissa - below) * scale
    value := 4 * mantissa * scale
    high := (4 * mantissa + 2) * scale
    denominator := 4 * twoTo (-exponent).toNat
    closed := mantissa % 2 == 0 }

/-- The point `count * 10 ^ power` lies in the interval. -/
def Interval.admits (range : Interval) (count : Nat) (power : Int) : Bool :=
  let point := count * tenTo power.toNat * range.denominator
  let lift := tenTo (-power).toNat
  if range.closed then range.low * lift ≤ point && point ≤ range.high * lift
  else range.low * lift < point && point < range.high * lift

/-- The grid point of the interval next to the value, the even one of two equally near. -/
def Interval.nearest (range : Interval) (power : Int) : Option Nat :=
  let unit := tenTo power.toNat * range.denominator
  let target := range.value * tenTo (-power).toNat
  let under := target / unit
  let above := under + 1
  match range.admits under power, range.admits above power with
  | true, true =>
    let twice := 2 * (target % unit)
    if twice < unit ∨ twice = unit ∧ under % 2 = 0 then some under else some above
  | true, false => some under
  | false, true => some above
  | false, false => none

/-- Tries finer and finer grids. -/
def coarsest (range : Interval) : Nat → Int → Nat × Int
  | 0, power => (0, power)
  | tries + 1, power =>
    match range.nearest power with
    | some count => (count, power)
    | none => coarsest range tries (power - 1)

/-- How a decimal is laid out: the point is placed among the digits for exponents in a range, and an
exponent is written otherwise. -/
structure Layout where
  leastPositional : Int
  mostPositional : Int
  exponentMark : String
  exponentDigits : Nat
  notANumber : String
  infinity : String

def padLeft (width : Nat) (fill : Char) (cs : List Char) : List Char :=
  List.replicate (width - cs.length) fill ++ cs

def digitsOf (number : Nat) : List Char := Nat.toDigits 10 number

/-- Lays out the digits of a positive number whose first digit has the weight `10 ^ exponent`. -/
def Layout.place (layout : Layout) (digits : List Char) (exponent : Int) : List Char :=
  if layout.leastPositional ≤ exponent ∧ exponent ≤ layout.mostPositional then
    if exponent < 0 then
      '0' :: '.' :: List.replicate (-exponent - 1).toNat '0' ++ digits
    else
      let whole := exponent.toNat + 1
      let fraction := digits.drop whole
      digits.take whole ++ List.replicate (whole - digits.length) '0' ++ '.' ::
        (if fraction.isEmpty then ['0'] else fraction)
  else
    let fraction := digits.drop 1
    let sign := if exponent < 0 then '-' else '+'
    digits.take 1 ++ (if fraction.isEmpty then [] else '.' :: fraction) ++
      layout.exponentMark.toList ++ sign ::
        padLeft layout.exponentDigits '0' (digitsOf exponent.natAbs)

def Layout.write (layout : Layout) : Reading → List Char
  | .notANumber => layout.notANumber.toList
  | .infinite negative => (if negative then ['-'] else []) ++ layout.infinity.toList
  | .finite ⟨negative, mantissa, exponent⟩ =>
    let sign := if negative then ['-'] else []
    if mantissa = 0 then sign ++ ['0', '.', '0']
    else
      let (count, power) := coarsest (intervalAround mantissa exponent) 700 310
      let digits := digitsOf count
      sign ++ layout.place digits (power + digits.length - 1)

end StoryAtlas.Decimal
