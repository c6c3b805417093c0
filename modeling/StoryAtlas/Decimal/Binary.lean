/-!
# Binary fractions

A finite floating-point number is a sign and a magnitude `mantissa * 2 ^ exponent`. This module
reads both off the sixty-four bits, so that all further arithmetic on the value is exact.
-/

namespace StoryAtlas.Decimal

def twoTo (exponent : Nat) : Nat := Nat.pow 2 exponent

structure Binary where
  negative : Bool
  mantissa : Nat
  exponent : Int
deriving DecidableEq, Repr

inductive Reading where
  | finite (value : Binary)
  | infinite (negative : Bool)
  | notANumber
deriving DecidableEq, Repr

/-- The fields of a double: a sign bit, eleven bits of exponent and fifty-two of fraction. -/
def readBits (bits : Nat) : Reading :=
  let negative : Bool := bits / twoTo 63 % 2 == 1
  let field : Nat := bits / twoTo 52 % twoTo 11
  let fraction : Nat := bits % twoTo 52
  if field = 2047 then
    if fraction = 0 then .infinite negative else .notANumber
  else if field = 0 then .finite ⟨negative, fraction, -1074⟩
  else .finite ⟨negative, twoTo 52 + fraction, (field : Int) - 1075⟩

def read (x : Float) : Reading := readBits x.toBits.toNat

namespace Binary

/-- The value without its fraction. -/
def truncate (x : Binary) : Int :=
  let magnitude :=
    if 0 ≤ x.exponent then x.mantissa * twoTo x.exponent.toNat
    else x.mantissa / twoTo (-x.exponent).toNat
  if x.negative then -(magnitude : Int) else magnitude

def isWhole (x : Binary) : Bool :=
  0 ≤ x.exponent || x.mantissa % twoTo (-x.exponent).toNat == 0

end Binary

end StoryAtlas.Decimal
