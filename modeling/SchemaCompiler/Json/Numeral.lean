import SchemaCompiler.IntWidth

/-!
# Numerals

The number that a numeral stands for.  A whole numeral within 64 bits is an integer, except that
`-0` is not.  Every other numeral is a binary64 value, found in two roundings: its leading digits
make a 64-bit significand, which is then multiplied or divided by one power of ten.
-/

namespace SchemaCompiler

/-- A numeral taken apart: the digits before and behind the point, and the exponent. -/
structure Numeral where
  negative : Bool
  whole : List Nat
  fraction : Option (List Nat)
  exponent : Option Int
deriving Repr, DecidableEq

namespace Numeral

def ofDigits (digits : List Nat) : Nat :=
  digits.foldl (fun value digit => 10 * value + digit) 0

/-- Appends digits to a significand while it stays within 64 bits; with the number of digits
taken. -/
def gather (significand : Nat) : List Nat → Nat × Nat
  | [] => (significand, 0)
  | digit :: rest =>
    let next := significand * 10 + digit
    if IntWidth.uint64.holds next then
      let (result, taken) := gather next rest
      (result, taken + 1)
    else (significand, 0)

def powerOfTen (n : Nat) : Float :=
  Float.ofScientific 1 false n

/-- Division by `10 ^ places`, in steps of at most `10 ^ 308`. -/
def scaleDown (value : Float) (places : Nat) : Float :=
  if places ≤ 308 then value / powerOfTen places
  else if value == 0 then value
  else scaleDown (value / powerOfTen 308) (places - 308)
termination_by places

/-- Multiplication by `10 ^ exponent`; there is no result beyond the largest finite value. -/
def scale (value : Float) (exponent : Int) : Option Float :=
  if exponent < 0 then some (scaleDown value exponent.natAbs)
  else if value == 0 then some value
  else if exponent ≤ 308 then
    let scaled := value * powerOfTen exponent.natAbs
    if scaled.isInf then none else some scaled
  else none

/-- The binary64 value of a numeral.  Digits before the point that no longer fit raise the
exponent, those behind it are dropped. -/
def float? (x : Numeral) : Option Float :=
  let (leading, takenWhole) := gather 0 x.whole
  let (significand, takenFraction) := gather leading (x.fraction.getD [])
  let exponent : Int :=
    x.exponent.getD 0 + (x.whole.length - takenWhole : Nat) - (takenFraction : Int)
  (scale significand.toUInt64.toFloat exponent).map fun value =>
    if x.negative then -value else value

/-- The number a numeral stands for; none if it exceeds every binary64 value. -/
def number? (x : Numeral) : Option Number :=
  match x.fraction, x.exponent with
  | none, none =>
    let value := ofDigits x.whole
    if x.negative then
      if 0 < value && IntWidth.int64.holds (-value) then some (.int (-value))
      else x.float?.map .float
    else if IntWidth.uint64.holds value then some (.int value)
    else x.float?.map .float
  | _, _ => x.float?.map .float

end Numeral

end SchemaCompiler
