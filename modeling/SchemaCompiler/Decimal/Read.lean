/-!
# Reading decimals

The binary64 value nearest to a decimal numeral.
-/

namespace SchemaCompiler.Decimal

/-- The number that decimal digits stand for. -/
def digitsValue (digits : List Char) : Nat :=
  digits.foldl (fun value digit => 10 * value + (digit.toNat - '0'.toNat)) 0

/-- The value of `0.digits` shifted by the places before the point.  Beyond the range of binary64
it is infinite or zero. -/
def nearest (negative : Bool) (whole fraction : List Char) (exponent : Int) : Float :=
  let digits := digitsValue (whole ++ fraction)
  let exponent := exponent - (fraction.length : Int)
  let leading := exponent + (Nat.toDigits 10 digits).length
  let magnitude : Float :=
    if digits = 0 || leading < -400 then 0.0
    else if 400 < leading then Float.ofScientific 1 false 400
    else if exponent < 0 then Float.ofScientific digits true exponent.natAbs
    else Float.ofScientific digits false exponent.natAbs
  if negative then -magnitude else magnitude

end SchemaCompiler.Decimal
