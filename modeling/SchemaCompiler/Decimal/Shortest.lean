/-!
# Shortest decimals

Which decimal stands for a binary64 value: the one with the fewest digits among those that read
back as the value, and of several the nearest.  The search runs over exact natural numbers: a
value is `mid / unit`, and the decimals that read back lie between `low / unit` and
`high / unit`, the ends included exactly when the significand is even.
-/

namespace SchemaCompiler

/-- The decimal `digits * 10 ^ exponent`. -/
structure Decimal where
  digits : Nat
  exponent : Int
deriving Repr, DecidableEq

namespace Decimal

/-- Which of two equally near neighbours is taken. -/
inductive Tie where
  | even
  | up

/-- A positive value with the reals that round to it, over a common denominator. -/
structure Neighbourhood where
  low : Nat
  mid : Nat
  high : Nat
  unit : Nat
  closed : Bool

/-- The neighbourhood of `significand * 2 ^ exponent`; below a power of two the gap is half as
wide as above it. -/
def Neighbourhood.ofBinary (significand : Nat) (exponent : Int) (narrowBelow : Bool) :
    Neighbourhood :=
  let scale := Nat.pow 2 exponent.toNat
  { low := (4 * significand - if narrowBelow then 1 else 2) * scale
    mid := 4 * significand * scale
    high := (4 * significand + 2) * scale
    unit := 4 * Nat.pow 2 (-exponent).toNat
    closed := significand % 2 == 0 }

/-- The neighbourhood of the magnitude of a finite value, from its bits. -/
def Neighbourhood.ofBits (bits : UInt64) : Neighbourhood :=
  let biased := ((bits >>> 52) &&& 0x7FF).toNat
  let fraction := (bits &&& 0xFFFFFFFFFFFFF).toNat
  if biased = 0 then ofBinary fraction (-1074) false
  else ofBinary (0x10000000000000 + fraction) (biased - 1075) (fraction == 0 && 1 < biased)

namespace Neighbourhood

/-- `a * 10 ^ e` against `n / unit`, by cross multiplication. -/
def compareScaled (x : Neighbourhood) (a : Nat) (e : Int) (n : Nat) : Ordering :=
  compare (a * Nat.pow 10 e.toNat * x.unit) (n * Nat.pow 10 (-e).toNat)

/-- The decimal `a * 10 ^ e` reads back as the value. -/
def readsBack (x : Neighbourhood) (a : Nat) (e : Int) : Bool :=
  (match x.compareScaled a e x.low with
    | .gt => true
    | .eq => x.closed
    | .lt => false) &&
  (match x.compareScaled a e x.high with
    | .lt => true
    | .eq => x.closed
    | .gt => false)

/-- The least `k` for which the value lies below `10 ^ k`. -/
def magnitude (x : Neighbourhood) : Int :=
  if x.unit ≤ x.mid then (Nat.toDigits 10 (x.mid / x.unit)).length
  else
    let width := (Nat.toDigits 10 (x.unit / x.mid)).length
    if x.unit = x.mid * Nat.pow 10 (width - 1) then 2 - (width : Int) else 1 - (width : Int)

/-- Of the value's two neighbours among the multiples of `10 ^ e`, the nearer one that reads
back. -/
def onGrid (x : Neighbourhood) (tie : Tie) (e : Int) : Option Decimal :=
  let below := x.mid * Nat.pow 10 (-e).toNat / (x.unit * Nat.pow 10 e.toNat)
  let above := below + 1
  match x.readsBack below e, x.readsBack above e with
  | false, false => none
  | true, false => some ⟨below, e⟩
  | false, true => some ⟨above, e⟩
  | true, true =>
    match compare (2 * x.mid * Nat.pow 10 (-e).toNat)
        ((below + above) * Nat.pow 10 e.toNat * x.unit) with
    | .lt => some ⟨below, e⟩
    | .gt => some ⟨above, e⟩
    | .eq =>
      match tie with
      | .up => some ⟨above, e⟩
      | .even => some ⟨if below % 2 = 0 then below else above, e⟩

end Neighbourhood

/-- Moves trailing zeros of the digits into the exponent. -/
def stripZeros : Nat → Decimal → Decimal
  | 0, d => d
  | n + 1, d =>
    if d.digits % 10 = 0 then stripZeros n ⟨d.digits / 10, d.exponent + 1⟩ else d

/-- The decimal that stands for the magnitude of a finite value.  Seventeen digits always read
back; should none of the first seventeen grids hold a decimal, the exact value is given. -/
def shortest (tie : Tie) (value : Float) : Decimal :=
  let x := Neighbourhood.ofBits value.toBits
  if x.mid = 0 then ⟨0, 0⟩
  else
    let k := x.magnitude
    match (List.range 17).findSome? fun (n : Nat) => x.onGrid tie (k - (n + 1 : Nat)) with
    | some d => stripZeros 17 d
    | none => stripZeros 1100 ⟨x.mid * Nat.pow 10 1100 / x.unit, -1100⟩

end Decimal

end SchemaCompiler
