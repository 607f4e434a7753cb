import SchemaCompiler.Decimal.Shortest

/-!
# Number layouts

How the digits of a decimal are set: in positions around a point, or as one leading digit with an
exponent.  Every decision is a field of `Layout`; a text format that prints numbers is one value
of it.
-/

namespace SchemaCompiler

/-- The decisions of a number format.  The exponent of a number is that of its leading digit. -/
structure Layout where
  /-- The least exponent set in positions; `none` when all are. -/
  positionalFrom : Option Int
  /-- The least larger exponent that is no longer set in positions; `none` when all are. -/
  positionalBelow : Option Int
  /-- Whole numbers set in positions end in `.0`. -/
  pointZero : Bool
  /-- A positive exponent carries its sign. -/
  exponentPlus : Bool
  tie : Decimal.Tie

namespace Layout

/-- Numbers on their own are set in positions throughout, whole ones without a point. -/
def plain : Layout where
  positionalFrom := none
  positionalBelow := none
  pointZero := false
  exponentPlus := false
  tie := .up

private def zeros (n : Nat) : List Char :=
  List.replicate n '0'

/-- Digits around a point. -/
def positional (layout : Layout) (digits : List Char) (exponent : Int) : List Char :=
  let places := -exponent
  if places ≤ 0 then
    digits ++ zeros exponent.toNat ++ if layout.pointZero then ['.', '0'] else []
  else if places < digits.length then
    let whole := digits.length - places.toNat
    digits.take whole ++ '.' :: digits.drop whole
  else
    '0' :: '.' :: zeros (places.toNat - digits.length) ++ digits

/-- One digit, the others behind a point, and the exponent of the first. -/
def scientific (layout : Layout) (digits : List Char) (leading : Int) : List Char :=
  let fraction :=
    match digits.drop 1 with
    | [] => []
    | rest => '.' :: rest
  let sign := if leading < 0 then ['-'] else if layout.exponentPlus then ['+'] else []
  digits.take 1 ++ fraction ++ 'e' :: sign ++ Nat.toDigits 10 leading.natAbs

def isPositional (layout : Layout) (leading : Int) : Bool :=
  layout.positionalFrom.all (· ≤ leading) && layout.positionalBelow.all (leading < ·)

/-- A decimal without its sign. -/
def magnitude (layout : Layout) (d : Decimal) : List Char :=
  let digits := Nat.toDigits 10 d.digits
  let leading := d.exponent + digits.length - 1
  if layout.isPositional leading then layout.positional digits d.exponent
  else layout.scientific digits leading

/-- A finite value: its sign, which zero has too, and the shortest decimal that reads back. -/
def write (layout : Layout) (value : Float) : String :=
  let sign := if value.toBits >>> 63 = 1 then ['-'] else []
  String.ofList (sign ++ layout.magnitude (Decimal.shortest layout.tie value))

end Layout

end SchemaCompiler
