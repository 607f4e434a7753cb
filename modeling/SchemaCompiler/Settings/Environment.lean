import SchemaCompiler.Decimal.Read
import SchemaCompiler.Settings.Setting
import SchemaCompiler.Text.Case

/-!
# Settings in the environment

A variable whose name starts with the name of the compiler sets the key that the rest of its name
spells, two underscores standing for a point.
-/

namespace SchemaCompiler.Setting

/-- What the name of a variable starts with. -/
def variableStart : List Char :=
  ['a', 'c', 'p', '_', 'c', 'o', 'd', 'e', 'g', 'e', 'n', '_', '_']

/-- Two underscores separate keys. -/
private def separateKeys : List Char → List Char
  | '_' :: '_' :: cs => '.' :: separateKeys cs
  | c :: cs => c :: separateKeys cs
  | [] => []

/-- The key that a variable sets. -/
def variableKey? (name : String) : Option String :=
  let lower := name.toList.flatMap Text.lower
  if variableStart.isPrefixOf lower then
    some (String.ofList (separateKeys (lower.drop variableStart.length)))
  else none

private def readSign : List Char → Bool × List Char
  | '-' :: cs => (true, cs)
  | '+' :: cs => (false, cs)
  | cs => (false, cs)

private def integerOf? (cs : List Char) : Option Int :=
  let (negative, digits) := readSign cs
  let magnitude : Int := Decimal.digitsValue digits
  let value := if negative then -magnitude else magnitude
  if !digits.isEmpty && digits.all Char.isDigit && IntWidth.int64.holds value then some value
  else none

/-- The exponent behind its letter; none where there is no letter. -/
private def exponentOf? (cs : List Char) : Option Int :=
  match cs with
  | [] => some 0
  | _ :: cs =>
    let (negative, digits) := readSign cs
    let magnitude : Int := Decimal.digitsValue digits
    if !digits.isEmpty && digits.all Char.isDigit then
      some (if negative then -magnitude else magnitude)
    else none

private def floatOf? (cs : List Char) : Option Float :=
  let (negative, cs) := readSign cs
  let signed (value : Float) : Float := if negative then -value else value
  let lower := String.ofList (cs.map Char.toLower)
  if lower = "inf" || lower = "infinity" then some (signed (1.0 / 0.0))
  else if lower = "nan" then some (signed (0.0 / 0.0))
  else
    let (mantissa, power) := cs.span fun c => c ≠ 'e' && c ≠ 'E'
    let (whole, behind) := mantissa.span (· ≠ '.')
    let fraction := behind.drop 1
    if (whole ++ fraction).isEmpty || !(whole ++ fraction).all Char.isDigit then none
    else (exponentOf? power).map (Decimal.nearest negative whole fraction)

/-- The value of a variable: a boolean, an integer or a number if it reads as one, else text. -/
def variableValue (text : String) : PlainValue :=
  let lower := String.ofList (text.toList.flatMap Text.lower)
  if lower = "true" then .flag true
  else if lower = "false" then .flag false
  else
    match integerOf? text.toList, floatOf? text.toList with
    | some value, _ => .integer value
    | none, some value => .float value
    | none, none => .text text

/-- The source made of the variables that are meant for the compiler. -/
def ofEnvironment (environment : List (String × String)) : Source :=
  environment.filterMap fun (name, value) =>
    (variableKey? name).map (·, .plain (some "the environment") (variableValue value))

end SchemaCompiler.Setting
