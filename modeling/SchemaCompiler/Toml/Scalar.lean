import SchemaCompiler.Decimal.Read
import SchemaCompiler.IntWidth
import SchemaCompiler.Toml.Moment
import SchemaCompiler.Toml.Quoted

/-!
# Scalars in TOML

A word is the run of characters up to the next separator; it is a boolean, a number or a
moment, or nothing at all.
-/

namespace SchemaCompiler.Toml

/-- A character that can stand in a boolean, a number or a moment. -/
def isWordChar (c : Char) : Bool :=
  c.isAlphanum || c = '+' || c = '-' || c = '.' || c = '_' || c = ':'

/-- Digits with single underscores between them, without the underscores. -/
def digits? (isDigit : Char → Bool) : List Char → Option (List Char)
  | [] => none
  | [c] => if isDigit c then some [c] else none
  | c :: '_' :: rest =>
    if isDigit c then (digits? isDigit rest).map (c :: ·) else none
  | c :: rest => if isDigit c then (digits? isDigit rest).map (c :: ·) else none

/-- Decimal digits of which a zero only comes first if it is alone. -/
def wholeDigits? (cs : List Char) : Option (List Char) :=
  match digits? Char.isDigit cs with
  | some ('0' :: _ :: _) => none
  | result => result

/-- An integer of 64 bits with a sign. -/
def integerWithin? (value : Int) : Option Json :=
  if IntWidth.int64.holds value then some (.number (.int value)) else none

def radix? (base : Nat) (cs : List Char) : Option Json := do
  let isDigit (c : Char) : Bool := (hexValue? c).any (· < base)
  let values ← (← digits? isDigit cs).mapM hexValue?
  integerWithin? (values.foldl (fun n digit => base * n + digit) 0 : Nat)

def sign : List Char → Bool × List Char
  | '-' :: rest => (true, rest)
  | '+' :: rest => (false, rest)
  | rest => (false, rest)

def integer? (cs : List Char) : Option Json := do
  let (negative, rest) := sign cs
  let value : Int := Decimal.digitsValue (← wholeDigits? rest)
  integerWithin? (if negative then -value else value)

/-- The exponent behind a letter, which may start with zeros. -/
def exponent? (cs : List Char) : Option Int := do
  let (negative, rest) := sign cs
  let value : Int := Decimal.digitsValue (← digits? Char.isDigit rest)
  some (if negative then -value else value)

/-- A number with a fraction or an exponent.  One that is too large is refused, and one that is too
far below zero is negative infinity. -/
def float? (cs : List Char) : Option Json := do
  let (negative, rest) := sign cs
  let (mantissa, power) := rest.span fun c => c ≠ 'e' && c ≠ 'E'
  let (before, behind) := mantissa.span (· ≠ '.')
  if power.isEmpty && behind.isEmpty then none
  let whole ← wholeDigits? before
  let fraction ← if behind.isEmpty then some [] else digits? Char.isDigit (behind.drop 1)
  let exponent ← if power.isEmpty then some 0 else exponent? (power.drop 1)
  let value := Decimal.nearest negative whole fraction exponent
  if value.isInf && !negative then none else some (.number (.float value))

def special? (cs : List Char) : Option Json :=
  let (negative, rest) := sign cs
  let signed (value : Float) : Option Json :=
    some (.number (.float (if negative then -value else value)))
  if rest = ['i', 'n', 'f'] then signed (1.0 / 0.0)
  else if rest = ['n', 'a', 'n'] then signed (0.0 / 0.0)
  else none

/-- A word, with what follows it.  A date and a time may have a blank between them. -/
def word (cs : List Char) : List Char × List Char :=
  let (first, rest) := cs.span isWordChar
  match rest with
  | ' ' :: c :: _ =>
    if c.isDigit && (Date.read? first).any fun (_, behind) => behind.isEmpty then
      let (second, rest) := (rest.drop 1).span isWordChar
      (first ++ ' ' :: second, rest)
    else (first, rest)
  | _ => (first, rest)

/-- The value of a word; a moment is kept as its text. -/
def scalar? (cs : List Char) : Option Json :=
  match cs with
  | ['t', 'r', 'u', 'e'] => some (.bool true)
  | ['f', 'a', 'l', 's', 'e'] => some (.bool false)
  | '0' :: 'x' :: rest => radix? 16 rest
  | '0' :: 'o' :: rest => radix? 8 rest
  | '0' :: 'b' :: rest => radix? 2 rest
  | cs =>
    match Moment.read? cs with
    | some moment => some (.string moment.text)
    | none => (integer? cs).or ((float? cs).or (special? cs))

end SchemaCompiler.Toml
