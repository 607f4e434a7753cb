import SchemaCompiler.Decimal.Read

/-!
# Dates and times

A moment is a date, a time, or a date with a time.  It may be written in several ways;
`Moment.text` is the one that stands for all of them: a `T` between date and time, a `Z` for
universal time, and a fraction of a second without zeros at its end.
-/

namespace SchemaCompiler.Toml

structure Date where
  year : Nat
  month : Nat
  day : Nat
deriving DecidableEq, Repr

structure TimeOfDay where
  hour : Nat
  minute : Nat
  /-- Up to 60, so that a leap second has a place. -/
  second : Nat
  nanosecond : Nat
deriving DecidableEq, Repr

/-- How far local time is ahead of universal time. -/
inductive Offset where
  | universal
  | minutes (count : Int)
deriving DecidableEq, Repr

inductive Moment where
  | dateOnly (date : Date)
  | timeOnly (time : TimeOfDay)
  | dateTime (date : Date) (time : TimeOfDay) (offset : Option Offset)
deriving DecidableEq, Repr

/-! ## Reading -/

/-- The number that exactly so many digits stand for, with what follows them. -/
private def fixedDigits? (count : Nat) (cs : List Char) : Option (Nat × List Char) :=
  let digits := cs.take count
  if digits.length = count && digits.all Char.isDigit then
    some (Decimal.digitsValue digits, cs.drop count)
  else none

private def skip? (c : Char) : List Char → Option (List Char)
  | head :: rest => if head = c then some rest else none
  | [] => none

def daysIn (year month : Nat) : Nat :=
  if month = 2 then
    if year % 4 = 0 && (year % 100 ≠ 0 || year % 400 = 0) then 29 else 28
  else if month = 4 || month = 6 || month = 9 || month = 11 then 30
  else 31

def Date.read? (cs : List Char) : Option (Date × List Char) := do
  let (year, cs) ← fixedDigits? 4 cs
  let (month, cs) ← fixedDigits? 2 (← skip? '-' cs)
  let (day, cs) ← fixedDigits? 2 (← skip? '-' cs)
  if 1 ≤ month && month ≤ 12 && 1 ≤ day && day ≤ daysIn year month then
    some (⟨year, month, day⟩, cs)
  else none

namespace TimeOfDay

/-- The digits of a fraction that count. -/
def fractionDigits : Nat := 9

/-- A fraction of a second in nanoseconds.  What is finer is cut off. -/
private def fraction? : List Char → Option (Nat × List Char)
  | '.' :: rest =>
    let digits := rest.takeWhile Char.isDigit
    if digits.isEmpty then none
    else
      let counted := digits.take fractionDigits
      let padded := counted ++ List.replicate (fractionDigits - counted.length) '0'
      some (Decimal.digitsValue padded, rest.dropWhile Char.isDigit)
  | rest => some (0, rest)

def read? (cs : List Char) : Option (TimeOfDay × List Char) := do
  let (hour, cs) ← fixedDigits? 2 cs
  let (minute, cs) ← fixedDigits? 2 (← skip? ':' cs)
  let (second, cs) ← fixedDigits? 2 (← skip? ':' cs)
  let (nanosecond, cs) ← fraction? cs
  if hour ≤ 23 && minute ≤ 59 && second ≤ 60 then
    some (⟨hour, minute, second, nanosecond⟩, cs)
  else none

end TimeOfDay

/-- What stands behind a time, to the end; there need not be an offset. -/
def Offset.read? : List Char → Option (Option Offset)
  | [] => some none
  | ['Z'] | ['z'] => some (some .universal)
  | c :: cs => do
    if c ≠ '+' && c ≠ '-' then none
    let (hour, cs) ← fixedDigits? 2 cs
    let (minute, cs) ← fixedDigits? 2 (← skip? ':' cs)
    let count : Int := hour * 60 + minute
    if hour ≤ 23 && minute ≤ 59 && cs.isEmpty then
      some (some (.minutes (if c = '-' then -count else count)))
    else none

/-- A whole text as a moment. -/
def Moment.read? (cs : List Char) : Option Moment :=
  match Date.read? cs with
  | some (date, []) => some (.dateOnly date)
  | some (date, c :: rest) => do
    if c ≠ 'T' && c ≠ 't' && c ≠ ' ' then none
    let (time, rest) ← TimeOfDay.read? rest
    some (.dateTime date time (← Offset.read? rest))
  | none =>
    match TimeOfDay.read? cs with
    | some (time, []) => some (.timeOnly time)
    | _ => none

/-! ## Writing -/

/-- A number with zeros in front up to some width. -/
private def padded (width n : Nat) : String :=
  let digits := toString n
  String.ofList (List.replicate (width - digits.length) '0') ++ digits

def Date.text (date : Date) : String :=
  padded 4 date.year ++ "-" ++ padded 2 date.month ++ "-" ++ padded 2 date.day

namespace TimeOfDay

/-- The fraction with its point, without zeros at the end; nothing for a full second. -/
def fractionText (nanosecond : Nat) : String :=
  if nanosecond = 0 then ""
  else
    let digits := (padded fractionDigits nanosecond).toList.reverse.dropWhile (· = '0')
    "." ++ String.ofList digits.reverse

def text (time : TimeOfDay) : String :=
  padded 2 time.hour ++ ":" ++ padded 2 time.minute ++ ":" ++ padded 2 time.second ++
    fractionText time.nanosecond

end TimeOfDay

def Offset.text : Offset → String
  | .universal => "Z"
  | .minutes count =>
    (if count < 0 then "-" else "+") ++ padded 2 (count.natAbs / 60) ++ ":" ++
      padded 2 (count.natAbs % 60)

def Moment.text : Moment → String
  | .dateOnly date => date.text
  | .timeOnly time => time.text
  | .dateTime date time offset =>
    date.text ++ "T" ++ time.text ++ (offset.map Offset.text).getD ""

end SchemaCompiler.Toml
