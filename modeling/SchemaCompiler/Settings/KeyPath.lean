import SchemaCompiler.Decimal.Read
import SchemaCompiler.IntWidth

/-!
# Key paths

A key of the outermost table of a source may lead further in: `output.dir` to an entry of a table
in it, `records[0]` to an item of a list.  A key that does not read as a path is the name of one
entry.
-/

namespace SchemaCompiler

/-- A step into a setting. -/
inductive Step where
  | entry (key : String)
  /-- A negative index counts from the end of the list. -/
  | item (index : Int)
deriving DecidableEq, Repr

abbrev KeyPath := List Step

namespace KeyPath

private def isNameChar (c : Char) : Bool :=
  c.isAlphanum || c = '_' || c = '-' || c = ' '

private def skipBlanks (cs : List Char) : List Char :=
  cs.dropWhile fun c => c = ' ' || c = '\t'

private def name? (cs : List Char) : Option (Step × List Char) :=
  let name := cs.takeWhile isNameChar
  if name.isEmpty then none
  else some (.entry (String.ofList name), cs.dropWhile isNameChar)

/-- An index of 64 bits with a sign, and the bracket that closes it. -/
private def index? (cs : List Char) : Option (Step × List Char) :=
  let (negative, cs) :=
    match skipBlanks cs with
    | '-' :: cs => (true, cs)
    | cs => (false, cs)
  let digits := cs.takeWhile Char.isDigit
  let magnitude : Int := Decimal.digitsValue digits
  let index := if negative then -magnitude else magnitude
  match skipBlanks (cs.dropWhile Char.isDigit) with
  | ']' :: rest =>
    if digits.isEmpty || !IntWidth.int64.holds index then none else some (.item index, rest)
  | _ => none

/-- The steps behind the first one, at most `limit` of them. -/
private def steps? : Nat → List Char → Option KeyPath
  | _, [] => some []
  | 0, _ :: _ => none
  | limit + 1, c :: cs => do
    let (step, rest) ←
      if c = '.' then name? cs
      else if c = '[' then index? cs
      else none
    return step :: (← steps? limit rest)

/-- The path that a whole key reads as. -/
def read? (key : String) : Option KeyPath := do
  let (first, rest) ← name? key.toList
  return first :: (← steps? rest.length rest)

/-- Where a key of the outermost table leads. -/
def ofKey (key : String) : KeyPath :=
  (read? key).getD [.entry key]

end KeyPath

end SchemaCompiler
