import SchemaCompiler.Naming.Keyword
import SchemaCompiler.Text.Blank
import SchemaCompiler.Text.Case

/-!
# Identifiers from schema text

How property names, definition names and literals become identifiers.  Everything is a function on
characters with a `String` version of the same name around it.
-/

namespace SchemaCompiler.Naming

open Text (capitalize titleCase splitBy)

/-- Splits at underscores and drops what is empty between them. -/
def segments (cs : List Char) : List (List Char) :=
  (splitBy (· = '_') cs).filter (!·.isEmpty)

/-- A letter, digit or underscore of the ASCII range. -/
def isWordChar (c : Char) : Bool :=
  c.isAlphanum || c = '_'

/-- A name in front of which a digit is kept from standing first. -/
def guardDigit (cs : List Char) : List Char :=
  match cs with
  | c :: _ => if c.isDigit then '_' :: cs else cs
  | [] => []

/-- Segments are capitalised and joined; a text with spaces is then recased word by word; what is
no word character is dropped. -/
def memberChars (cs : List Char) : List Char :=
  let joined := (segments cs).flatMap capitalize
  let recased := if joined.contains ' ' then (Text.words joined).flatMap titleCase else joined
  guardDigit (recased.filter isWordChar)

/-- Member identifier for a property name or literal: `load_session` gives `LoadSession`, `userID`
gives `UserID`, `parse error` gives `ParseError`, `123abc` gives `_123abc`. -/
def member (name : String) : String :=
  if name = "_meta" then "Meta" else String.ofList (memberChars name.toList)

/-- Type name for a definition: its first character in upper case, the rest kept. -/
def typeName (name : String) : String :=
  escape (String.ofList (capitalize name.toList))

/-- Identifier of one case of an enumeration or sum type. -/
def caseName (text : String) : String :=
  let name := member text
  if name.isEmpty then "Variant" else escape name

/-- Segments joined, each with one capital: `session_new` gives `SessionNew`. -/
def pascalCase (name : String) : String :=
  String.ofList ((segments name.toList).flatMap titleCase)

/-- Snake case of the remaining characters, `afterLower` if the last one was a small letter or a
digit.  Runs of capitals stay together. -/
def snakeChars (afterLower : Bool) : List Char → List Char
  | [] => []
  | c :: cs =>
    if c.isUpper then
      let rest := c.toLower :: snakeChars false cs
      if afterLower then '_' :: rest else rest
    else if c = '-' || c = ' ' then '_' :: snakeChars false cs
    else c :: snakeChars (c.isLower || c.isDigit) cs

/-- `UserID` gives `user_id`. -/
def snakeCase (name : String) : String :=
  String.ofList (snakeChars false name.toList)

def screamingSnakeCase (name : String) : String :=
  String.ofList ((snakeChars false name.toList).map Char.toUpper)

/-- The identifier chosen for a property. -/
structure MemberName where
  identifier : String
  /-- The wire name must be spelled out even where it could be inferred. -/
  renamed : Bool
deriving DecidableEq, Repr

/-- What is appended to a member that would share the name of its type. -/
def collisionSuffix : String :=
  "Value"

def memberName (type property : String) : MemberName :=
  let identifier := member property
  if identifier = type then ⟨identifier ++ collisionSuffix, true⟩ else ⟨identifier, false⟩

end SchemaCompiler.Naming
