import SchemaCompiler.Toml.Quoted

/-!
# Writing TOML

A string is written in the first form of `StringForm` that holds it without escapes; where none
does, it is escaped between double quotes.
-/

namespace SchemaCompiler.Toml

inductive StringForm where
  | basic
  | literal
  | multilineBasic
  | multilineLiteral
deriving DecidableEq, Repr

/-- The length of the longest run of a quote, `run` of which have just been passed. -/
def longestRun (quote : Char) (run : Nat) : List Char → Nat
  | [] => run
  | c :: cs =>
    if c = quote then longestRun quote (run + 1) cs else max run (longestRun quote 0 cs)

/-- The quotes in a row that may stand inside a string over several lines. -/
def innerQuotes : Nat := 2

/-- The form of a string. -/
def StringForm.of (cs : List Char) : StringForm :=
  let plain := cs.all fun c => c = '\n' || isTextChar c
  let multiline := cs.contains '\n'
  let backslash := cs.contains '\\'
  let double := longestRun '"' 0 cs
  let single := longestRun '\'' 0 cs
  if plain && !multiline && !backslash && double = 0 then .basic
  else if plain && !multiline && single = 0 then .literal
  else if plain && !backslash && double ≤ innerQuotes then .multilineBasic
  else if plain && single ≤ innerQuotes then .multilineLiteral
  else if multiline then .multilineBasic
  else .basic

private def hexDigit (n : Nat) : Char :=
  (Nat.digitChar n).toUpper

/-- A character between double quotes that is no double quote itself. -/
def escapeChar (multiline : Bool) (c : Char) : List Char :=
  if c = '\x08' then ['\\', 'b']
  else if c = '\t' then ['\\', 't']
  else if c = '\n' then if multiline then ['\n'] else ['\\', 'n']
  else if c = '\x0c' then ['\\', 'f']
  else if c = '\r' then ['\\', 'r']
  else if c = '\\' then ['\\', '\\']
  else if c.toNat < 0x20 || c = '\x7f' then
    ['\\', 'u', '0', '0', hexDigit (c.toNat / 16), hexDigit (c.toNat % 16)]
  else [c]

/-- The content between double quotes, behind a run of double quotes.  Over several lines only a
quote that would end the string is escaped. -/
def escape (multiline : Bool) (run : Nat) : List Char → List Char
  | [] => []
  | c :: cs =>
    if c = '"' then
      if multiline && run < innerQuotes then '"' :: escape multiline (run + 1) cs
      else '\\' :: '"' :: escape multiline 0 cs
    else escapeChar multiline c ++ escape multiline 0 cs

/-- What stands before and behind the content.  A line end comes first where there is one in the
content, so that the content starts on a line of its own. -/
def StringForm.enclose (form : StringForm) (cs : List Char) : List Char :=
  let lineEnd := if cs.contains '\n' then ['\n'] else []
  match form with
  | .basic => '"' :: escape false 0 cs ++ ['"']
  | .literal => '\'' :: cs ++ ['\'']
  | .multilineBasic => ['"', '"', '"'] ++ lineEnd ++ escape true 0 cs ++ ['"', '"', '"']
  | .multilineLiteral => ['\'', '\'', '\''] ++ lineEnd ++ cs ++ ['\'', '\'', '\'']

def stringChars (cs : List Char) : List Char :=
  (StringForm.of cs).enclose cs

def stringText (s : String) : String :=
  String.ofList (stringChars s.toList)

/-- A list of strings: on one line up to one item, else with a line for each. -/
def listText : List String → String
  | [] => "[]"
  | [only] => "[" ++ stringText only ++ "]"
  | items => "[\n" ++ String.join (items.map ("    " ++ stringText · ++ ",\n")) ++ "]"

/-- A line of a table. -/
def entryText (key value : String) : String :=
  key ++ " = " ++ value ++ "\n"

/-- A table under its header. -/
def tableText (name : String) (entries : List (String × String)) : String :=
  "[" ++ name ++ "]\n" ++ String.join (entries.map fun (key, value) => entryText key value)

end SchemaCompiler.Toml
