/-!
# Strings in TOML

The four written forms of a string: basic and literal, each on one line or over several.  A
reader starts behind the opening quotes and gives the content with what follows the closing ones.
-/

namespace SchemaCompiler.Toml

/-- Any character but a control character; a tab counts as text. -/
def isTextChar (c : Char) : Bool :=
  c = '\t' || 0x20 ≤ c.toNat && c ≠ '\x7f'

def hexValue? (c : Char) : Option Nat :=
  if c.isDigit then some (c.toNat - '0'.toNat)
  else if 'a' ≤ c && c ≤ 'f' then some (c.toNat - 'a'.toNat + 10)
  else if 'A' ≤ c && c ≤ 'F' then some (c.toNat - 'A'.toNat + 10)
  else none

/-- The character with a number in hexadecimal. -/
def codePoint? (digits : List Char) : Option Char := do
  let values ← digits.mapM hexValue?
  let code := values.foldl (fun n digit => 16 * n + digit) 0
  if code.isValidChar then some (Char.ofNat code) else none

/-- What a letter behind a backslash stands for. -/
def escape? : Char → Option Char
  | 'b' => some '\x08'
  | 't' => some '\t'
  | 'n' => some '\n'
  | 'f' => some '\x0c'
  | 'r' => some '\r'
  | '"' => some '"'
  | '\\' => some '\\'
  | _ => none

/-- Content with what follows it. -/
abbrev Piece := Option (List Char × List Char)

private def Piece.push (c : Char) (piece : Piece) : Piece :=
  piece.map fun (content, rest) => (c :: content, rest)

/-- A string between double quotes. -/
def basic : List Char → Piece
  | '"' :: rest => some ([], rest)
  | '\\' :: 'u' :: a :: b :: c :: d :: rest => do
    let char ← codePoint? [a, b, c, d]
    Piece.push char (basic rest)
  | '\\' :: 'U' :: a :: b :: c :: d :: e :: f :: g :: h :: rest => do
    let char ← codePoint? [a, b, c, d, e, f, g, h]
    Piece.push char (basic rest)
  | '\\' :: c :: rest => do
    let char ← escape? c
    Piece.push char (basic rest)
  | c :: rest => if c ≠ '\\' && isTextChar c then Piece.push c (basic rest) else none
  | [] => none

/-- The text goes on with blanks and a line end. -/
def lineIsOver (rest : List Char) : Bool :=
  match rest.dropWhile fun c => c = ' ' || c = '\t' with
  | '\n' :: _ | '\r' :: '\n' :: _ => true
  | _ => false

/-- A string between triple double quotes, of which up to two more may end the content.  A
backslash at the end of a line takes away everything up to the next character that is no blank;
`gap` says that this is going on. -/
def multilineBasic (gap : Bool) : List Char → Piece
  | '"' :: '"' :: '"' :: '"' :: '"' :: rest => some (['"', '"'], rest)
  | '"' :: '"' :: '"' :: '"' :: rest => some (['"'], rest)
  | '"' :: '"' :: '"' :: rest => some ([], rest)
  | '\r' :: '\n' :: rest =>
    if gap then multilineBasic true rest else Piece.push '\n' (multilineBasic false rest)
  | '\\' :: 'u' :: a :: b :: c :: d :: rest => do
    let char ← codePoint? [a, b, c, d]
    Piece.push char (multilineBasic false rest)
  | '\\' :: 'U' :: a :: b :: c :: d :: e :: f :: g :: h :: rest => do
    let char ← codePoint? [a, b, c, d, e, f, g, h]
    Piece.push char (multilineBasic false rest)
  | '\\' :: c :: rest =>
    if lineIsOver (c :: rest) then multilineBasic true (c :: rest)
    else do
      let char ← escape? c
      Piece.push char (multilineBasic false rest)
  | c :: rest =>
    if gap && (c = ' ' || c = '\t' || c = '\n') then multilineBasic true rest
    else if c = '\n' || c ≠ '\\' && isTextChar c then Piece.push c (multilineBasic false rest)
    else none
  | [] => none

/-- A string between single quotes. -/
def literal : List Char → Piece
  | '\'' :: rest => some ([], rest)
  | c :: rest => if isTextChar c then Piece.push c (literal rest) else none
  | [] => none

/-- A string between triple single quotes. -/
def multilineLiteral : List Char → Piece
  | '\'' :: '\'' :: '\'' :: '\'' :: '\'' :: rest => some (['\'', '\''], rest)
  | '\'' :: '\'' :: '\'' :: '\'' :: rest => some (['\''], rest)
  | '\'' :: '\'' :: '\'' :: rest => some ([], rest)
  | '\r' :: '\n' :: rest => Piece.push '\n' (multilineLiteral rest)
  | c :: rest =>
    if c = '\n' || isTextChar c then Piece.push c (multilineLiteral rest) else none
  | [] => none

/-- A line end right behind the opening quotes is no content. -/
def dropLineEnd : List Char → List Char
  | '\n' :: rest => rest
  | '\r' :: '\n' :: rest => rest
  | rest => rest

/-- A string of any form. -/
def string? : List Char → Piece
  | '"' :: '"' :: '"' :: rest => multilineBasic false (dropLineEnd rest)
  | '"' :: rest => basic rest
  | '\'' :: '\'' :: '\'' :: rest => multilineLiteral (dropLineEnd rest)
  | '\'' :: rest => literal rest
  | _ => none

end SchemaCompiler.Toml
