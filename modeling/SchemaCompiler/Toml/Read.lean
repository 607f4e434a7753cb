import SchemaCompiler.Toml.Scalar
import SchemaCompiler.Toml.Table

/-!
# Reading TOML

A document is read as a JSON object.  Anything that is not TOML gives `none`, without a reason.
-/

namespace SchemaCompiler.Toml

def skipBlanks (cs : List Char) : List Char :=
  cs.dropWhile fun c => c = ' ' || c = '\t'

/-- The line is over behind blanks and a comment. -/
def lineEnd? (cs : List Char) : Option (List Char) :=
  let rest :=
    match skipBlanks cs with
    | '#' :: rest => rest.dropWhile isTextChar
    | rest => rest
  match rest with
  | [] => some []
  | '\n' :: rest => some rest
  | '\r' :: '\n' :: rest => some rest
  | _ => none

/-- Skips blanks, line ends and comments. -/
def skipLines (inComment : Bool) : List Char → List Char
  | '\n' :: rest => skipLines false rest
  | '\r' :: '\n' :: rest => skipLines false rest
  | c :: rest =>
    if inComment then if isTextChar c then skipLines true rest else c :: rest
    else if c = ' ' || c = '\t' then skipLines false rest
    else if c = '#' then skipLines true rest
    else c :: rest
  | [] => []

/-! ## Keys -/

def isBareChar (c : Char) : Bool :=
  c.isAlphanum || c = '_' || c = '-'

def simpleKey? (cs : List Char) : Option (String × List Char) :=
  match cs with
  | '"' :: rest => (basic rest).map fun (content, rest) => (String.ofList content, rest)
  | '\'' :: rest => (literal rest).map fun (content, rest) => (String.ofList content, rest)
  | cs =>
    let (name, rest) := cs.span isBareChar
    if name.isEmpty then none else some (String.ofList name, rest)

/-- A key of one to `limit` parts, with the blanks around it. -/
def keyWithin? : Nat → List Char → Option (List String × List Char)
  | 0, _ => none
  | limit + 1, cs => do
    let (part, rest) ← simpleKey? (skipBlanks cs)
    match skipBlanks rest with
    | '.' :: rest => do
      let (parts, rest) ← keyWithin? limit rest
      some (part :: parts, rest)
    | rest => some ([part], rest)

/-- How deep a document may go: the parts of a key, and the arrays and inline tables that stand in
each other. -/
def depthLimit : Nat := 79

def key? (cs : List Char) : Option (List String × List Char) :=
  keyWithin? depthLimit cs

/-! ## Values -/

mutual

/-- A value; `fuel` bounds the number of steps and `levels` that of brackets to open. -/
def value? : Nat → Nat → List Char → Option (Json × List Char)
  | 0, _, _ => none
  | fuel + 1, levels, cs =>
    match cs with
    | '"' :: _ | '\'' :: _ =>
      (string? cs).map fun (content, rest) => (.string (String.ofList content), rest)
    | '[' :: rest =>
      match levels with
      | 0 => none
      | levels + 1 =>
        (items? fuel levels rest).map fun (items, rest) => (.array items, rest)
    | '\x7b' :: rest =>
      match levels with
      | 0 => none
      | levels + 1 =>
        match skipBlanks rest with
        | '\x7d' :: rest => some (.object [], rest)
        | rest => do
          let (table, rest) ← members? fuel levels [] rest
          some (.object (entriesToJson table), rest)
    | cs =>
      let (word, rest) := word cs
      (scalar? word).map (·, rest)

/-- The items of an array up to the closing bracket. -/
def items? : Nat → Nat → List Char → Option (List Json × List Char)
  | 0, _, _ => none
  | fuel + 1, levels, cs =>
    match skipLines false cs with
    | ']' :: rest => some ([], rest)
    | cs => do
      let (item, rest) ← value? fuel levels cs
      match skipLines false rest with
      | ',' :: rest => do
        let (items, rest) ← items? fuel levels rest
        some (item :: items, rest)
      | ']' :: rest => some ([item], rest)
      | _ => none

/-- The members of an inline table up to the closing brace. -/
def members? : Nat → Nat → Table → List Char → Option (Table × List Char)
  | 0, _, _, _ => none
  | fuel + 1, levels, table, cs => do
    let (path, rest) ← key? cs
    match rest with
    | '=' :: rest => do
      let (value, rest) ← value? fuel levels (skipBlanks rest)
      let table ← insert path value table
      match skipBlanks rest with
      | ',' :: rest => members? fuel levels table rest
      | '\x7d' :: rest => some (table, rest)
      | _ => none
    | _ => none

end

/-! ## Documents -/

/-- Reads line by line; `header` leads to the current table. -/
def lines? : Nat → List String → Table → List Char → Option Table
  | 0, _, _, _ => none
  | fuel + 1, header, root, cs =>
    match skipBlanks cs with
    | [] => some root
    | '[' :: '[' :: rest => do
      let (path, rest) ← key? rest
      match rest with
      | ']' :: ']' :: rest => do
        let root ← append path root
        lines? fuel path root (← lineEnd? rest)
      | _ => none
    | '[' :: rest => do
      let (path, rest) ← key? rest
      match rest with
      | ']' :: rest => do
        let root ← define path root
        lines? fuel path root (← lineEnd? rest)
      | _ => none
    | cs =>
      match lineEnd? cs with
      | some rest => lines? fuel header root rest
      | none => do
        let (path, rest) ← key? cs
        match rest with
        | '=' :: rest => do
          let (value, rest) ← value? (2 * fuel + 2) depthLimit (skipBlanks rest)
          let root ← atHeader header (insert path value) root
          lines? fuel header root (← lineEnd? rest)
        | _ => none

/-- The object that a document stands for. -/
def read? (text : String) : Option Json := do
  let cs :=
    match text.toList with
    | '\ufeff' :: rest => rest
    | cs => cs
  let root ← lines? (cs.length + 1) [] [] cs
  some (.object (entriesToJson root))

end SchemaCompiler.Toml
