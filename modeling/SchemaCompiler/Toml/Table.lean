import SchemaCompiler.Json.Basic

/-!
# Tables of a document

A table comes into being under a header of its own, on the way to another header, or by a dotted
key.  Nothing is defined twice: a header may only add to a table that stood on the way, and a
dotted key only to tables that no header has defined.
-/

namespace SchemaCompiler.Toml

/-- How a table came into being. -/
inductive Standing where
  /-- Under a header of its own. -/
  | defined
  /-- On the way to another header. -/
  | passed
  /-- By a dotted key. -/
  | dotted
deriving DecidableEq, Repr

inductive Item where
  | value (value : Json)
  | table (standing : Standing) (entries : List (String × Item))
  /-- A list of tables, the last one first. -/
  | tables (tables : List (List (String × Item)))

abbrev Table := List (String × Item)

/-- Changes the item under a key, or adds one. -/
def alter (key : String) (change : Option Item → Option Item) : Table → Option Table
  | [] => (change none).map fun item => [(key, item)]
  | (k, item) :: rest =>
    if k = key then (change (some item)).map fun item => (k, item) :: rest
    else (alter key change rest).map ((k, item) :: ·)

/-- Changes the table that a header leads to. -/
def atHeader : List String → (Table → Option Table) → Table → Option Table
  | [], change, table => change table
  | key :: path, change, table =>
    table |> alter key fun item =>
      match item with
      | none => (atHeader path change []).map (.table .passed)
      | some (.table standing inner) => (atHeader path change inner).map (.table standing)
      | some (.tables (last :: others)) =>
        (atHeader path change last).map fun last => .tables (last :: others)
      | some _ => none

/-- Changes the table that the front of a dotted key leads to. -/
def atDotted : List String → (Table → Option Table) → Table → Option Table
  | [], change, table => change table
  | key :: path, change, table =>
    table |> alter key fun item =>
      match item with
      | none => (atDotted path change []).map (.table .dotted)
      | some (.table .defined _) => none
      | some (.table standing inner) =>
        if path.isEmpty && standing = .passed then none
        else (atDotted path change inner).map (.table standing)
      | some (.tables (last :: others)) =>
        if path.isEmpty then none
        else (atDotted path change last).map fun last => .tables (last :: others)
      | some _ => none

/-- Adds the table of a header. -/
def define (path : List String) (root : Table) : Option Table :=
  match path.getLast? with
  | none => none
  | some key =>
    root |> atHeader path.dropLast (alter key fun item =>
      match item with
      | none => some (.table .defined [])
      | some (.table .passed inner) => some (.table .defined inner)
      | some _ => none)

/-- Adds a table to the list of a header. -/
def append (path : List String) (root : Table) : Option Table :=
  match path.getLast? with
  | none => none
  | some key =>
    root |> atHeader path.dropLast (alter key fun item =>
      match item with
      | none => some (.tables [[]])
      | some (.tables tables) => some (.tables ([] :: tables))
      | some _ => none)

/-- Adds a value under a key that is not in use. -/
def insert (path : List String) (value : Json) (table : Table) : Option Table :=
  match path.getLast? with
  | none => none
  | some key =>
    table |> atDotted path.dropLast (alter key fun item =>
      match item with
      | none => some (.value value)
      | some _ => none)

mutual

def Item.toJson : Item → Json
  | .value value => value
  | .table _ entries => .object (entriesToJson entries)
  | .tables tables => .array (tablesToJson tables).reverse

def entriesToJson : List (String × Item) → List (String × Json)
  | [] => []
  | (key, item) :: rest => (key, item.toJson) :: entriesToJson rest

def tablesToJson : List (List (String × Item)) → List Json
  | [] => []
  | entries :: rest => .object (entriesToJson entries) :: tablesToJson rest

end

end SchemaCompiler.Toml
