import SchemaCompiler.Digest.Checksum
import SchemaCompiler.Json.Read
import SchemaCompiler.SchemaError
import SchemaCompiler.Sorting
import SchemaCompiler.Text.Blank

/-!
# Schema documents

The definitions of a schema in document order, with the revision it was taken from.  Only
definitions that are objects have a shape; the others are kept and passed over.
-/

namespace SchemaCompiler

/-- A source revision: text that is neither blank nor surrounded by blanks. -/
structure Revision where
  text : String
deriving DecidableEq, Repr

/-- Blank text is no revision. -/
def Revision.ofText? (text : String) : Option Revision :=
  match Text.trim text.toList with
  | [] => none
  | cs => some ⟨String.ofList cs⟩

/-- The members of a schema object. -/
abbrev Node := Entries Json

/-- A definition that is an object. -/
structure Definition where
  name : String
  node : Node

namespace Node

def string? (node : Node) (key : String) : Option String :=
  (Entries.get? node key).bind Json.string?

def array? (node : Node) (key : String) : Option (List Json) :=
  (Entries.get? node key).bind Json.array?

def object? (node : Node) (key : String) : Option Node :=
  (Entries.get? node key).bind Json.object?

/-- The items of an array that are objects. -/
def objectItems (items : List Json) : List Node :=
  items.filterMap Json.object?

def description? (node : Node) : Option String :=
  string? node "description"

end Node

def Definition.description? (definition : Definition) : Option String :=
  definition.node.description?

structure Document where
  definitions : Entries Json
  revision : Option Revision
  /-- No definition stands twice. -/
  distinct : definitions.Distinct

namespace Document

/-- The definitions stand under `$defs`, or else under `definitions`. -/
def ofJson (value : Json) : Except SchemaError Document :=
  match value with
  | .object members =>
    match (Entries.get? members "$defs").or (Entries.get? members "definitions") with
    | none => .error (.invalidSchema "no $defs or definitions map")
    | some (.object definitions) =>
      .ok
        { definitions := Entries.ofPairs definitions
          revision := none
          distinct := Entries.distinct_ofPairs definitions }
    | some _ => .error (.invalidSchema "$defs is not an object")
  | _ => .error (.invalidSchema "schema root is not an object")

def parse (text : String) : Except SchemaError Document := do
  let value ← (Json.parse text).mapError (SchemaError.json ∘ Wire.DecodeError.notJson)
  ofJson value

def withRevision (document : Document) (revision : Option Revision) : Document :=
  { document with revision }

/-- Looks up a definition that is an object. -/
def get? (document : Document) (name : String) : Option Definition :=
  match document.definitions.get? name with
  | some (.object node) => some ⟨name, node⟩
  | _ => none

/-- Object definitions in the order of their names. -/
def sorted (document : Document) : List Definition :=
  let objects := document.definitions.filterMap fun (name, value) =>
    match value with
    | .object node => some (Definition.mk name node)
    | _ => none
  sortBy (fun a b => a.name ≤ b.name) objects

def checksum (document : Document) : Checksum :=
  Checksum.ofJson (.object document.definitions)

/-- The document as JSON. -/
def toJson (document : Document) : Json :=
  .object <| ("definitions", .object document.definitions) ::
    match document.revision with
    | some revision => [("schema_ref", .string revision.text)]
    | none => []

end Document

end SchemaCompiler
