import SchemaCompiler.Document
import SchemaCompiler.Wire.FromText

/-!
# Method tables

The protocol version, and the paths of the methods that agents and clients handle.
-/

namespace SchemaCompiler

structure MethodTable where
  version : Nat
  agentMethods : Entries String
  clientMethods : Entries String
  revision : Option Revision

namespace MethodTable

open Wire (Datum Shape)

/-- A table as it is written: everything may be missing, and the version is then 1. -/
def shape : Shape :=
  .record "MetaDocument"
    [(⟨"version", .defaulted (.integer 1)⟩, .integer .uint16),
      (⟨"agentMethods", .defaulted (.dictionary [])⟩, .dictionary .text),
      (⟨"clientMethods", .defaulted (.dictionary [])⟩, .dictionary .text)]

def methods? : Datum → Option (Entries String)
  | .dictionary entries =>
    entries.mapM fun (key, path) =>
      match path with
      | .text path => some (key, path)
      | _ => none
  | _ => none

def ofDatum? : Datum → Option MethodTable
  | .record [.integer version, agentMethods, clientMethods] => do
    let agentMethods ← methods? agentMethods
    let clientMethods ← methods? clientMethods
    some ⟨version.toNat, agentMethods, clientMethods, none⟩
  | _ => none

def parse (source : String) : Except SchemaError MethodTable := do
  let datum ← (shape.ofText source).mapError .json
  match ofDatum? datum with
  | some table => pure table
  | none => throw (.invalidSchema "not a method table")

def withRevision (table : MethodTable) (revision : Option Revision) : MethodTable :=
  { table with revision }

def toJson (table : MethodTable) : Json :=
  let methods (entries : Entries String) : Json :=
    .object (entries.map fun (key, path) => (key, .string path))
  .object
    [("version", .number (.int table.version)), ("agentMethods", methods table.agentMethods),
      ("clientMethods", methods table.clientMethods)]

end MethodTable

end SchemaCompiler
