import SchemaCompiler.Document

/-!
# Property sets

The properties of a record, each with its schema and whether it must be present, in declaration
order.
-/

namespace SchemaCompiler

structure Property where
  schema : Json
  required : Bool

abbrev PropertySet := Entries Property

namespace PropertySet

/-- The names a node lists as required. -/
def requiredNames (node : Node) : List String :=
  ((node.array? "required").getD []).filterMap Json.string?

/-- The properties of a node itself. -/
def ofNode (node : Node) : PropertySet :=
  let required := requiredNames node
  ((node.object? "properties").getD []).map fun (name, schema) =>
    (name, ⟨schema, required.contains name⟩)

/-- The branches of a node: its `oneOf`, or else its `anyOf`. -/
def branches? (node : Node) : Option (List Json) :=
  ((Entries.get? node "oneOf").or (Entries.get? node "anyOf")).bind Json.array?

/-- Writes the entries of the second set over those of the first. -/
def overlay (set other : PropertySet) : PropertySet :=
  other.foldl (fun set (name, property) => set.insert name property) set

/-- The properties of a node and of its branches; a later branch wins.  Only properties that the
node itself declares and requires are required. -/
def ofRecord (node : Node) : PropertySet :=
  let own := ofNode node
  let isRequired (name : String) : Bool := own.any fun (n, p) => n = name && p.required
  let nested := ((branches? node).getD []).flatMap fun branch =>
    (((branch.get? "properties").bind Json.object?).getD []).map fun (name, schema) =>
      (name, Property.mk schema (isRequired name))
  own.overlay nested

def sorted (set : PropertySet) : PropertySet :=
  sortBy (fun a b => a.1 ≤ b.1) set

end PropertySet

end SchemaCompiler
