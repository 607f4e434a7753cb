import SchemaCompiler.Descriptor
import SchemaCompiler.Reference

/-!
# Resolving property types

The descriptor of a property node.  There always is one: what the rules do not recognise is a
dynamic value.  The first rule that applies decides: a reference; an array type; an enumeration;
a scalar type; a nullable reference.
-/

namespace SchemaCompiler

namespace Node

def width (node : Node) : IntWidth :=
  IntWidth.ofFormat (node.string? "format")

end Node

/-- The scalar of a JSON type name; objects, arrays and null have none. -/
def Scalar.ofTypeName? (name : String) (node : Node) : Option Scalar :=
  match name with
  | "string" => some .string
  | "integer" => some (.integer node.width)
  | "number" => some .number
  | "boolean" => some .boolean
  | _ => none

namespace Resolve

/-- What a `type` keyword says: the one type it names besides null, if it names one; whether an
array comes first; whether it admits null. -/
structure TypeKeyword where
  single : Option String
  isArray : Bool
  nullable : Bool

def typeKeyword (node : Node) : TypeKeyword :=
  match Entries.get? node "type" with
  | some (.array types) =>
    let names := types.filterMap Json.string?
    let others := names.filter (· ≠ "null")
    { single := match others with
        | [only] => some only
        | _ => none
      isArray := others.head? = some "array"
      nullable := names.contains "null" }
  | some (.string name) => ⟨some name, name = "array", false⟩
  | _ => ⟨none, false, false⟩

def wrap (nullable : Bool) (descriptor : Descriptor) : Descriptor :=
  if nullable then descriptor.optional else descriptor

/-- The name in a pair of a reference and a null type, in either order. -/
def nullableReference? (items : List Json) : Option String :=
  if items.length ≠ 2 then none
  else
    let nodes := Node.objectItems items
    let isNull (node : Node) : Bool :=
      node.directRef?.isNone && node.string? "type" = some "null"
    if nodes.any isNull then (nodes.filterMap Node.directRef?).getLast? else none

/-- Everything but an array type. -/
def plain (node : Node) (type : TypeKeyword) : Descriptor :=
  if Entries.contains node "enum" then
    let scalar := (type.single.bind (Scalar.ofTypeName? · node)).getD .string
    wrap type.nullable (.scalar scalar)
  else
    match type.single with
    | some name =>
      match Scalar.ofTypeName? name node with
      | some scalar => wrap type.nullable (.scalar scalar)
      | none => .dynamic
    | none =>
      match (node.array? "anyOf").bind nullableReference? with
      | some name => .nullable (.reference name)
      | none => .dynamic

mutual

def ofJson : Json → Descriptor
  | .object node =>
    match Node.ref? node with
    | some name => .reference name
    | none =>
      let type := typeKeyword node
      if type.isArray then wrap type.nullable (.array (ofItems node)) else plain node type
  | _ => .dynamic

/-- The descriptor of the `items` member. -/
def ofItems : List (String × Json) → Descriptor
  | [] => .dynamic
  | (key, value) :: rest => if key = "items" then ofJson value else ofItems rest

end

end Resolve

/-- The descriptor of a property node. -/
def Node.descriptor (node : Node) : Descriptor :=
  Resolve.ofJson (.object node)

/-- The node is a union that is only known as a dynamic value. -/
def Node.isUnresolvedUnion (node : Node) (descriptor : Descriptor) : Bool :=
  descriptor.isDynamic && (Entries.contains node "anyOf" || Entries.contains node "oneOf") &&
    node.primaryType?.isNone

end SchemaCompiler
