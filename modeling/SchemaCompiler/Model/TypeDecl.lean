import SchemaCompiler.Descriptor
import SchemaCompiler.Naming.Identifier
import SchemaCompiler.Wire.Union

/-!
# Type declarations

The types a compilation emits, with every decision about them made.  What renders them reads only
this model and never the schema.
-/

namespace SchemaCompiler

open Wire (AlternativeKind)

/-- The section of the output a type belongs to. -/
inductive Group where
  | aliases
  | enumerations
  | models
deriving DecidableEq, Repr

namespace Group

def heading : Group → String
  | aliases => "Type aliases"
  | enumerations => "Enums"
  | models => "Models"

/-- The place of a section in the output. -/
def rank : Group → Nat
  | aliases => 0
  | enumerations => 1
  | models => 2

end Group

/-- How the members of an enumeration look on the wire. -/
inductive EnumForm where
  | string
  | integer (width : IntWidth)
deriving DecidableEq, Repr

structure EnumMember where
  name : String
  /-- The string itself, or the text of the integer. -/
  value : String
  description : Option String
deriving DecidableEq, Repr

/-- The member of an integer enumeration that holds every value no other member names. -/
structure CatchAll where
  name : String
  description : Option String
deriving DecidableEq, Repr

/-- What a field is when its key is missing. -/
inductive FieldPresence where
  | required
  | optional
  | defaulted (value : Json)
  /-- The field has no key and shares the object of its type. -/
  | flattened

structure Field where
  wireName : String
  /-- The member name, of which the field is the snake-case form. -/
  member : String
  /-- The wire name must be spelled out even if the identifier agrees with it. -/
  renamed : Bool
  descriptor : Descriptor
  presence : FieldPresence
  /-- Stored behind a pointer, to break a cycle. -/
  boxed : Bool
  description : Option String
  /-- A default that no literal of the type can express. -/
  unsupportedDefault : Option Json

def Field.identifier (field : Field) : String :=
  Naming.snakeCase field.member

/-- A case of a tagged type. -/
structure TaggedCase where
  value : String
  caseName : String
  typeName : String
deriving DecidableEq, Repr

/-- A case of an untagged type. -/
structure UntaggedCase where
  caseName : String
  typeName : String
deriving DecidableEq, Repr

/-- The name of the case that holds an alternative of a union. -/
def alternativeCaseName : AlternativeKind → String
  | .string => "String"
  | .integer .int16 => "Short"
  | .integer .uint16 => "UShort"
  | .integer .int32 => "Int"
  | .integer .uint32 => "UInt"
  | .integer .int64 => "Long"
  | .integer .uint64 => "ULong"
  | .float => "Double"
  | .boolean => "Bool"
  | .object => "Object"
  | .array => "Array"

/-- The final form of a type. -/
inductive TypeBody where
  /-- Another name for a type. -/
  | aliasOf (target : Descriptor)
  | enumeration (form : EnumForm) (members : List EnumMember) (catchAll : Option CatchAll)
  /-- A sum type told apart by a tag; the cases are in the order of their values. -/
  | tagged (property : String) (cases : List TaggedCase)
  /-- A record that is one case of a tagged type. -/
  | variant (base value : String) (fields : List Field)
  /-- A sum type whose cases are tried one after the other. -/
  | untagged (cases : List UntaggedCase)
  | union (alternatives : List AlternativeKind) (nullable : Bool)
  | record (fields : List Field)

namespace TypeBody

def group : TypeBody → Group
  | aliasOf _ | union _ _ => .aliases
  | enumeration _ _ _ => .enumerations
  | _ => .models

def fields : TypeBody → List Field
  | record fields | variant _ _ fields => fields
  | _ => []

def withFields : TypeBody → List Field → TypeBody
  | record _, fields => record fields
  | variant base value _, fields => variant base value fields
  | other, _ => other

end TypeBody

structure TypeDecl where
  /-- The definition the type comes from; for a wrapper, that of its base. -/
  definition : String
  /-- The definition, or `Base[value]` for a wrapper. -/
  origin : String
  name : String
  description : Option String
  body : TypeBody

namespace TypeDecl

/-- The type that carries the name of its definition. -/
def ofDefinition (definition : String) (description : Option String) (body : TypeBody) :
    TypeDecl :=
  ⟨definition, definition, Naming.typeName definition, description, body⟩

def group (type : TypeDecl) : Group :=
  type.body.group

def fields (type : TypeDecl) : List Field :=
  type.body.fields

end TypeDecl

end SchemaCompiler
