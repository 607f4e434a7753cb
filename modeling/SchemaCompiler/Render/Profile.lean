import SchemaCompiler.Model.TypeDecl

/-!
# Type syntax

How semantic types are spelled in the generated language.
-/

namespace SchemaCompiler

/-- The names of the primitive types, and the marker of raw identifiers. -/
structure Profile where
  string : String
  number : String
  boolean : String
  int16 : String
  int32 : String
  int64 : String
  uint16 : String
  uint32 : String
  uint64 : String
  /-- Any JSON value. -/
  dynamic : String
  rawMarker : String

namespace Profile

def standard : Profile where
  string := "String"
  number := "f64"
  boolean := "bool"
  int16 := "i16"
  int32 := "i32"
  int64 := "i64"
  uint16 := "u16"
  uint32 := "u32"
  uint64 := "u64"
  dynamic := "serde_json::Value"
  rawMarker := Naming.rawMarker

def escape (profile : Profile) (name : String) : String :=
  Naming.escapeWith profile.rawMarker name

def integer (profile : Profile) : IntWidth → String
  | .int16 => profile.int16
  | .int32 => profile.int32
  | .int64 => profile.int64
  | .uint16 => profile.uint16
  | .uint32 => profile.uint32
  | .uint64 => profile.uint64

def scalar (profile : Profile) : Scalar → String
  | .string => profile.string
  | .number => profile.number
  | .boolean => profile.boolean
  | .integer width => profile.integer width

def optional (type : String) : String :=
  "Option<" ++ type ++ ">"

def list (type : String) : String :=
  "Vec<" ++ type ++ ">"

/-- Storage behind a pointer. -/
def pointer (type : String) : String :=
  "Box<" ++ type ++ ">"

/-- The type of a descriptor.  Boxing puts the definition held in place behind a pointer; a list
needs none. -/
def type (profile : Profile) (boxed : Bool) : Descriptor → String
  | .scalar scalar => profile.scalar scalar
  | .reference name =>
    if boxed then pointer (Naming.typeName name) else Naming.typeName name
  | .array items => list (profile.type false items)
  | .nullable inner => optional (profile.type boxed inner)
  | .dynamic => profile.dynamic

/-- The type of a union's payload. -/
def payload (profile : Profile) : Wire.AlternativeKind → String
  | .string => profile.string
  | .integer width => profile.integer width
  | .float => profile.number
  | .boolean => profile.boolean
  | .object => "serde_json::Map<String, serde_json::Value>"
  | .array => list profile.dynamic

end Profile

end SchemaCompiler
