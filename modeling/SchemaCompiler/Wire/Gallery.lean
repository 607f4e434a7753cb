import SchemaCompiler.Wire.Protocol

/-!
# A gallery of shapes

Declarations that between them use every form of codec: each primitive alias, unions in several
orders, integer enumerations at the edges of their widths, and tagged types that nest.
-/

namespace SchemaCompiler.Wire.Gallery

open Protocol (required optional)

/-! ## Aliases -/

def aliases : List (String × Shape) :=
  [("TestId", .text), ("Ratio", .float), ("Flag", .flag), ("A16", .integer .int16),
    ("A32", .integer .int32), ("A64", .integer .int64), ("AU32", .integer .uint32),
    ("AU64", .integer .uint64), ("Any", .any)]

/-! ## Unions -/

def unions : List Union :=
  [⟨"Widening", [.integer .int16, .float, .integer .int64, .integer .int32], false⟩,
    ⟨"Unsigned", [.integer .uint16, .integer .uint64], false⟩,
    ⟨"Reversed", [.integer .uint64, .integer .uint32, .integer .uint16, .integer .int16], false⟩,
    ⟨"Everything",
      [.string, .integer .int16, .integer .uint16, .integer .int32, .integer .uint32,
        .integer .int64, .integer .uint64, .float, .boolean, .object, .array], true⟩,
    ⟨"Narrow", [.integer .uint32, .integer .int16, .boolean], true⟩,
    ⟨"Structural", [.object, .array], false⟩,
    ⟨"IntOrFloat", [.float, .integer .int32], true⟩,
    ⟨"LongOrULong", [.integer .uint64, .integer .int64], false⟩,
    ⟨"Text", [.string], false⟩]

/-! ## Integer enumerations -/

def integerEnums : List IntegerEnum :=
  [⟨"Level", .uint16, [("Low", 1), ("Mid", 5), ("High", 9)], none⟩,
    ⟨"Code", .int32, [("ParseError", -32700), ("NotFound", -32002)], some "Other"⟩,
    ⟨"Huge", .uint64, [("Zero", 0), ("Max", 18446744073709551615)], none⟩,
    ⟨"Deep", .int64, [("Min", -9223372036854775808), ("One", 1)], some "Rest"⟩,
    ⟨"Tiny", .int16, [("Neg", -32768), ("Pos", 32767)], none⟩]

/-! ## Tagged types -/

def circle : Shape :=
  .record "Circle" [required "radius" .float]

def square : Shape :=
  .record "Square" [required "side" .float, optional "label" .text]

def shape : Shape :=
  .tagged "Shape" "kind" [("circle", circle), ("square", square)]

/-- A case that is itself a tagged type and shares the object. -/
def tile : Shape :=
  .record "Tile" [(⟨"shape", .flattened⟩, shape)]

def label : Shape :=
  .record "Label" [required "text" .text]

def layer : Shape :=
  .tagged "Layer" "layer" [("tile", tile), ("label", label)]

/-- Tags that are not strings are compared by their JSON text. -/
def versioned : Shape :=
  .tagged "Versioned" "v"
    [("1", .record "V1" [required "x" (.integer .int32)]),
      ("2", .record "V2" [required "v" .any]),
      ("true", .record "VTrue" []),
      ("1.5", .record "VFloat" [(⟨"y", .defaulted (.integer 0)⟩, .integer .uint64)]),
      ("[1,\"a\"]", .record "VList" [(⟨"z", .defaulted (.list [])⟩, .list shape)])]

def types : List (String × Shape) :=
  aliases ++ unions.map (fun u => (u.name, .union u)) ++
    integerEnums.map (fun e => (e.name, .integerEnum e)) ++
    [("Circle", circle), ("Square", square), ("Shape", shape), ("Tile", tile), ("Label", label),
      ("Layer", layer), ("Versioned", versioned)]

end SchemaCompiler.Wire.Gallery
