import SchemaCompiler.Json.Basic

/-!
# Integer widths

The six fixed-width integer types a schema can ask for.
-/

namespace SchemaCompiler

inductive IntWidth where
  | int16
  | int32
  | int64
  | uint16
  | uint32
  | uint64
deriving DecidableEq, Repr, Inhabited

namespace IntWidth

/-- Least integer of the width. -/
def least : IntWidth → Int
  | int16 => -32768
  | int32 => -2147483648
  | int64 => -9223372036854775808
  | uint16 | uint32 | uint64 => 0

/-- Greatest integer of the width. -/
def greatest : IntWidth → Int
  | int16 => 32767
  | int32 => 2147483647
  | int64 => 9223372036854775807
  | uint16 => 65535
  | uint32 => 4294967295
  | uint64 => 18446744073709551615

def holds (w : IntWidth) (value : Int) : Bool :=
  w.least ≤ value && value ≤ w.greatest

/-- The number is an integer token within the width. -/
def accepts (w : IntWidth) (number : Number) : Bool :=
  match number with
  | .int value => w.holds value
  | .float _ => false

/-- The width a `format` keyword asks for; 32 bits with a sign unless it names another. -/
def ofFormat : Option String → IntWidth
  | some "uint16" => uint16
  | some "uint32" => uint32
  | some "uint64" => uint64
  | some "int16" => int16
  | some "int64" => int64
  | _ => int32

/-- The width in short: `i32`, `u16`. -/
def label : IntWidth → String
  | int16 => "i16"
  | int32 => "i32"
  | int64 => "i64"
  | uint16 => "u16"
  | uint32 => "u32"
  | uint64 => "u64"

/-- The label in capitals, as it stands in messages. -/
def tag : IntWidth → String
  | int16 => "I16"
  | int32 => "I32"
  | int64 => "I64"
  | uint16 => "U16"
  | uint32 => "U32"
  | uint64 => "U64"

def all : List IntWidth :=
  [int16, int32, int64, uint16, uint32, uint64]

theorem holds_iff {w : IntWidth} {value : Int} :
    w.holds value = true ↔ w.least ≤ value ∧ value ≤ w.greatest := by
  simp [holds]

end IntWidth

end SchemaCompiler
