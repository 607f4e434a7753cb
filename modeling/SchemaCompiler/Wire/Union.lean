import SchemaCompiler.IntWidth
import SchemaCompiler.Wire.Error

/-!
# Unions of primitives

An untagged union tells its alternatives apart by the kind of the JSON token.  Integers are the
one token that several alternatives can hold: signed 32 bits come first, then signed 64 bits, then
floating point, then the rest as declared.  Nothing is coerced across kinds.
-/

namespace SchemaCompiler.Wire

/-- The kind of one alternative. -/
inductive AlternativeKind where
  | string
  | integer (width : IntWidth)
  | float
  | boolean
  | object
  | array
deriving DecidableEq, Repr

def AlternativeKind.name : AlternativeKind → String
  | .string => "String"
  | .integer .int16 => "Int16"
  | .integer .uint16 => "UInt16"
  | .integer .int32 => "Int32"
  | .integer .uint32 => "UInt32"
  | .integer .int64 => "Int64"
  | .integer .uint64 => "UInt64"
  | .float => "Float"
  | .boolean => "Bool"
  | .object => "Object"
  | .array => "Array"

/-- A decoded alternative. -/
inductive Payload where
  | string (value : String)
  | integer (width : IntWidth) (value : Int)
  | float (value : Float)
  | boolean (value : Bool)
  | object (members : List (String × Json))
  | array (items : List Json)
deriving BEq

def Payload.kind : Payload → AlternativeKind
  | string _ => .string
  | integer width _ => .integer width
  | float _ => .float
  | boolean _ => .boolean
  | object _ => .object
  | array _ => .array

def Payload.toJson : Payload → Json
  | string value => .string value
  | integer _ value => .number (.int value)
  | float value => .number (.float value)
  | boolean value => .bool value
  | object members => .object members
  | array items => .array items

structure Union where
  name : String
  alternatives : List AlternativeKind
  nullable : Bool

namespace Union

def declares (u : Union) (kind : AlternativeKind) : Bool :=
  u.alternatives.contains kind

/-- The kinds that integers try first. -/
def preferred : List AlternativeKind :=
  [.integer .int32, .integer .int64, .float]

/-- The declared kinds in the order in which an integer tries them. -/
def integerOrder (u : Union) : List AlternativeKind :=
  preferred.filter u.declares ++ u.alternatives.filter (!preferred.contains ·)

/-- An integer held as one kind, if that kind can. -/
def integerAs (value : Int) : AlternativeKind → Option Payload
  | .integer width => if width.holds value then some (.integer width value) else none
  | .float => some (.float (Number.nearestFloat value))
  | _ => none

/-- The payload of the alternative that takes a value other than null. -/
def choose (u : Union) : Json → Option Payload
  | .null => none
  | .number (.int value) => u.integerOrder.findSome? (integerAs value)
  | .number (.float value) => if u.declares .float then some (.float value) else none
  | .string value => if u.declares .string then some (.string value) else none
  | .bool value => if u.declares .boolean then some (.boolean value) else none
  | .object members => if u.declares .object then some (.object members) else none
  | .array items => if u.declares .array then some (.array items) else none

/-- The payload of the active alternative; `none` is the null case. -/
def decode (u : Union) (value : Json) : Except CodecError (Option Payload) :=
  match value with
  | .null => if u.nullable then .ok none else .error (.nullRefused u.name)
  | value =>
    match u.choose value with
    | some payload => .ok (some payload)
    | none => .error (.noAlternative u.name value.kind)

def encode : Option Payload → Json
  | none => .null
  | some payload => payload.toJson

end Union

end SchemaCompiler.Wire
