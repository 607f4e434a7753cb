import SchemaCompiler.Entries

/-!
# JSON values

A number token is an integer or a binary64 value and stays what it was written as; an object
keeps its members in document order.
-/

namespace SchemaCompiler

inductive Number where
  | int (value : Int)
  | float (value : Float)
deriving BEq, Inhabited

inductive Json where
  | null
  | bool (value : Bool)
  | number (value : Number)
  | string (value : String)
  | array (items : List Json)
  | object (members : List (String × Json))
deriving BEq, Inhabited

namespace Number

/-- The value of an integer token. -/
def int? : Number → Option Int
  | int value => some value
  | float _ => none

/-- The binary64 value nearest to an integer. -/
def nearestFloat (value : Int) : Float :=
  if value < 0 then -(Float.ofScientific value.natAbs false 0)
  else Float.ofScientific value.natAbs false 0

def toFloat : Number → Float
  | int value => nearestFloat value
  | float value => value

end Number

namespace Json

/-- What a reader sees of a value before it looks inside. -/
inductive Kind where
  | null
  | string
  | integer
  | float
  | boolean
  | object
  | array
deriving DecidableEq, Repr

def Kind.name : Kind → String
  | .null => "null"
  | .string => "string"
  | .integer => "integer"
  | .float => "float"
  | .boolean => "boolean"
  | .object => "object"
  | .array => "array"

def kind : Json → Kind
  | .null => .null
  | .bool _ => .boolean
  | .number (.int _) => .integer
  | .number (.float _) => .float
  | .string _ => .string
  | .array _ => .array
  | .object _ => .object

def string? : Json → Option String
  | .string value => some value
  | _ => none

def array? : Json → Option (List Json)
  | .array items => some items
  | _ => none

def object? : Json → Option (Entries Json)
  | .object members => some members
  | _ => none

/-- The member of an object under a key; other values have none. -/
def get? (value : Json) (key : String) : Option Json :=
  match value with
  | .object members => Entries.get? members key
  | _ => none

mutual

/-- No object inside the value repeats a key. -/
def DistinctKeys : Json → Prop
  | .array items => DistinctKeysAll items
  | .object members => (members.map Prod.fst).Nodup ∧ DistinctKeysMembers members
  | _ => True

def DistinctKeysAll : List Json → Prop
  | [] => True
  | item :: rest => DistinctKeys item ∧ DistinctKeysAll rest

def DistinctKeysMembers : List (String × Json) → Prop
  | [] => True
  | (_, value) :: rest => DistinctKeys value ∧ DistinctKeysMembers rest

end

end Json

end SchemaCompiler
