import SchemaCompiler.Wire.Union

/-!
# Shapes and data

A `Shape` describes how a type looks on the wire; a `Datum` is a value of such a type once it has
been decoded.  The two sides of every codec, `Shape.decode` and `Shape.encode`, go by the shape.
-/

namespace SchemaCompiler.Wire

/-- A decoded value.  Absent optional values are `absent`; a record holds one datum for each
declared field. -/
inductive Datum where
  | absent
  | text (value : String)
  | flag (value : Bool)
  | integer (value : Int)
  | float (value : Float)
  | json (value : Json)
  | list (items : List Datum)
  | dictionary (entries : List (String × Datum))
  | record (fields : List Datum)
  | choice (name : String)
  | union (payload : Option Payload)
  | tagged (tag : String) (value : Datum)
  | variant (case : String) (value : Datum)
deriving BEq, Inhabited

/-- How a field may be left out. -/
inductive Presence where
  /-- The field must be there. -/
  | required
  /-- The field may be missing or null, and is then not written. -/
  | optional
  /-- A missing field reads as the default, and is always written. -/
  | defaulted (value : Datum)
  /-- The field has no key of its own and shares the object of the record. -/
  | flattened

structure FieldHead where
  name : String
  presence : Presence

/-- A closed list of names, each the wire form of one case. -/
structure Choices where
  names : List (String × String)

/-- Integers of one width with names for some of them; `other` names the case of all others. -/
structure IntegerEnum where
  name : String
  width : IntWidth
  members : List (String × Int)
  other : Option String

inductive Shape where
  | text
  /-- The path of a file, written as text. -/
  | path
  | flag
  | float
  | integer (width : IntWidth)
  | any
  | list (item : Shape)
  | dictionary (item : Shape)
  | record (name : String) (fields : List (FieldHead × Shape))
  | choice (choices : Choices)
  | integerEnum (members : IntegerEnum)
  | union (alternatives : Union)
  /-- One object per case, told apart by the text of one of its members. -/
  | tagged (base property : String) (cases : List (String × Shape))
  /-- The first case that decodes. -/
  | untagged (name : String) (cases : List (String × Shape))

namespace IntegerEnum

/-- Name of a member, or of the case that holds an unlisted value. -/
def memberName? (e : IntegerEnum) (value : Int) : Option String :=
  match e.members.find? (·.2 = value) with
  | some (name, _) => some name
  | none => e.other.map fun other => other ++ "(" ++ toString value ++ ")"

def isOpen (e : IntegerEnum) : Bool :=
  e.other.isSome

def decode (e : IntegerEnum) (value : Int) : Except CodecError Int :=
  if (e.memberName? value).isSome then .ok value else .error (.unknownMember e.name value)

end IntegerEnum

namespace Shape

/-- What a record is called where another value stands in its place. -/
def recordName (name : String) : String :=
  "struct " ++ name

/-- What a record is called where an array has too few items for it. -/
def recordLength (name : String) (size : Nat) : String :=
  "struct " ++ name ++ " with " ++ toString size ++ if size = 1 then " element" else " elements"

def isFlattened (field : FieldHead × Shape) : Bool :=
  match field.1.presence with
  | .flattened => true
  | _ => false

/-- The field that takes a member, if one has its name. -/
def hasField (fields : List (FieldHead × Shape)) (name : String) : Bool :=
  fields.any fun field => !isFlattened field && field.1.name = name

/-- The datum of a field that is not there. -/
def missing (head : FieldHead) : Except DecodeError Datum :=
  match head.presence with
  | .required => .error (.missingField head.name)
  | .optional => .ok .absent
  | .defaulted value => .ok value
  | .flattened => .ok .absent

/-- One datum for each field with a name, from the members that were decoded. -/
def collect (decoded : List (String × Datum)) :
    List (FieldHead × Shape) → Except DecodeError (List Datum)
  | [] => .ok []
  | (head, shape) :: rest => do
    let value ←
      if isFlattened (head, shape) then pure .absent
      else
        match decoded.lookup head.name with
        | some value => pure value
        | none => missing head
    let values ← collect decoded rest
    pure (value :: values)

end Shape

end SchemaCompiler.Wire
