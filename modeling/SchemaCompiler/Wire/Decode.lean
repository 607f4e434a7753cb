import SchemaCompiler.Wire.Discriminator
import SchemaCompiler.Wire.Shape

/-!
# Decoding a value

A record reads an object, whose unknown members it ignores, or an array of its fields in order.
Members are decoded in document order, so the first of them that does not fit is the one reported;
a missing field is reported after all of them.
-/

namespace SchemaCompiler.Wire.Shape

/-- A number where an integer of the width is due. -/
def decodeInteger (width : IntWidth) : Json → Except DecodeError Int
  | .number (.int value) =>
    if width.holds value then .ok value else .error (.outOfRange value width.label)
  | other => .error (.wrongKind other width.label)

def decodeName (choices : Choices) (name : String) : Except DecodeError Datum :=
  if choices.names.any (·.1 = name) then .ok (.choice name)
  else .error (.unknownChoice name (choices.names.map (·.1)))

/-- A name on its own, or as the single key of an object that holds null. -/
def decodeChoice (choices : Choices) : Json → Except DecodeError Datum
  | .string name => decodeName choices name
  | .object [(name, value)] => do
    let case ← decodeName choices name
    match value with
    | .null => pure case
    | other => throw (.wrongKind other "unit")
  | .object _ => .error .notSingleKey
  | other => .error (.wrongKind other "string or map")

mutual

def decode : Shape → Json → Except DecodeError Datum
  | .text, value =>
    match value with
    | .string content => .ok (.text content)
    | other => .error (.wrongKind other "a string")
  | .path, value =>
    match value with
    | .string content => .ok (.text content)
    | other => .error (.wrongKind other "path string")
  | .flag, value =>
    match value with
    | .bool state => .ok (.flag state)
    | other => .error (.wrongKind other "a boolean")
  | .float, value =>
    match value with
    | .number number => .ok (.float number.toFloat)
    | other => .error (.wrongKind other "f64")
  | .integer width, value => (decodeInteger width value).map .integer
  | .any, value => .ok (.json value)
  | .list item, value =>
    match value with
    | .array items => do
      let decoded ← items.mapM fun item' => decode item item'
      pure (.list decoded)
    | other => .error (.wrongKind other "a sequence")
  | .dictionary item, value =>
    match value with
    | .object members => do
      let decoded ← members.mapM fun (key, value) => do
        let datum ← decode item value
        pure (key, datum)
      pure (.dictionary decoded)
    | other => .error (.wrongKind other "a map")
  | .record name fields, value =>
    match value with
    | .object members => do
      let decoded ← members.filterMapM fun (key, value) => do
        match decodeField fields key value with
        | none => pure none
        | some result =>
          let datum ← result
          pure (some (key, datum))
      let values ← collect decoded fields
      let unclaimed := members.filter fun (key, _) => !hasField fields key
      let values ← decodeFlattened fields (.object unclaimed) values
      pure (.record values)
    | .array items =>
      if fields.any isFlattened then .error (.wrongKind value (recordName name))
      else do
        let values ← decodeInOrder (recordLength name fields.length) 0 fields items
        if items.length ≤ fields.length then pure (.record values)
        else throw (.wrongLength items.length "fewer elements in array")
    | other => .error (.wrongKind other (recordName name))
  | .choice choices, value => decodeChoice choices value
  | .integerEnum members, value => do
    let raw ← decodeInteger members.width value
    let member ← (members.decode raw).mapError .codec
    pure (.integer member)
  | .union alternatives, value =>
    match alternatives.decode value with
    | .ok payload => .ok (.union payload)
    | .error error => .error (.codec error)
  | .tagged base property cases, value =>
    match readTag base property value with
    | .error error => .error (.codec error)
    | .ok tag => (decodeCase base property cases tag value).mapError .codec
  | .untagged name cases, value =>
    match decodeFirst cases value with
    | some datum => .ok datum
    | none => .error (.noCaseMatches name)

/-- The value of a member, for the field that takes it. -/
def decodeField : List (FieldHead × Shape) → String → Json → Option (Except DecodeError Datum)
  | [], _, _ => none
  | (head, shape) :: rest, key, value =>
    if !isFlattened (head, shape) && head.name = key then
      match head.presence, value with
      | .optional, .null => some (.ok .absent)
      | _, _ => some (decode shape value)
    else decodeField rest key value

/-- The fields of a record from the items of an array; a field that may be missing may be cut off
at the end. -/
def decodeInOrder (expected : String) (index : Nat) :
    List (FieldHead × Shape) → List Json → Except DecodeError (List Datum)
  | [], _ => .ok []
  | (head, _) :: rest, [] => do
    let value ← (missing head).mapError fun _ => .wrongLength index expected
    let values ← decodeInOrder expected (index + 1) rest []
    pure (value :: values)
  | (head, shape) :: rest, item :: items => do
    let value ←
      match head.presence, item with
      | .optional, .null => pure .absent
      | _, _ => decode shape item
    let values ← decodeInOrder expected (index + 1) rest items
    pure (value :: values)

/-- Puts the flattened fields in place, each of which reads the members that no field claims. -/
def decodeFlattened : List (FieldHead × Shape) → Json → List Datum →
    Except DecodeError (List Datum)
  | (head, shape) :: rest, unclaimed, value :: values => do
    let value ← if isFlattened (head, shape) then decode shape unclaimed else pure value
    let values ← decodeFlattened rest unclaimed values
    pure (value :: values)
  | _, _, values => .ok values

/-- The case with the given tag. -/
def decodeCase (base property : String) : List (String × Shape) → String → Json →
    Except CodecError Datum
  | [], tag, _ => .error (.unknownDiscriminator base property tag)
  | (name, shape) :: rest, tag, value =>
    if name = tag then
      match decode shape value with
      | .ok datum => .ok (.tagged tag datum)
      | .error error => .error (.json error)
    else decodeCase base property rest tag value

/-- The first case that decodes. -/
def decodeFirst : List (String × Shape) → Json → Option Datum
  | [], _ => none
  | (name, shape) :: rest, value =>
    match decode shape value with
    | .ok datum => some (.variant name datum)
    | .error _ => decodeFirst rest value

end

theorem decodeFirst_cons (name : String) (shape : Shape) (rest : List (String × Shape))
    (value : Json) :
    decodeFirst ((name, shape) :: rest) value =
      match decode shape value with
      | .ok datum => some (.variant name datum)
      | .error _ => decodeFirst rest value :=
  rfl

/-- A value of a tagged type, with the rule of that type as the error. -/
def decodeTagged (base property : String) (cases : List (String × Shape)) (value : Json) :
    Except CodecError Datum := do
  let tag ← readTag base property value
  decodeCase base property cases tag value

end SchemaCompiler.Wire.Shape
