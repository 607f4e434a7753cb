import SchemaCompiler.Json.Read
import SchemaCompiler.Wire.Decode

/-!
# Decoding straight from text

A record, a list or a name reads its text as it goes along, so the first fault or misfit in
reading order is reported, and a member that no field takes is only passed over.  A member that
comes twice is refused where the type reads it itself.  Types that must see a whole value first,
such as tagged objects and unions, read the value and then decode it.
-/

namespace SchemaCompiler.Wire.Shape

open Draft (descend finish levelLimit)

/-- The whole value. -/
def readAll (levels : Nat) (draft : Draft) : Except DecodeError Json :=
  (draft.toJson levels).mapError .notJson

/-- The value as seen from outside. -/
def readFront (draft : Draft) : Except DecodeError Json :=
  draft.front.mapError .notJson

def readLevel (levels : Nat) : Except DecodeError Nat :=
  (descend levels).mapError .notJson

def readEnd (ending : Option Fault) : Except DecodeError Unit :=
  (finish ending).mapError .notJson

/-- A name as the only key of an object.  A second key is a comma out of place. -/
def decodeChoiceEntry (choices : Choices) (levels : Nat) (members : List (Draft × Draft))
    (ending : Option Fault) : Except DecodeError Datum := do
  let _ ← readLevel levels
  match members with
  | [] => throw (.notJson (ending.getD .malformed))
  | (name, value) :: rest =>
    let datum ←
      match name with
      | .string token => do
        let text ← token.reading.mapError .notJson
        decodeName choices text
      | stray => do
        let front ← readFront stray
        throw (.wrongKind front "variant identifier")
    match ← readFront value with
    | .null => pure ()
    | other => throw (.wrongKind other "unit")
    if !rest.isEmpty then throw (.notJson .malformed)
    readEnd ending
    pure datum

def decodeChoiceText (choices : Choices) (levels : Nat) : Draft → Except DecodeError Datum
  | .string token => do
    let name ← token.reading.mapError .notJson
    decodeName choices name
  | .object members ending => decodeChoiceEntry choices levels members ending
  | .broken fault => .error (.notJson fault)
  | _ => .error (.notJson .malformed)

/-- An absent optional field is one that holds null. -/
def isNull : Draft → Bool
  | .word ⟨.ok .null, _⟩ => true
  | _ => false

mutual

def decodeText : Shape → Nat → Draft → Except DecodeError Datum
  | .list item, levels, draft =>
    match draft with
    | .array items ending => do
      let levels ← readLevel levels
      let decoded ← items.mapM fun draft => decodeText item levels draft
      readEnd ending
      pure (.list decoded)
    | other => do
      let front ← readFront other
      throw (.wrongKind front "a sequence")
  | .dictionary item, levels, draft =>
    match draft with
    | .object members ending => do
      let levels ← readLevel levels
      let decoded ← members.mapM fun (name, value) => do
        let key ← name.key.mapError .notJson
        let datum ← decodeText item levels value
        pure (key, datum)
      readEnd ending
      pure (.dictionary (Entries.ofPairs decoded))
    | other => do
      let front ← readFront other
      throw (.wrongKind front "a map")
  | .record name fields, levels, draft =>
    match draft with
    | .object members ending => do
      let levels ← readLevel levels
      let (decoded, unclaimed) ← members.foldlM
        (fun (decoded, unclaimed) (name, value) => do
          let key ← name.key.mapError .notJson
          match decodeFieldText fields key levels with
          | some read =>
            if (decoded.lookup key).isSome then throw (.duplicateField key)
            let datum ← read value
            pure ((key, datum) :: decoded, unclaimed)
          | none =>
            if fields.any isFlattened then
              let value ← readAll levels value
              pure (decoded, unclaimed ++ [(key, value)])
            else
              readEnd value.passing
              pure (decoded, unclaimed))
        (([] : List (String × Datum)), ([] : List (String × Json)))
      readEnd ending
      let values ← collect decoded fields
      let values ← decodeFlattened fields (.object (Entries.ofPairs unclaimed)) values
      pure (.record values)
    | .array items ending =>
      if fields.any isFlattened then .error (.wrongKind (.array []) (recordName name))
      else do
        let levels ← readLevel levels
        let (values, rest) ←
          decodeInOrderText (recordLength name fields.length) 0 fields levels items ending
        if !rest.isEmpty then throw (.notJson .malformed)
        readEnd ending
        pure (.record values)
    | other => do
      let front ← readFront other
      throw (.wrongKind front (recordName name))
  | .choice choices, levels, draft => decodeChoiceText choices levels draft
  | .untagged name cases, levels, draft => do
    let _ ← readAll levels draft
    match decodeFirstText cases levels draft with
    | some datum => pure datum
    | none => throw (.noCaseMatches name)
  | .any, levels, draft => (readAll levels draft).map .json
  | .union alternatives, levels, draft => do
    let value ← readAll levels draft
    decode (.union alternatives) value
  | .tagged base property cases, levels, draft => do
    let value ← readAll levels draft
    decode (.tagged base property cases) value
  | scalar, _, draft => do
    let value ← readFront draft
    decode scalar value

/-- How the field with the given name reads its value. -/
def decodeFieldText : List (FieldHead × Shape) → String → Nat →
    Option (Draft → Except DecodeError Datum)
  | [], _, _ => none
  | (head, shape) :: rest, key, levels =>
    if !isFlattened (head, shape) && head.name = key then
      some fun draft =>
        match head.presence, isNull draft with
        | .optional, true => .ok .absent
        | _, _ => decodeText shape levels draft
    else decodeFieldText rest key levels

/-- The fields of a record from an array, and the items left over. -/
def decodeInOrderText (expected : String) (index : Nat) :
    List (FieldHead × Shape) → Nat → List Draft → Option Fault →
      Except DecodeError (List Datum × List Draft)
  | [], _, items, _ => .ok ([], items)
  | (head, _) :: rest, levels, [], ending => do
    readEnd ending
    let value ← (missing head).mapError fun _ => .wrongLength index expected
    let (values, left) ← decodeInOrderText expected (index + 1) rest levels [] ending
    pure (value :: values, left)
  | (head, shape) :: rest, levels, item :: items, ending => do
    let value ←
      match head.presence, isNull item with
      | .optional, true => pure .absent
      | _, _ => decodeText shape levels item
    let (values, left) ← decodeInOrderText expected (index + 1) rest levels items ending
    pure (value :: values, left)

/-- The first case that decodes. -/
def decodeFirstText : List (String × Shape) → Nat → Draft → Option Datum
  | [], _, _ => none
  | (name, shape) :: rest, levels, draft =>
    match decodeText shape levels draft with
    | .ok datum => some (.variant name datum)
    | .error _ => decodeFirstText rest levels draft

end

/-- A whole text. -/
def ofText (shape : Shape) (text : String) : Except DecodeError Datum := do
  let (draft, trailing) := Draft.ofText text
  let datum ← decodeText shape levelLimit draft
  readEnd trailing
  pure datum

/-- A whole text, read as a value before it is decoded. -/
def ofValueText (shape : Shape) (text : String) : Except DecodeError Datum := do
  let value ← (Json.parse text).mapError .notJson
  decode shape value

end SchemaCompiler.Wire.Shape
