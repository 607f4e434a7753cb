import SchemaCompiler.Wire.Discriminator
import SchemaCompiler.Wire.Shape

/-!
# Encoding a datum

Fields are written in declaration order, an absent optional field not at all, and a flattened
field as members of the surrounding object.  There is no encoding for a datum that does not have
the shape.
-/

namespace SchemaCompiler.Wire.Shape

mutual

def encode : Shape → Datum → Option Json
  | .text, .text value => some (.string value)
  | .path, .text value => some (.string value)
  | .flag, .flag value => some (.bool value)
  | .float, .float value => some (.number (.float value))
  | .integer _, .integer value => some (.number (.int value))
  | .any, .json value => some value
  | .list item, .list items => do
    let encoded ← items.mapM fun datum => encode item datum
    some (.array encoded)
  | .dictionary item, .dictionary entries => do
    let encoded ← entries.mapM fun (key, datum) => do
      let value ← encode item datum
      some (key, value)
    some (.object encoded)
  | .record _ fields, .record values => do
    let members ← encodeFields fields values
    some (.object members)
  | .choice _, .choice name => some (.string name)
  | .integerEnum _, .integer value => some (.number (.int value))
  | .union _, .union payload => some (Union.encode payload)
  | .tagged base property cases, .tagged tag value => do
    let encoded ← encodeCase cases tag value
    let members ← (writeTag base property tag encoded).toOption
    some (.object members)
  | .untagged _ cases, .variant case value => encodeCase cases case value
  | _, _ => none

def encodeFields : List (FieldHead × Shape) → List Datum → Option (List (String × Json))
  | [], [] => some []
  | (head, shape) :: rest, value :: values => do
    let members ← encodeFields rest values
    match head.presence, value with
    | .optional, .absent => some members
    | .flattened, value => do
      let inner ← encode shape value
      let own ← inner.object?
      some (own ++ members)
    | _, value => do
      let encoded ← encode shape value
      some ((head.name, encoded) :: members)
  | _, _ => none

def encodeCase : List (String × Shape) → String → Datum → Option Json
  | [], _, _ => none
  | (name, shape) :: rest, case, value =>
    if name = case then encode shape value else encodeCase rest case value

end

theorem encode_list (item : Shape) (items : List Datum) :
    encode (.list item) (.list items) = (do
      let encoded ← items.mapM fun datum => encode item datum
      some (.array encoded)) :=
  rfl

theorem encode_dictionary (item : Shape) (entries : List (String × Datum)) :
    encode (.dictionary item) (.dictionary entries) = (do
      let encoded ← entries.mapM fun (key, datum) => do
        let value ← encode item datum
        some (key, value)
      some (.object encoded)) :=
  rfl

theorem encode_record (name : String) (fields : List (FieldHead × Shape)) (values : List Datum) :
    encode (.record name fields) (.record values) = (do
      let members ← encodeFields fields values
      some (.object members)) :=
  rfl

theorem encode_tagged (base property : String) (cases : List (String × Shape)) (tag : String)
    (value : Datum) :
    encode (.tagged base property cases) (.tagged tag value) = (do
      let encoded ← encodeCase cases tag value
      let members ← (writeTag base property tag encoded).toOption
      some (.object members)) :=
  rfl

theorem encode_untagged (name : String) (cases : List (String × Shape)) (case : String)
    (value : Datum) :
    encode (.untagged name cases) (.variant case value) = encodeCase cases case value :=
  rfl

theorem encodeFields_cons (head : FieldHead) (shape : Shape) (rest : List (FieldHead × Shape))
    (value : Datum) (values : List Datum) :
    encodeFields ((head, shape) :: rest) (value :: values) = (do
      let members ← encodeFields rest values
      match head.presence, value with
      | .optional, .absent => some members
      | .flattened, value => do
        let inner ← encode shape value
        let own ← inner.object?
        some (own ++ members)
      | _, value => do
        let encoded ← encode shape value
        some ((head.name, encoded) :: members)) :=
  rfl

theorem encodeCase_cons (name : String) (shape : Shape) (rest : List (String × Shape))
    (case : String) (value : Datum) :
    encodeCase ((name, shape) :: rest) case value =
      if name = case then encode shape value else encodeCase rest case value :=
  rfl

end SchemaCompiler.Wire.Shape
