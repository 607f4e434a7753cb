import SchemaCompiler.Wire.Encode
import SchemaCompiler.Wire.FromText
import SchemaCompiler.Wire.Gallery

/-!
# Types by name

Looking up a declared type, the records that stand as cases of tagged types, and the injections
of a payload into the type that holds it.
-/

namespace SchemaCompiler.Wire

namespace Shape

def recordNamed? : Shape → Option String
  | .record name _ => some name
  | _ => none

/-- The table of decoders of a tagged type. -/
def registry? : Shape → Option (Registry Datum)
  | .tagged base property cases =>
    some <| cases.foldl
      (fun registry (tag, case) =>
        registry.register tag fun value => decodeCase base property [(tag, case)] tag value)
      (Registry.empty base property)
  | _ => none

/-- The cases of a tagged type: tag and record. -/
def cases : Shape → List (String × Shape)
  | .tagged _ _ cases => cases
  | _ => []

end Shape

/-- Every declared type, with the records that only stand as cases of another type. -/
def declaredTypes : List (String × Shape) :=
  let named := Protocol.types ++ Gallery.types
  named ++ named.flatMap fun (_, shape) =>
    shape.cases.filterMap fun (_, case) => case.recordNamed?.map (·, case)

def typeNamed? (name : String) : Option Shape :=
  declaredTypes.lookup name

/-- The tag under which a record stands as a case of some tagged type. -/
def tagOf? (record : String) : Option String :=
  declaredTypes.findSome? fun (_, shape) =>
    shape.cases.findSome? fun (tag, case) =>
      if case.recordNamed? = some record then some tag else none

/-- The union alternative that holds a primitive payload. -/
def alternative? : Shape → Datum → Option Payload
  | .text, .text value => some (.string value)
  | .flag, .flag value => some (.boolean value)
  | .float, .float value => some (.float value)
  | .integer width, .integer value => some (.integer width value)
  | .dictionary .any, .dictionary entries => do
    let members ← entries.mapM fun (key, datum) =>
      match datum with
      | .json value => some (key, value)
      | _ => none
    some (.object members)
  | .list .any, .list items => do
    let values ← items.mapM fun datum =>
      match datum with
      | .json value => some value
      | _ => none
    some (.array values)
  | _, _ => none

/-- A payload as a value of the type that holds it. -/
def inject? (target payload : Shape) (datum : Datum) : Option Datum :=
  match target with
  | .union _ => (alternative? payload datum).map (.union ∘ some)
  | .tagged _ _ cases =>
    cases.findSome? fun (tag, case) =>
      if case.recordNamed? = payload.recordNamed? then some (.tagged tag datum) else none
  | .untagged _ cases =>
    cases.findSome? fun (name, case) =>
      if case.recordNamed? = payload.recordNamed? then some (.variant name datum) else none
  | _ => some datum

/-- A primitive as plain text. -/
def Datum.plainText : Datum → String
  | .text value => value
  | .flag value => toString value
  | .integer value => toString value
  | .float value => Layout.plain.write value
  | .json value => value.text
  | _ => ""

/-- Decoding what was written gives the datum back. -/
def Shape.roundTrips (shape : Shape) (datum : Datum) : Bool :=
  match shape.encode datum with
  | none => false
  | some value =>
    match shape.ofText value.text with
    | .ok back => back == datum
    | .error _ => false

end SchemaCompiler.Wire
