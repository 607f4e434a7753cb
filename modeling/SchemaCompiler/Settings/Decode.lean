import SchemaCompiler.Settings
import SchemaCompiler.Settings.Setting
import SchemaCompiler.Text.Case

/-!
# Settings from configured values

A configured value is taken with some freedom, since a source may give a text where a boolean is
meant, or a number where a text is.  A section may be a table or, in the order of its settings, a
list.
-/

namespace SchemaCompiler.Setting

/-- A float as text on its own. -/
private def floatText (layout : Layout) (value : Float) : String :=
  if value.isNaN then "NaN"
  else if value.isInf then if value < 0 then "-inf" else "inf"
  else layout.write value

/-- Floats in messages show that they are floats. -/
def messageLayout : Layout :=
  { Layout.plain with pointZero := true }

def describePlain : PlainValue → String
  | .nothing => "unit value"
  | .flag value => "boolean `" ++ toString value ++ "`"
  | .integer value => "integer `" ++ toString value ++ "`"
  | .float value => "floating point `" ++ floatText messageLayout value ++ "`"
  | .text value => "string " ++ Text.quote value

/-- How a setting is described where something else is due. -/
def describe : Setting → String
  | .plain _ value => describePlain value
  | .list .. => "sequence"
  | .table .. => "map"

/-- How the outermost value of a source is described where it is no table. -/
def describeRoot : Setting → String
  | .plain _ (.integer value) => "64-bit integer `" ++ toString value ++ "`"
  | .plain _ (.float value) => "floating point `" ++ floatText Layout.plain value ++ "`"
  | other => describe other

/-- The source that a setting names. -/
def source? : Setting → Option String
  | .plain source _ => source
  | .list source _ => source
  | .table source _ => source

def toText (key : String) : Setting → Except SettingsError String
  | .plain _ (.text value) => .ok value
  | .plain _ (.flag value) => .ok (toString value)
  | .plain _ (.integer value) => .ok (toString value)
  | .plain _ (.float value) => .ok (floatText Layout.plain value)
  | other => .error (.wrongKind (describe other) "a string" key other.source?)

/-- A flag may be spelled out. -/
def flagNamed? (text : String) : Option Bool :=
  if ["1", "true", "on", "yes"].contains text then some true
  else if ["0", "false", "off", "no"].contains text then some false
  else none

def toFlag (key : String) : Setting → Except SettingsError Bool
  | .plain source (.text value) =>
    let lower := String.ofList (value.toList.flatMap Text.lower)
    match flagNamed? lower with
    | some flag => .ok flag
    | none => .error (.wrongKind ("string " ++ Text.quote lower) "a boolean" key source)
  | .plain _ (.flag value) => .ok value
  | .plain _ (.integer value) => .ok (value ≠ 0)
  | .plain _ (.float value) => .ok (!(value == 0))
  | other => .error (.wrongKind (describe other) "a boolean" key other.source?)

/-- The key of an item in messages. -/
def itemKey (key : String) (i : Nat) : String :=
  key ++ "[" ++ toString i ++ "]"

def toTexts (key : String) : Setting → Except SettingsError (List String)
  | .list _ items => items.zipIdx.mapM fun (item, i) => toText (itemKey key i) item
  | other => .error (.misplaced (describe other) "a sequence")

/-- A setting of a section, with its key in messages. -/
structure Field where
  name : String
  key : String
  setting : Setting

/-- The settings of a section with the given names. -/
def fields (type group : String) (names : List String) :
    Option Setting → Except SettingsError (List Field)
  | none => .ok []
  | some (.table _ entries) =>
    .ok (entries.map fun (name, setting) => ⟨name, group ++ "." ++ name, setting⟩)
  | some (.list _ items) =>
    .ok ((names.zip items).zipIdx.map fun ((name, item), i) => ⟨name, itemKey group i, item⟩)
  | some other => .error (.misplaced (describe other) ("struct " ++ type))

/-- One setting of a section, or its standard value. -/
private def decodeField {α : Type} (fields : List Field) (name : String)
    (read : String → Setting → Except SettingsError α) (standard : α) : Except SettingsError α :=
  match fields.find? (·.name = name) with
  | some field => read field.key field.setting
  | none => .ok standard

/-- The settings that the entries of the outermost table stand for. -/
def toSettings (root : List (String × Setting)) : Except SettingsError Settings := do
  let standard := Settings.standard
  let input ← fields "InputConfig" "input" ["schema_dir"] (Entries.get? root "input")
  let output ←
    fields "OutputConfig" "output" ["dir", "schema_file", "meta_file"] (Entries.get? root "output")
  let codegen ←
    fields "CodegenConfig" "codegen"
      ["runtime_path", "emit_docs", "record_derives", "source_label"] (Entries.get? root "codegen")
  let schemaDirectory ← decodeField input "schema_dir" toText standard.schemaDirectory
  let outputDirectory ← decodeField output "dir" toText standard.outputDirectory
  let schemaFile ← decodeField output "schema_file" toText standard.schemaFile
  let methodFile ← decodeField output "meta_file" toText standard.methodFile
  let options := standard.options
  let runtimePath ← decodeField codegen "runtime_path" toText options.runtimePath
  let emitDocs ← decodeField codegen "emit_docs" toFlag options.emitDocs
  let recordDerives ← decodeField codegen "record_derives" toTexts options.recordDerives
  let sourceLabel ← decodeField codegen "source_label" toText options.sourceLabel
  pure
    { schemaDirectory, outputDirectory, schemaFile, methodFile
      options := { runtimePath, emitDocs, recordDerives, sourceLabel } }

end SchemaCompiler.Setting
