import SchemaCompiler.Files.Path
import SchemaCompiler.Render.Options
import SchemaCompiler.Toml.Write
import SchemaCompiler.Wire.Decode

/-!
# Settings

Where the compiler finds its input, where it writes its output, and how the output looks.  Every
setting may be left out and then has its standard value.
-/

namespace SchemaCompiler

open Wire (Datum DecodeError Presence Shape)

structure Settings where
  /-- The directory of the schema, the method table and the revision. -/
  schemaDirectory : String
  outputDirectory : String
  /-- The file of the generated types, in the output directory. -/
  schemaFile : String
  /-- The file of the method constants, in the output directory. -/
  methodFile : String
  options : RenderOptions
deriving DecidableEq, Repr

namespace Settings

def standard : Settings where
  schemaDirectory := "schema"
  outputDirectory := "src/generated"
  schemaFile := "schema.rs"
  methodFile := "meta.rs"
  options := RenderOptions.standard

def schemaPath (settings : Settings) : String :=
  Path.join settings.schemaDirectory "schema.json"

def methodsPath (settings : Settings) : String :=
  Path.join settings.schemaDirectory "meta.json"

def revisionPath (settings : Settings) : String :=
  Path.join settings.schemaDirectory "VERSION"

def schemaOutput (settings : Settings) : String :=
  Path.join settings.outputDirectory settings.schemaFile

def methodOutput (settings : Settings) : String :=
  Path.join settings.outputDirectory settings.methodFile

end Settings

/-! ## Wire form -/

private def field (name : String) (shape : Shape) (value : Datum) : Wire.FieldHead × Shape :=
  (⟨name, .defaulted value⟩, shape)

namespace RenderOptions

def toDatum (options : RenderOptions) : Datum :=
  .record
    [.text options.runtimePath, .flag options.emitDocs, .list (options.recordDerives.map .text),
      .text options.sourceLabel]

def shape : Shape :=
  .record "CodegenConfig"
    [field "runtime_path" .text (.text standard.runtimePath),
      field "emit_docs" .flag (.flag standard.emitDocs),
      field "record_derives" (.list .text) (.list (standard.recordDerives.map .text)),
      field "source_label" .text (.text standard.sourceLabel)]

def ofDatum? : Datum → Option RenderOptions
  | .record [.text runtimePath, .flag emitDocs, .list derives, .text sourceLabel] => do
    let recordDerives ← derives.mapM fun derive =>
      match derive with
      | .text name => some name
      | _ => none
    some { runtimePath, emitDocs, recordDerives, sourceLabel }
  | _ => none

/-- Options as JSON, of which any may be missing. -/
def ofJson (value : Json) : Except DecodeError RenderOptions := do
  let datum ← shape.decode value
  pure ((ofDatum? datum).getD standard)

end RenderOptions

namespace Settings

def inputShape : Shape :=
  .record "InputConfig" [field "schema_dir" .path (.text standard.schemaDirectory)]

def outputShape : Shape :=
  .record "OutputConfig"
    [field "dir" .path (.text standard.outputDirectory),
      field "schema_file" .text (.text standard.schemaFile),
      field "meta_file" .text (.text standard.methodFile)]

def toDatum (settings : Settings) : Datum :=
  .record
    [.record [.text settings.schemaDirectory],
      .record
        [.text settings.outputDirectory, .text settings.schemaFile, .text settings.methodFile],
      settings.options.toDatum]

def shape : Shape :=
  .record "GeneratorConfig"
    [field "input" inputShape (.record [.text standard.schemaDirectory]),
      field "output" outputShape
        (.record
          [.text standard.outputDirectory, .text standard.schemaFile, .text standard.methodFile]),
      field "codegen" RenderOptions.shape standard.options.toDatum]

def ofDatum? : Datum → Option Settings
  | .record
      [.record [.text schemaDirectory],
        .record [.text outputDirectory, .text schemaFile, .text methodFile], options] => do
    let options ← RenderOptions.ofDatum? options
    some { schemaDirectory, outputDirectory, schemaFile, methodFile, options }
  | _ => none

/-- Settings as JSON, of which any may be missing. -/
def ofJson (value : Json) : Except DecodeError Settings := do
  let datum ← shape.decode value
  pure ((ofDatum? datum).getD standard)

/-- Settings as a TOML document, all of them written out. -/
def toToml (settings : Settings) : String :=
  let options := settings.options
  Toml.tableText "input" [("schema_dir", Toml.stringText settings.schemaDirectory)] ++ "\n" ++
    Toml.tableText "output"
      [("dir", Toml.stringText settings.outputDirectory),
        ("schema_file", Toml.stringText settings.schemaFile),
        ("meta_file", Toml.stringText settings.methodFile)] ++ "\n" ++
    Toml.tableText "codegen"
      [("runtime_path", Toml.stringText options.runtimePath),
        ("emit_docs", toString options.emitDocs),
        ("record_derives", Toml.listText options.recordDerives),
        ("source_label", Toml.stringText options.sourceLabel)]

end Settings

end SchemaCompiler
