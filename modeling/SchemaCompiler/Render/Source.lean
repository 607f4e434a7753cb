import SchemaCompiler.Model.Build
import SchemaCompiler.Render.Declaration

/-!
# The generated file

A header, then every declaration in the order of the model, each section under its heading.
-/

namespace SchemaCompiler.Render

/-- The first lines of a generated file. -/
def header (label : String) (revision : Option Revision) : Lines :=
  ("// Generated from " ++ label ++ ". Do not edit by hand.") ::
    (revision.map fun revision => "// Schema ref: " ++ revision.text).toList

/-- The declarations, with a heading where a section begins. -/
def sections (context : Context) (current : Option Group) : List TypeDecl → Lines
  | [] => []
  | type :: rest =>
    let heading :=
      if current = some type.group then [] else ["", "// " ++ type.group.heading]
    heading ++ "" :: declaration context type ++ sections context (some type.group) rest

/-- The source of a compiled schema. -/
def source (options : RenderOptions) (model : Model) : String :=
  let context : Context := ⟨options, Profile.standard⟩
  text <|
    header options.sourceLabel model.revision ++
      ["// Schema sha256: " ++ model.checksum.hex, "",
        "use serde::" ++ braced "Deserialize, Serialize" ++ ";"] ++
      sections context none model.types

end SchemaCompiler.Render
