/-!
# Options of the generated source
-/

namespace SchemaCompiler

structure RenderOptions where
  /-- The path through which the codec declarations are invoked. -/
  runtimePath : String
  /-- Descriptions become comments. -/
  emitDocs : Bool
  /-- What is derived for records. -/
  recordDerives : List String
  /-- The input named in the header. -/
  sourceLabel : String
deriving DecidableEq, Repr

namespace RenderOptions

def standard : RenderOptions where
  runtimePath := "acp_codegen"
  emitDocs := true
  recordDerives := ["Debug", "Clone", "PartialEq", "Serialize", "Deserialize"]
  sourceLabel := "schema/schema.json"

/-- The invocation of a codec declaration. -/
def declaration (options : RenderOptions) (name : String) : String :=
  options.runtimePath ++ "::" ++ name ++ "!"

end RenderOptions

end SchemaCompiler
