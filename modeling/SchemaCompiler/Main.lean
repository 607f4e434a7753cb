import SchemaCompiler.Command.Run

/-!
# The command line

The run of `Command.execute` over the files of the machine.
-/

namespace SchemaCompiler

/-- The reason of a failed operation. -/
def FileFault.ofError : IO.Error → FileFault
  | .noFileOrDirectory .. => .missing
  | .alreadyExists .. => .occupied
  | .inappropriateType _ 20 _ => .notDirectory
  | .inappropriateType _ 21 _ => .isDirectory
  | error => .other (toString error)

private def attempt {α : Type} (action : IO α) : IO (Except FileFault α) := do
  try
    return .ok (← action)
  catch error =>
    return .error (FileFault.ofError error)

private def readText (path : String) : IO (Except FileFault String) := do
  let content ← attempt (IO.FS.readBinFile path)
  return content.bind fun bytes => (String.fromUTF8? bytes).elim (.error .notText) .ok

instance : FileAccess IO where
  read := readText
  createDirectory path := attempt (IO.FS.createDirAll path)
  write path content := attempt (IO.FS.writeFile path content)

/-- The variables that a run looks at. -/
def variableNames : List String :=
  ["HOME", "XDG_CONFIG_HOME", "ACP_CODEGEN__INPUT__SCHEMA_DIR", "ACP_CODEGEN__OUTPUT__DIR",
    "ACP_CODEGEN__OUTPUT__SCHEMA_FILE", "ACP_CODEGEN__OUTPUT__META_FILE",
    "ACP_CODEGEN__CODEGEN__RUNTIME_PATH", "ACP_CODEGEN__CODEGEN__EMIT_DOCS",
    "ACP_CODEGEN__CODEGEN__RECORD_DERIVES", "ACP_CODEGEN__CODEGEN__SOURCE_LABEL"]

def readEnvironment : IO (List (String × String)) :=
  variableNames.filterMapM fun name => do
    return (← IO.getEnv name).map (name, ·)

end SchemaCompiler

open SchemaCompiler in
def main (args : List String) : IO UInt32 := do
  let result ← Command.execute (← readEnvironment) args
  IO.print result.output
  IO.eprint result.errors
  return result.code.toUInt32
