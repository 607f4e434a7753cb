import SchemaCompiler.Files.Tree
import SchemaCompiler.Json.Read
import SchemaCompiler.Settings.Decode
import SchemaCompiler.Settings.Environment
import SchemaCompiler.Settings.Layers
import SchemaCompiler.Toml.Read

/-!
# Loading settings

Configuration files in the current directory come first, then the one of the user, the one that
was asked for, and at last the environment.  Only a file that was asked for has to be there.
-/

namespace SchemaCompiler.Settings

variable {m : Type → Type} [Monad m] [FileAccess m]

/-- The configuration files of a directory; a later one counts more. -/
def locations : List String :=
  ["acp-codegen.toml", ".acp-codegen.toml", "config/acp-codegen.toml"]

/-- The configuration file of the user. -/
def userLocation? (environment : List (String × String)) : Option String :=
  let directory :=
    match (environment.lookup "XDG_CONFIG_HOME").filter Path.isAbsolute with
    | some directory => some directory
    | none =>
      ((environment.lookup "HOME").filter (· ≠ "")).map (Path.join · ".config")
  directory.map (Path.join · "acp-codegen/acp-codegen.toml")

/-- What follows the last point of a file name, unless nothing comes before it. -/
def fileExtension? (path : String) : Option String :=
  let name := (path.toList.reverse.takeWhile (· ≠ '/'))
  let extension := name.takeWhile (· ≠ '.')
  match name.drop extension.length with
  | _ :: _ :: _ => some (String.ofList extension.reverse)
  | _ => none

/-- The name of a file in messages: where it is, seen from the current directory. -/
def sourceName (path : String) : String :=
  if Path.isAbsolute path then path else "/".intercalate (Path.names path)

/-- A mark of the byte order in front of a text is no part of it. -/
def dropOrderMark (content : String) : String :=
  match content.toList with
  | '\ufeff' :: rest => String.ofList rest
  | _ => content

/-- The value that a file of the given form holds. -/
def value? (form content : String) : Option Json :=
  if form = "toml" then Toml.read? content
  else if form = "json" then (Json.parse content).toOption
  else none

/-- The settings in a file of the given form. -/
def parse (form path content : String) : Except SettingsError Source :=
  let source := sourceName path
  match (value? form (dropOrderMark content)).map (Setting.ofJson source) with
  | some (.table _ entries) => .ok entries
  | some other => .error (.noTable other.describeRoot source)
  | none => .error (.malformed source)

/-- The forms that are tried behind a name that leads to no file. -/
def forms : List String :=
  ["toml", "json"]

/-- The first of some files that is there. -/
def firstFile : List (String × String) → m (Except SettingsError (Option Source))
  | [] => pure (.ok none)
  | (form, path) :: rest => do
    match ← FileAccess.read path with
    | .ok content => pure ((parse form path content).map some)
    | .error _ => firstFile rest

/-- The settings in a file, if it is there. -/
def readSource (path : String) : m (Except SettingsError (Option Source)) := do
  match ← FileAccess.read path with
  | .ok content =>
    match fileExtension? path with
    | some form =>
      if forms.contains form then pure ((parse form path content).map some)
      else pure (.error (.unknownFormat path))
    | none => pure (.error (.unknownFormat path))
  | .error _ => firstFile (forms.map fun form => (form, path ++ "." ++ form))

/-- The settings in a file that need not be there. -/
def readOptional (path : String) : m (Except SettingsError Source) := do
  return (← readSource path).map (·.getD [])

/-- The settings in the file of the user, which goes by its name alone. -/
def readUserFile (path : String) : m (Except SettingsError Source) := do
  return (← firstFile [("toml", path)]).map (·.getD [])

/-- The settings in the file that was asked for. -/
def readExplicit (path : String) : m (Except SettingsError Source) := do
  return (← readSource path).bind fun source =>
    match source with
    | some entries => .ok entries
    | none => .error (.missingFile path)

/-- The settings that some sources give, a later one counting more. -/
def ofSources (sources : List Source) : Except SettingsError Settings :=
  Setting.toSettings (sources.foldl Setting.overlaySource (.table none [])).entries

/-- The settings of all sources. -/
def load (environment : List (String × String)) (explicit : Option String) :
    m (Except SettingsError Settings) := do
  let shared ← locations.mapM readOptional
  let own ← (userLocation? environment).toList.mapM readUserFile
  let asked ← explicit.toList.mapM readExplicit
  return do
    let sources ← (shared ++ own ++ asked).mapM id
    ofSources (sources ++ [Setting.ofEnvironment environment])

end SchemaCompiler.Settings
