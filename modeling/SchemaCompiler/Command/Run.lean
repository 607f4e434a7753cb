import SchemaCompiler.Command.Arguments
import SchemaCompiler.Diff.Unified
import SchemaCompiler.Files.Tree
import SchemaCompiler.Render.MethodConstants
import SchemaCompiler.Settings.Load

/-!
# Running a command

A run reads the revision, generates what its task covers, and writes each file or, where it only
checks, compares it with the text that it would write.  A run is a program over `FileAccess`, so a
run over a `FileTree` is a function of that tree.
-/

namespace SchemaCompiler.Command

/-- Why a run failed; the paths are as they are configured. -/
inductive RunError where
  | settings (error : SettingsError)
  | revision (path : String) (fault : FileFault)
  | loading (path : String) (error : SchemaError)
  | generating (path : String) (error : SchemaError)
  | reading (path : String) (fault : FileFault)
  | creating (path : String) (fault : FileFault)
  | writing (path : String) (fault : FileFault)

/-- An error that stands for another one says so twice: in its own words and as its cause. -/
def causedMessage (error : SchemaError) : String :=
  match error with
  | .unreadable reason => error.message ++ ": " ++ reason
  | .json inner => error.message ++ ": " ++ inner.message
  | _ => error.message

def RunError.message : RunError → String
  | settings error => "failed to load configuration: " ++ error.message
  | revision path fault =>
    "failed to read " ++ path ++ ": " ++ causedMessage (.unreadable fault.message)
  | loading path error => "failed to load " ++ path ++ ": " ++ causedMessage error
  | generating path error =>
    "failed to generate models from " ++ path ++ ": " ++ causedMessage error
  | reading path fault => "failed to read " ++ path ++ ": " ++ fault.message
  | creating path fault => "failed to create " ++ path ++ ": " ++ fault.message
  | writing path fault => "failed to write " ++ path ++ ": " ++ fault.message

/-- How a run ended. -/
inductive Outcome where
  /-- Every selected file holds what is generated for it. -/
  | upToDate
  /-- A check found a file that does not. -/
  | stale
  | failed (error : RunError)

/-- What a run reports: the text of its answer, the notices, and how it ended. -/
structure Report where
  output : String
  notes : String
  outcome : Outcome

namespace Report

def quiet : Report :=
  ⟨"", "", .upToDate⟩

def failure (error : RunError) : Report :=
  ⟨"", "", .failed error⟩

/-- Two reports as one.  The second decides, unless it is up to date. -/
def join (first second : Report) : Report where
  output := first.output ++ second.output
  notes := first.notes ++ second.notes
  outcome :=
    match second.outcome with
    | .upToDate => first.outcome
    | other => other

end Report

variable {m : Type → Type} [Monad m] [FileAccess m]

/-! ## Input -/

/-- The revision of the schema; there need not be one. -/
def readRevision (path : String) : m (Except FileFault (Option Revision)) := do
  match ← FileAccess.read path with
  | .ok content => pure (.ok (Revision.ofText? content))
  | .error .missing | .error .notDirectory => pure (.ok none)
  | .error fault => pure (.error fault)

/-- Reads a file through `parse`. -/
def loadFile {α : Type} (parse : String → Except SchemaError α) (path : String) :
    m (Except SchemaError α) := do
  match ← FileAccess.read path with
  | .ok content => pure (parse content)
  | .error fault => pure (.error (.unreadable fault.message))

/-! ## Output -/

/-- Writes a file, with the directories that lead to it. -/
def writeFile (path content : String) : m Report := do
  match ← makeParent with
  | .error (directory, fault) => pure (.failure (.creating directory fault))
  | .ok () =>
    match ← FileAccess.write path content with
    | .ok () => pure ⟨"📝 Wrote " ++ path ++ "\n", "", .upToDate⟩
    | .error fault => pure (.failure (.writing path fault))
where
  makeParent : m (Except (String × FileFault) Unit) :=
    match (Path.parent? path).filter (· ≠ "") with
    | none => pure (.ok ())
    | some directory => do
      match ← FileAccess.createDirectory directory with
      | .ok () => pure (.ok ())
      | .error fault => pure (.error (directory, fault))

/-- Compares a file with the text that belongs into it. -/
def checkFile (path content : String) : m Report := do
  match ← FileAccess.read path with
  | .ok existing =>
    if existing = content then pure ⟨"✅ " ++ path ++ " is up to date\n", "", .upToDate⟩
    else pure ⟨Diff.unified 3 path "generated" existing content, "", .stale⟩
  | .error .missing => pure ⟨"⚠️  " ++ path ++ " does not exist\n", "", .stale⟩
  | .error fault => pure (.failure (.reading path fault))

def deliver (check : Bool) (path content : String) : m Report :=
  if check then checkFile path content else writeFile path content

/-! ## Tasks -/

def runSchema (settings : Settings) (revision : Option Revision) (check : Bool) : m Report := do
  let input := settings.schemaPath
  match ← loadFile Document.parse input with
  | .error error => pure (.failure (.loading input error))
  | .ok document =>
    match Model.build (document.withRevision revision) with
    | .error error => pure (.failure (.generating input error))
    | .ok model => do
      let source := Render.source settings.options model
      let report ← deliver check settings.schemaOutput source
      pure { report with notes := Notice.report model.notices ++ report.notes }

def runMethods (settings : Settings) (revision : Option Revision) (check : Bool) : m Report := do
  let input := settings.methodsPath
  match ← loadFile MethodTable.parse input with
  | .error error => pure (.failure (.loading input error))
  | .ok table =>
    deliver check settings.methodOutput
      (Render.methodConstants Render.methodLabel (table.withRevision revision))

/-- Runs a task.  Once a part has failed, the next is not started. -/
def run (settings : Settings) (task : Task) (check : Bool) : m Report := do
  match ← readRevision settings.revisionPath with
  | .error fault => pure (.failure (.revision settings.revisionPath fault))
  | .ok revision =>
    let first ← if task.coversSchema then runSchema settings revision check else pure .quiet
    match first.outcome with
    | .failed _ => pure first
    | _ =>
      let second ← if task.coversMethods then runMethods settings revision check else pure .quiet
      pure (first.join second)

/-! ## Command lines -/

/-- The settings with what the command line says instead. -/
def Options.override (options : Options) (settings : Settings) : Settings :=
  { settings with
    schemaDirectory := (options.get? .schemaDirectory).getD settings.schemaDirectory
    outputDirectory := (options.get? .outputDirectory).getD settings.outputDirectory
    options :=
      { settings.options with
        runtimePath := (options.get? .runtimePath).getD settings.options.runtimePath } }

/-- What is left of a run: its exit code and the texts of both streams. -/
structure Result where
  code : UInt8
  output : String
  errors : String

def Report.result (report : Report) : Result :=
  match report.outcome with
  | .upToDate => ⟨0, report.output, report.notes⟩
  | .stale =>
    ⟨1, report.output,
      report.notes ++ "❌ Generated files are out of date; rerun without --check\n"⟩
  | .failed error =>
    ⟨1, report.output, report.notes ++ "❌ Error: " ++ error.message ++ "\n"⟩

def usage : String :=
  "Usage: acp-codegen [--schema-dir DIR] [--output-dir DIR] [--runtime-path PATH] " ++
    "[-c FILE] [--check] <schema|meta|all>\n"

/-- Runs a command line. -/
def execute (environment : List (String × String)) (args : List String) : m Result := do
  match Arguments.read? args with
  | none => pure ⟨2, "", usage⟩
  | some arguments =>
    match ← Settings.load environment (arguments.options.get? .configuration) with
    | .error error => pure (Report.failure (.settings error)).result
    | .ok settings => do
      let settings := arguments.options.override settings
      let report ← run settings arguments.task arguments.options.check
      pure report.result

end SchemaCompiler.Command
