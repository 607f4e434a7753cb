import SchemaCompiler.Command.Run
import SchemaCompiler.Proofs.Files.Tree
import SchemaCompiler.Proofs.Settings.Load

/-!
# What a run does

A task is a list of parts: each makes a text from one input and delivers it to one output
(`Task.parts`).  Over a tree, a run delivers its parts one after the other until one fails
(`conclude_run`), and a command line is such a run with the settings that were loaded
(`conclude_session`, `answer_execute`).  So what holds of a run is shown by induction on its parts.
-/

namespace SchemaCompiler.Command

open FileTree (Grows answer_bind after_bind answer_pure after_pure answer_read after_read)

/-- How a program ends over a tree, and the tree that it leaves. -/
def conclude (tree : FileTree) (program : StateM FileTree Report) : Outcome × FileTree :=
  ((tree.answer program).outcome, tree.after program)

/-- An error that the inputs of a run are the cause of. -/
def RunError.OfInput : RunError → Prop
  | settings _ | revision .. | loading .. | generating .. => True
  | reading .. | creating .. | writing .. => False

instance : DecidablePred RunError.OfInput
  | .settings _ | .revision .. | .loading .. | .generating .. => .isTrue trivial
  | .reading .. | .creating .. | .writing .. => .isFalse id

/-! ## Parts of tasks -/

/-- One file that is generated, from one file that is read. -/
structure Part where
  input : String
  output : String
  /-- The text to deliver, made from the revision and from what reading the input gave. -/
  text : Option Revision → Except FileFault String → Except RunError String

/-- What `parse` makes of a file. -/
def parsed {α : Type} (parse : String → Except SchemaError α) :
    Except FileFault String → Except SchemaError α
  | .ok content => parse content
  | .error fault => .error (.unreadable fault.message)

def schemaPart (settings : Settings) : Part where
  input := settings.schemaPath
  output := settings.schemaOutput
  text revision content := do
    let document ←
      (parsed Document.parse content).mapError (RunError.loading settings.schemaPath)
    let model ←
      (Model.build (document.withRevision revision)).mapError
        (RunError.generating settings.schemaPath)
    return Render.source settings.options model

def methodPart (settings : Settings) : Part where
  input := settings.methodsPath
  output := settings.methodOutput
  text revision content := do
    let table ←
      (parsed MethodTable.parse content).mapError (RunError.loading settings.methodsPath)
    return Render.methodConstants Render.methodLabel (table.withRevision revision)

def Task.parts (task : Task) (settings : Settings) : List Part :=
  match task with
  | schema => [schemaPart settings]
  | methods => [methodPart settings]
  | all => [schemaPart settings, methodPart settings]

/-- The revision of a tree. -/
def revisionOf (settings : Settings) (tree : FileTree) : Except RunError (Option Revision) :=
  match tree.read settings.revisionPath with
  | .ok content => .ok (Revision.ofText? content)
  | .error .missing | .error .notDirectory => .ok none
  | .error fault => .error (.revision settings.revisionPath fault)

/-- What a task generates from a tree: the outputs and their texts. -/
def generated (settings : Settings) (task : Task) (tree : FileTree) :
    Except RunError (List (String × String)) := do
  let revision ← revisionOf settings tree
  (task.parts settings).mapM fun part =>
    return (part.output, ← part.text revision (tree.read part.input))

/-! ## Runs as functions of the tree -/

def Outcome.join (first second : Outcome) : Outcome :=
  match second with
  | .upToDate => first
  | other => other

def Part.conclude (part : Part) (revision : Option Revision) (check : Bool) (tree : FileTree) :
    Outcome × FileTree :=
  match part.text revision (tree.read part.input) with
  | .ok text => Command.conclude tree (deliver check part.output text)
  | .error error => (.failed error, tree)

/-- Delivers parts one after the other until one fails. -/
def concludeAll (revision : Option Revision) (check : Bool) :
    List Part → FileTree → Outcome × FileTree
  | [], tree => (.upToDate, tree)
  | part :: rest, tree =>
    match part.conclude revision check tree with
    | (.failed error, after) => (.failed error, after)
    | (first, after) =>
      let (last, after) := concludeAll revision check rest after
      (first.join last, after)

@[simp] theorem upToDate_join (outcome : Outcome) : Outcome.upToDate.join outcome = outcome := by
  cases outcome <;> rfl

theorem join_eq_upToDate_iff {first second : Outcome} :
    first.join second = .upToDate ↔ first = .upToDate ∧ second = .upToDate := by
  cases second <;> simp [Outcome.join]

/-! ## Runs part by part -/

variable {tree : FileTree}

theorem conclude_runSchema (settings : Settings) (revision : Option Revision) (check : Bool) :
    conclude tree (runSchema settings revision check) =
      (schemaPart settings).conclude revision check tree := by
  simp only [Part.conclude, schemaPart, parsed, runSchema, loadFile, conclude, answer_bind,
    after_bind, answer_read, after_read]
  cases tree.read settings.schemaPath with
  | error fault => rfl
  | ok content =>
      simp only [answer_pure, after_pure]
      cases Document.parse content with
      | error error => rfl
      | ok document =>
          simp only [Except.mapError, bind, Except.bind]
          cases Model.build (document.withRevision revision) with
          | error error => rfl
          | ok model => rfl

theorem conclude_runMethods (settings : Settings) (revision : Option Revision) (check : Bool) :
    conclude tree (runMethods settings revision check) =
      (methodPart settings).conclude revision check tree := by
  simp only [Part.conclude, methodPart, parsed, runMethods, loadFile, conclude, answer_bind,
    after_bind, answer_read, after_read]
  cases tree.read settings.methodsPath with
  | error fault => rfl
  | ok content =>
      simp only [answer_pure, after_pure]
      cases MethodTable.parse content with
      | error error => rfl
      | ok table => rfl

theorem outcome_join (first second : Report) :
    (first.join second).outcome = first.outcome.join second.outcome := by
  rw [Report.join]
  cases second.outcome <;> rfl

/-- Two programs one after the other, where the second is skipped once the first has failed. -/
theorem conclude_join (first second : StateM FileTree Report) :
    conclude tree (do
        let first ← first
        match first.outcome with
        | .failed _ => pure first
        | _ =>
          let second ← second
          pure (first.join second)) =
      match conclude tree first with
      | (.failed error, after) => (.failed error, after)
      | (outcome, after) =>
        (outcome.join (conclude after second).1, (conclude after second).2) := by
  simp only [conclude, answer_bind, after_bind]
  cases houtcome : (tree.answer first).outcome with
  | failed error => simp [houtcome]
  | upToDate =>
      simp only [answer_bind, after_bind, answer_pure, after_pure, outcome_join, houtcome]
  | stale => simp only [answer_bind, after_bind, answer_pure, after_pure, outcome_join, houtcome]

theorem concludeAll_singleton (revision : Option Revision) (check : Bool) (part : Part) :
    concludeAll revision check [part] tree = part.conclude revision check tree := by
  simp only [concludeAll]
  rcases part.conclude revision check tree with ⟨outcome, after⟩
  cases outcome <;> rfl

theorem conclude_run (settings : Settings) (task : Task) (check : Bool) :
    conclude tree (run settings task check) =
      match revisionOf settings tree with
      | .ok revision => concludeAll revision check (task.parts settings) tree
      | .error error => (.failed error, tree) := by
  have hparts (revision : Option Revision) :
      conclude tree (do
          let first ← if task.coversSchema then runSchema settings revision check else pure .quiet
          match first.outcome with
          | .failed _ => pure first
          | _ =>
            let second ←
              if task.coversMethods then runMethods settings revision check else pure .quiet
            pure (first.join second)) =
        concludeAll revision check (task.parts settings) tree := by
    cases task with
    | schema =>
        refine (conclude_join (runSchema settings revision check) (pure .quiet)).trans ?_
        rw [conclude_runSchema]
        rfl
    | methods =>
        -- what is skipped in front is up to date
        refine (conclude_join (pure .quiet) (runMethods settings revision check)).trans ?_
        rw [Task.parts, concludeAll_singleton, ← conclude_runMethods]
        show (Outcome.upToDate.join _, _) = _
        rw [upToDate_join]
        rfl
    | all =>
        refine (conclude_join (runSchema settings revision check)
          (runMethods settings revision check)).trans ?_
        rw [conclude_runSchema, Task.parts, concludeAll]
        simp only [conclude_runMethods, concludeAll_singleton]
  simp only [run, readRevision, revisionOf, conclude, answer_bind, after_bind, answer_read,
    after_read]
  cases tree.read settings.revisionPath with
  | ok content => exact hparts _
  -- only two of the faults mean that there is no revision
  | error fault => cases fault <;> first | exact hparts _ | rfl

/-! ## Command lines -/

/-- The settings of a command line over a tree. -/
def settingsOf (environment : List (String × String)) (arguments : Arguments) (tree : FileTree) :
    Except SettingsError Settings :=
  (tree.answer (Settings.load environment (arguments.options.get? .configuration))).map
    arguments.options.override

/-- A command line, up to the report that it ends with. -/
def session (environment : List (String × String)) (arguments : Arguments) :
    StateM FileTree Report := do
  match ← Settings.load environment (arguments.options.get? .configuration) with
  | .error error => pure (Report.failure (.settings error))
  | .ok settings =>
    run (arguments.options.override settings) arguments.task arguments.options.check

theorem conclude_session (environment : List (String × String)) (arguments : Arguments) :
    conclude tree (session environment arguments) =
      match settingsOf environment arguments tree with
      | .ok settings => conclude tree (run settings arguments.task arguments.options.check)
      | .error error => (.failed (.settings error), tree) := by
  -- loading leaves the tree as it is, so the run starts with the same one
  have hload := (Settings.consults_load environment
    (arguments.options.get? .configuration)).after_eq tree
  simp only [session, settingsOf, conclude, answer_bind, after_bind, hload]
  cases tree.answer (Settings.load environment (arguments.options.get? .configuration)) <;> rfl

section Execute

variable {environment : List (String × String)} {args : List String} {arguments : Arguments}

theorem execute_eq (h : Arguments.read? args = some arguments) :
    (execute environment args : StateM FileTree Result) =
      (session environment arguments >>= fun report => pure report.result) := by
  simp only [execute, h, session, bind_assoc]
  congr 1
  funext loaded
  cases loaded <;> simp

theorem answer_execute (h : Arguments.read? args = some arguments) :
    tree.answer (execute environment args) =
      (tree.answer (session environment arguments)).result := by
  rw [execute_eq h, answer_bind, answer_pure]

theorem after_execute (h : Arguments.read? args = some arguments) :
    tree.after (execute environment args) = tree.after (session environment arguments) := by
  rw [execute_eq h, after_bind, after_pure]

theorem code_eq_zero_iff {report : Report} :
    report.result.code = 0 ↔ report.outcome = .upToDate := by
  rw [Report.result]
  cases report.outcome <;> simp

end Execute

/-! ## Delivering -/

/-- How a check ends, from what reading the output gave. -/
def checked (path text : String) : Except FileFault String → Outcome
  | .ok content => if content = text then .upToDate else .stale
  | .error .missing => .stale
  | .error fault => .failed (.reading path fault)

theorem conclude_checkFile (path text : String) :
    conclude tree (checkFile path text) = (checked path text (tree.read path), tree) := by
  simp only [checkFile, checked, conclude, answer_bind, after_bind, answer_read, after_read]
  cases tree.read path with
  | ok content =>
      by_cases h : content = text <;> simp [h]
  | error fault => cases fault <;> rfl

theorem checked_eq_upToDate_iff {path text : String} {content : Except FileFault String} :
    checked path text content = .upToDate ↔ content = .ok text := by
  cases content with
  | ok content => simp [checked]
  | error fault => cases fault <;> simp [checked]

/-- How writing ends: the text stands in its place, or no file has changed. -/
inductive Writes (path text : String) (before : FileTree) : Outcome × FileTree → Prop
  | written {after : FileTree} (grows : Grows [Path.place path] before after)
      (file : after.file? (Path.place path) = some text) (read : after.read path = .ok text) :
      Writes path text before (.upToDate, after)
  | refused {after : FileTree} {error : RunError} (grows : Grows [] before after)
      (cause : ¬error.OfInput) : Writes path text before (.failed error, after)

/-- Making the directory of an output changes no file, whether or not it succeeds. -/
theorem grows_makeParent (path : String) :
    Grows [] tree (tree.after (writeFile.makeParent path)) := by
  rw [writeFile.makeParent]
  cases (Path.parent? path).filter (· ≠ "") with
  | none => exact .refl tree
  | some directory =>
      simp only [after_bind, FileTree.after_createDirectory, FileTree.answer_createDirectory]
      cases h : tree.createDirectory directory with
      | ok after => exact FileTree.grows_createDirectory h
      | error fault => exact .refl tree

theorem writes_writeFile (path text : String) :
    Writes path text tree (conclude tree (writeFile path text)) := by
  have hparent : Grows [] tree (tree.after (writeFile.makeParent path)) := grows_makeParent path
  simp only [writeFile, conclude, answer_bind, after_bind]
  cases tree.answer (writeFile.makeParent path) with
  | error fault => exact .refused hparent id
  | ok _ =>
      simp only [answer_bind, after_bind, FileTree.answer_write, FileTree.after_write]
      cases hwrite : (tree.after (writeFile.makeParent path)).write path text with
      | error fault => exact .refused hparent id
      | ok after =>
          exact .written (hparent.trans (FileTree.grows_write hwrite))
            (FileTree.file?_of_write hwrite) (FileTree.read_of_write hwrite)

theorem Part.writes_of_text {part : Part} {revision : Option Revision} {text : String}
    (h : part.text revision (tree.read part.input) = .ok text) :
    Writes part.output text tree (part.conclude revision false tree) := by
  rw [Part.conclude, h]
  exact writes_writeFile part.output text

/-- What a run that writes does with its first part: the part has no text, or its text could not be
written, or the text stands in its place and the run goes on with the other parts. -/
theorem concludeAll_cons_cases (revision : Option Revision) (part : Part) (rest : List Part)
    (tree : FileTree) :
    (∃ error, part.text revision (tree.read part.input) = .error error ∧
      concludeAll revision false (part :: rest) tree = (.failed error, tree)) ∨
    (∃ error after, ¬error.OfInput ∧ Grows [] tree after ∧
      concludeAll revision false (part :: rest) tree = (.failed error, after)) ∨
    ∃ text after, part.text revision (tree.read part.input) = .ok text ∧
      Grows [Path.place part.output] tree after ∧
      after.file? (Path.place part.output) = some text ∧ after.read part.output = .ok text ∧
      concludeAll revision false (part :: rest) tree = concludeAll revision false rest after := by
  cases htext : part.text revision (tree.read part.input) with
  | error error =>
      refine Or.inl ⟨error, rfl, ?_⟩
      rw [concludeAll, Part.conclude, htext]
  | ok text =>
      have hwrites := Part.writes_of_text htext
      rw [concludeAll]
      generalize part.conclude revision false tree = ended at hwrites
      cases hwrites with
      | refused grows cause => exact Or.inr (Or.inl ⟨_, _, cause, grows, rfl⟩)
      | written grows file read =>
          refine Or.inr (Or.inr ⟨text, _, rfl, grows, file, read, ?_⟩)
          simp only [upToDate_join]

end SchemaCompiler.Command
