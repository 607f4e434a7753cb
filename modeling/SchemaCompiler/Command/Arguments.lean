/-!
# Arguments

One task, and options before or behind it.  An option behind the task counts more; none may come
twice on the same side.
-/

namespace SchemaCompiler.Command

/-- What is generated. -/
inductive Task where
  | schema
  | methods
  | all
deriving DecidableEq, Repr

namespace Task

def named? : String → Option Task
  | "schema" => some schema
  | "meta" => some methods
  | "all" => some all
  | _ => none

def coversSchema (task : Task) : Bool :=
  task ≠ methods

def coversMethods (task : Task) : Bool :=
  task ≠ schema

end Task

inductive OptionName where
  | schemaDirectory
  | outputDirectory
  | runtimePath
  | configuration
deriving DecidableEq, Repr

namespace OptionName

def long : OptionName → String
  | schemaDirectory => "--schema-dir"
  | outputDirectory => "--output-dir"
  | runtimePath => "--runtime-path"
  | configuration => "--config"

def all : List OptionName :=
  [schemaDirectory, outputDirectory, runtimePath, configuration]

/-- Paths have a name; only the runtime path is no file path. -/
def acceptsEmpty (name : OptionName) : Bool :=
  name = runtimePath

end OptionName

/-- The options on one side of the task. -/
structure Options where
  values : List (OptionName × String)
  check : Bool
deriving DecidableEq, Repr

namespace Options

def empty : Options :=
  ⟨[], false⟩

def get? (options : Options) (name : OptionName) : Option String :=
  options.values.lookup name

/-- Adds an option that has not come yet. -/
def add? (options : Options) (name : OptionName) (value : String) : Option Options :=
  if (options.get? name).isSome || value.isEmpty && !name.acceptsEmpty then none
  else some { options with values := (name, value) :: options.values }

def addCheck? (options : Options) : Option Options :=
  if options.check then none else some { options with check := true }

/-- Options of which the later ones count more. -/
def overlay (options later : Options) : Options :=
  ⟨later.values ++ options.values, options.check || later.check⟩

end Options

/-- A whole command line. -/
structure Arguments where
  task : Task
  options : Options
deriving DecidableEq, Repr

/-- How an argument reads on its own. -/
inductive Argument where
  | check
  /-- An option that takes the next argument. -/
  | awaiting (name : OptionName)
  | option (name : OptionName) (value : String)
  | word (text : String)
  | unknown

namespace Argument

/-- An option with its value behind an equals sign. -/
private def assigned? (text : String) (name : OptionName) : Option Argument :=
  let start := name.long.toList ++ ['=']
  if start.isPrefixOf text.toList then
    some (.option name (String.ofList (text.toList.drop start.length)))
  else none

def ofText (text : String) : Argument :=
  match text.toList with
  | ['-', 'c'] => .awaiting .configuration
  | '-' :: 'c' :: '=' :: value => .option .configuration (String.ofList value)
  | '-' :: 'c' :: value => .option .configuration (String.ofList value)
  | '-' :: _ :: _ =>
    if text = "--check" then .check
    else
      match OptionName.all.find? (·.long = text) with
      | some name => .awaiting name
      | none => (OptionName.all.findSome? (assigned? text)).getD .unknown
  | _ => .word text

/-- Whether an argument can be the value of the option before it. -/
def isValue (text : String) : Bool :=
  match text.toList with
  | '-' :: _ :: _ => false
  | _ => true

end Argument

/-- Reads options up to the first word, which is given with the arguments behind it. -/
def readOptions (options : Options) : List String → Option (Options × Option (String × List String))
  | [] => some (options, none)
  | text :: rest =>
    match Argument.ofText text with
    | .check => do readOptions (← options.addCheck?) rest
    | .option name value => do readOptions (← options.add? name value) rest
    | .awaiting name =>
      match rest with
      | value :: rest =>
        if Argument.isValue value then do readOptions (← options.add? name value) rest else none
      | [] => none
    | .word text => some (options, some (text, rest))
    | .unknown => none

/-- Reads a command line; `none` if it is not one. -/
def Arguments.read? (args : List String) : Option Arguments := do
  let (before, task) ← readOptions Options.empty args
  let (word, rest) ← task
  let task ← Task.named? word
  let rest := if rest.getLast? = some "--" then rest.dropLast else rest
  match ← readOptions Options.empty rest with
  | (behind, none) => some ⟨task, before.overlay behind⟩
  | (_, some _) => none

end SchemaCompiler.Command
