import SchemaCompiler.Render.Lines
import SchemaCompiler.Render.Literal
import SchemaCompiler.Render.Options

/-!
# Rendering declarations

The source of one declaration, with the items that go with it: the conversions of an untagged type
and the functions that produce defaults.
-/

namespace SchemaCompiler.Render

/-- What a declaration is rendered with. -/
structure Context where
  options : RenderOptions
  profile : Profile

namespace Context

def docs (context : Context) (indent : String) (description : Option String) : Lines :=
  Render.docs context.options.emitDocs indent description

/-- The derive line of records. -/
def recordDerive (context : Context) : String :=
  "#[derive(" ++ ", ".intercalate context.options.recordDerives ++ ")]"

end Context

/-! ## Aliases, unions and enumerations -/

/-- What is derived for the wrapper of a primitive; other targets need no wrapper. -/
def aliasDerives? : Descriptor → Option String
  | .scalar .string => some "Debug, Clone, PartialEq, Eq, Hash, PartialOrd, Ord"
  | .scalar (.integer _) => some "Debug, Clone, Copy, PartialEq, Eq, Hash, PartialOrd, Ord"
  | .scalar .boolean => some "Debug, Clone, Copy, PartialEq, Eq, Hash"
  | .scalar .number => some "Debug, Clone, Copy, PartialEq, PartialOrd"
  | .dynamic => some "Debug, Clone, PartialEq"
  | _ => none

def aliasLines (context : Context) (type : TypeDecl) (target : Descriptor) : Lines :=
  let inner := context.profile.type false target
  match aliasDerives? target with
  | some derives =>
    [opening (context.options.declaration "type_alias")] ++
      context.docs step type.description ++
      [step ++ "#[derive(" ++ derives ++ ")]",
        step ++ "pub struct " ++ type.name ++ "(" ++ inner ++ ");", closing]
  | none =>
    context.docs "" type.description ++ ["pub type " ++ type.name ++ " = " ++ inner ++ ";"]

def union (context : Context) (type : TypeDecl) (alternatives : List Wire.AlternativeKind)
    (nullable : Bool) : Lines :=
  [opening (context.options.declaration "union_type")] ++ context.docs step type.description ++
    [opening (step ++ "pub enum " ++ type.name)] ++
    alternatives.map (fun kind =>
      step ++ step ++ alternativeCaseName kind ++ "(" ++ context.profile.payload kind ++ ") => " ++
        kind.name ++ ",") ++
    [step ++ closing] ++
    (if nullable then [step ++ "nullable Null;"] else []) ++
    [closing]

def stringEnum (context : Context) (type : TypeDecl) (members : List EnumMember) : Lines :=
  context.docs "" type.description ++
    ["#[derive(Debug, Clone, Copy, PartialEq, Eq, Hash, Serialize, Deserialize)]",
      opening ("pub enum " ++ type.name)] ++
    members.flatMap (fun member =>
      context.docs step member.description ++
        [step ++ "#[serde(rename = " ++ Text.quote member.value ++ ")]",
          step ++ member.name ++ ","]) ++
    [closing]

def integerEnum (context : Context) (type : TypeDecl) (width : IntWidth)
    (members : List EnumMember) (catchAll : Option CatchAll) : Lines :=
  [opening (context.options.declaration "int_enum")] ++ context.docs step type.description ++
    [opening (step ++ "pub enum " ++ type.name ++ ": " ++ context.profile.integer width)] ++
    members.flatMap (fun member =>
      context.docs (step ++ step) member.description ++
        [step ++ step ++ member.name ++ " = " ++ member.value ++ ","]) ++
    [step ++ closing] ++
    (match catchAll with
      | some other =>
        context.docs step other.description ++ [step ++ "other " ++ other.name ++ ";"]
      | none => []) ++
    [closing]

/-! ## Sum types -/

def tagged (context : Context) (type : TypeDecl) (property : String) (cases : List TaggedCase) :
    Lines :=
  [opening (context.options.declaration "discriminated_union")] ++
    context.docs step type.description ++
    [opening (step ++ "pub enum " ++ type.name ++ ": " ++ Text.quote property)] ++
    cases.map (fun case =>
      step ++ step ++ Text.quote case.value ++ " => " ++ case.caseName ++ "(" ++ case.typeName ++
        "),") ++
    [step ++ closing, closing]

/-- The conversion of a case into its untagged type. -/
def conversion (type : TypeDecl) (case : UntaggedCase) : Lines :=
  ["", opening ("impl From<" ++ case.typeName ++ "> for " ++ type.name),
    opening (step ++ "fn from(value: " ++ case.typeName ++ ") -> Self"),
    step ++ step ++ "Self::" ++ case.caseName ++ "(value)", step ++ closing, closing]

def untagged (context : Context) (type : TypeDecl) (cases : List UntaggedCase) : Lines :=
  context.docs "" type.description ++
    [context.recordDerive, "#[serde(untagged)]", opening ("pub enum " ++ type.name)] ++
    cases.map (fun case => step ++ case.caseName ++ "(" ++ case.typeName ++ "),") ++
    [closing] ++ cases.flatMap (conversion type)

/-! ## Records -/

/-- An identifier without the marker of its raw form. -/
def bare (context : Context) (identifier : String) : String :=
  match identifier.dropPrefix? context.profile.rawMarker with
  | some rest => rest.toString
  | none => identifier

/-- The description of a field, with a note on a default that cannot be kept. -/
def fieldDescription (field : Field) : Option String :=
  match field.unsupportedDefault with
  | none => field.description
  | some value =>
    let note := "Defaults to `" ++ value.text ++ "`."
    some <|
      match field.description with
      | some description => description ++ "\n\n" ++ note
      | none => note

/-- The function that produces the default of a field. -/
def defaultFunction (type : TypeDecl) (field : Field) : String :=
  "default_" ++ Naming.snakeCase type.name ++ "_" ++ field.identifier

/-- The type of a field, with an option around one that may be missing. -/
def fieldType (context : Context) (field : Field) : String :=
  let type := context.profile.type field.boxed field.descriptor
  match field.presence, field.descriptor with
  | .optional, .nullable _ => type
  | .optional, _ => Profile.optional type
  | _, _ => type

/-- The name under which a field is written, if it has to be spelled out. -/
def renameArgument (context : Context) (field : Field) (identifier : String) : List String :=
  if field.renamed || bare context identifier ≠ field.wireName then
    ["rename = " ++ Text.quote field.wireName]
  else []

/-- The arguments of a field's attribute. -/
def fieldArguments (context : Context) (type : TypeDecl) (field : Field) (identifier : String) :
    List String :=
  match field.presence with
  | .flattened => ["flatten"]
  | .required => renameArgument context field identifier
  | .optional =>
    renameArgument context field identifier ++
      ["default", "skip_serializing_if = \"Option::is_none\""]
  | .defaulted _ =>
    renameArgument context field identifier ++
      ["default = " ++ Text.quote (defaultFunction type field)]

def field (context : Context) (type : TypeDecl) (field : Field) : Lines :=
  let identifier := context.profile.escape field.identifier
  let arguments := fieldArguments context type field identifier
  context.docs step (fieldDescription field) ++
    (if arguments.isEmpty then []
      else [step ++ "#[serde(" ++ ", ".intercalate arguments ++ ")]"]) ++
    [step ++ "pub " ++ identifier ++ ": " ++ fieldType context field ++ ","]

/-- The default function of a field that has one. -/
def defaultItem (context : Context) (type : TypeDecl) (field : Field) : Lines :=
  match field.presence with
  | .defaulted value =>
    ["", opening ("fn " ++ defaultFunction type field ++ "() -> " ++ fieldType context field),
      step ++ literal field.descriptor value, closing]
  | _ => []

def record (context : Context) (type : TypeDecl) (fields : List Field) : Lines :=
  context.docs "" type.description ++ [context.recordDerive] ++
    if fields.isEmpty then ["pub struct " ++ type.name ++ " " ++ braced ""]
    else
      [opening ("pub struct " ++ type.name)] ++ fields.flatMap (field context type) ++
        [closing] ++ fields.flatMap (defaultItem context type)

/-- The source of a declaration. -/
def declaration (context : Context) (type : TypeDecl) : Lines :=
  match type.body with
  | .aliasOf target => aliasLines context type target
  | .enumeration .string members _ => stringEnum context type members
  | .enumeration (.integer width) members catchAll =>
    integerEnum context type width members catchAll
  | .tagged property cases => tagged context type property cases
  | .untagged cases => untagged context type cases
  | .union alternatives nullable => union context type alternatives nullable
  | .record fields | .variant _ _ fields => record context type fields

end SchemaCompiler.Render
