import SchemaCompiler.Json.Write

/-!
# Notices

What a compilation reports without failing: the definition concerned, a code, a message and lines
of context.
-/

namespace SchemaCompiler

inductive Severity where
  | info
  | warning
deriving DecidableEq, Repr

inductive NoticeCode where
  | unresolvedRef
  | memberConflict
  | unsupportedDefault
  | undiscriminatedUnion
  | fieldConflict
  | dynamicUnion
  | boxedRecursion
deriving DecidableEq, Repr

namespace NoticeCode

def label : NoticeCode → String
  | unresolvedRef => "W001"
  | memberConflict => "W002"
  | unsupportedDefault => "W003"
  | undiscriminatedUnion => "W004"
  | fieldConflict => "W005"
  | dynamicUnion => "I001"
  | boxedRecursion => "I002"

/-- The name under which a code is written to JSON. -/
def key : NoticeCode → String
  | unresolvedRef => "UnresolvedRef"
  | memberConflict => "EnumVariantConflict"
  | unsupportedDefault => "UnsupportedDefault"
  | undiscriminatedUnion => "UndiscriminatedAnyOf"
  | fieldConflict => "FieldNameConflict"
  | dynamicUnion => "OpaqueUnion"
  | boxedRecursion => "BoxedRecursion"

def severity : NoticeCode → Severity
  | dynamicUnion | boxedRecursion => .info
  | _ => .warning

def all : List NoticeCode :=
  [unresolvedRef, memberConflict, unsupportedDefault, undiscriminatedUnion, fieldConflict,
    dynamicUnion, boxedRecursion]

end NoticeCode

def Severity.name : Severity → String
  | info => "info"
  | warning => "warning"

structure Notice where
  definition : String
  code : NoticeCode
  message : String
  context : List String
deriving DecidableEq, Repr

namespace Notice

def severity (notice : Notice) : Severity :=
  notice.code.severity

def unresolvedRef (definition target : String) : Notice :=
  ⟨definition, .unresolvedRef, "$ref target '" ++ target ++ "' has no definition", []⟩

def memberConflict (definition name renamed : String) : Notice :=
  ⟨definition, .memberConflict, "member '" ++ name ++ "' appears twice after normalization",
    ["renamed to '" ++ renamed ++ "'"]⟩

def fieldConflict (definition property field : String) : Notice :=
  ⟨definition, .fieldConflict,
    "property '" ++ property ++ "' maps to a field name already in use",
    ["field renamed to '" ++ field ++ "'"]⟩

def unsupportedDefault (definition property : String) (default : Json) : Notice :=
  ⟨definition, .unsupportedDefault,
    "default for '" ++ property ++ "' is not a literal of its type; field stays optional",
    ["default: " ++ default.text]⟩

def undiscriminatedUnion (definition : String) (resolved : Nat) : Notice :=
  ⟨definition, .undiscriminatedUnion,
    "anyOf has " ++ toString resolved ++ " resolvable discriminator value(s); needs at least 2", []⟩

def dynamicUnion (definition property : String) : Notice :=
  ⟨definition, .dynamicUnion,
    "union property '" ++ property ++ "' is kept as a dynamic value", []⟩

/-- A whole definition that is a union of no recognised form. -/
def dynamicDefinition (definition : String) : Notice :=
  ⟨definition, .dynamicUnion, "union definition is kept as a dynamic value", []⟩

def boxedRecursion (definition property target : String) : Notice :=
  ⟨definition, .boxedRecursion, "property '" ++ property ++ "' is recursive and is boxed",
    ["target: " ++ target]⟩

/-- One line, and one more for each line of context. -/
def text (notice : Notice) : String :=
  "[" ++ notice.code.label ++ "] " ++ notice.severity.name ++ ": " ++ notice.message ++ " (" ++
    notice.definition ++ ")" ++ String.join (notice.context.map ("\n  - " ++ ·))

def toJson (notice : Notice) : Json :=
  .object <|
    [("definition", .string notice.definition), ("code", .string notice.code.key),
      ("message", .string notice.message)] ++
    if notice.context.isEmpty then [] else [("context", .array (notice.context.map .string))]

/-! ## Reports -/

def warnings (notices : List Notice) : List Notice :=
  notices.filter (·.severity = .warning)

/-- Every notice, and the number of warnings and notes; nothing where there is no notice. -/
def report (notices : List Notice) : String :=
  if notices.isEmpty then ""
  else
    let count := (warnings notices).length
    String.join (notices.map (·.text ++ "\n")) ++ "\n" ++ toString count ++ " warning(s), " ++
      toString (notices.length - count) ++ " note(s)\n"

end Notice

end SchemaCompiler
