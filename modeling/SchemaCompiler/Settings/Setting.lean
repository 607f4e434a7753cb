import SchemaCompiler.IntWidth

/-!
# Configured values

What a source of settings says, before it is known what each value is for.
-/

namespace SchemaCompiler

/-- A configured value without parts. -/
inductive PlainValue where
  | nothing
  | flag (value : Bool)
  | integer (value : Int)
  | float (value : Float)
  | text (value : String)

/-- A configured value.  It may name the source that gave it; what comes about only because
sources are laid over each other has none. -/
inductive Setting where
  | plain (source : Option String) (value : PlainValue)
  | list (source : Option String) (items : List Setting)
  | table (source : Option String) (entries : List (String × Setting))

/-- Why settings could not be loaded. -/
inductive SettingsError where
  | missingFile (path : String)
  | unknownFormat (path : String)
  | malformed (source : String)
  /-- The outermost value of a source is no table. -/
  | noTable (found source : String)
  | wrongKind (found expected key : String) (source : Option String)
  | misplaced (found expected : String)

def SettingsError.message : SettingsError → String
  | missingFile path => "configuration file \"" ++ path ++ "\" not found"
  | unknownFormat path => "configuration file \"" ++ path ++ "\" is not of a registered file format"
  | malformed source => "malformed configuration in " ++ source
  | noTable found source =>
    "invalid type: " ++ found ++ ", expected a map in " ++ source ++ " in " ++ source
  | wrongKind found expected key source =>
    "invalid type: " ++ found ++ ", expected " ++ expected ++ " for key `" ++ key ++ "`" ++
      (source.map (" in " ++ ·)).getD ""
  | misplaced found expected => "invalid type: " ++ found ++ ", expected " ++ expected

/-- What a source says: values under keys of the outermost table. -/
abbrev Source := List (String × Setting)

namespace Setting

/-- The entries of a table; nothing else has any. -/
def entries : Setting → List (String × Setting)
  | .table _ entries => entries
  | _ => []

/-- No value at all. -/
def empty : Setting :=
  .plain none .nothing

/-- A number from a source.  An integer beyond 64 bits with a sign is kept as a float. -/
def plainNumber : Number → PlainValue
  | .int value =>
    if IntWidth.int64.holds value then .integer value else .float (Number.int value).toFloat
  | .float value => .float value

mutual

/-- A JSON value from a source. -/
def ofJson (source : String) : Json → Setting
  | .null => .plain (some source) .nothing
  | .bool value => .plain (some source) (.flag value)
  | .number value => .plain (some source) (plainNumber value)
  | .string value => .plain (some source) (.text value)
  | .array items => .list (some source) (ofItems source items)
  | .object members => .table (some source) (ofMembers source members)

def ofItems (source : String) : List Json → List Setting
  | [] => []
  | item :: rest => ofJson source item :: ofItems source rest

def ofMembers (source : String) : List (String × Json) → List (String × Setting)
  | [] => []
  | (key, value) :: rest => (key, ofJson source value) :: ofMembers source rest

end

end Setting

end SchemaCompiler
