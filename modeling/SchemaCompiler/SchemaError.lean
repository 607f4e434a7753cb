import SchemaCompiler.Wire.Error

/-!
# Why a schema is refused

Any of these stops the compilation before a line is written.
-/

namespace SchemaCompiler

inductive SchemaError where
  | ambiguousOwner (child first second : String)
  | missingPropertyName (definition : String)
  | noConstantVariant (definition property : String)
  | duplicateValue (definition value : String)
  | nameCollision (name first second : String)
  | invalidSchema (reason : String)
  | unreadable (reason : String)
  | json (error : Wire.DecodeError)

def SchemaError.message : SchemaError → String
  | ambiguousOwner child first second =>
    "Ambiguous discriminator ownership: " ++ child ++ " is claimed by both " ++ first ++ " and " ++
      second
  | missingPropertyName definition => "Discriminator on " ++ definition ++ " has no propertyName"
  | noConstantVariant definition property =>
    "Discriminator '" ++ property ++ "' on " ++ definition ++
      " has no variant with a constant value"
  | duplicateValue definition value =>
    "Duplicate discriminator value '" ++ value ++ "' on " ++ definition
  | nameCollision name first second =>
    "Type name collision: " ++ name ++ " is produced by both " ++ first ++ " and " ++ second
  | invalidSchema reason => "Invalid schema: " ++ reason
  | unreadable reason => "IO error: " ++ reason
  | json error => "JSON error: " ++ error.message

end SchemaCompiler
