import SchemaCompiler.Render.Profile
import SchemaCompiler.Text.Quoted

/-!
# Default literals

The expression that produces a default value as a value of its type.
-/

namespace SchemaCompiler.Render

/-- Floating-point literals are set in positions from `1e-4` to below `1e16` and keep a point. -/
def literalLayout : Layout where
  positionalFrom := some (-4)
  positionalBelow := some 16
  pointZero := true
  exponentPlus := false
  tie := .up

mutual

def literal : Descriptor → Json → String
  | .scalar .string, .string value => Text.quote value ++ ".to_string()"
  | .scalar .boolean, .bool value => toString value
  | .scalar .number, .number value => literalLayout.write value.toFloat
  | .scalar (.integer _), .number value => Json.numberText value
  | .array _, .array [] => "Vec::new()"
  | .array items, .array values => "vec![" ++ ", ".intercalate (literals items values) ++ "]"
  | .nullable _, .null => "None"
  | .nullable inner, value => "Some(" ++ literal inner value ++ ")"
  | .dynamic, value => "serde_json::json!(" ++ value.text ++ ")"
  | _, _ => "Default::default()"

def literals (items : Descriptor) : List Json → List String
  | [] => []
  | value :: rest => literal items value :: literals items rest

end

end SchemaCompiler.Render
