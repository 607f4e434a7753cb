import SchemaCompiler.Decimal.Layout
import SchemaCompiler.Json.Basic

/-!
# Compact JSON text

No blanks between tokens, members in their order, and only the characters escaped that the
format requires.
-/

namespace SchemaCompiler.Json

/-- Binary64 numbers are set in positions from `1e-5` to below `1e16`, keep a point, and carry the
sign of their exponent. -/
def numberLayout : Layout where
  positionalFrom := some (-5)
  positionalBelow := some 16
  pointZero := true
  exponentPlus := true
  tie := .even

private def hexDigit (n : Nat) : Char :=
  Nat.digitChar n

def escapeChar (c : Char) : List Char :=
  if c = '"' then ['\\', '"']
  else if c = '\\' then ['\\', '\\']
  else if c = '\n' then ['\\', 'n']
  else if c = '\r' then ['\\', 'r']
  else if c = '\t' then ['\\', 't']
  else if c = '\x08' then ['\\', 'b']
  else if c = '\x0c' then ['\\', 'f']
  else if c.toNat < 0x20 then
    ['\\', 'u', '0', '0', hexDigit (c.toNat / 16), hexDigit (c.toNat % 16)]
  else [c]

def stringText (s : String) : String :=
  String.ofList ('"' :: s.toList.flatMap escapeChar ++ ['"'])

/-- A binary64 number that is not finite has no JSON text and is written as `null`. -/
def numberText : Number → String
  | .int value => toString value
  | .float value => if value.isFinite then numberLayout.write value else "null"

mutual

def text : Json → String
  | .null => "null"
  | .bool true => "true"
  | .bool false => "false"
  | .number value => numberText value
  | .string value => stringText value
  | .array items => "[" ++ ",".intercalate (itemTexts items) ++ "]"
  | .object members => "\x7b" ++ ",".intercalate (memberTexts members) ++ "\x7d"

def itemTexts : List Json → List String
  | [] => []
  | item :: rest => text item :: itemTexts rest

def memberTexts : List (String × Json) → List String
  | [] => []
  | (key, value) :: rest => (stringText key ++ ":" ++ text value) :: memberTexts rest

end

@[simp] theorem toList_stringText (s : String) :
    (stringText s).toList = '"' :: (s.toList.flatMap escapeChar ++ ['"']) := by
  rw [stringText, String.toList_ofList, List.cons_append]

@[simp] theorem text_null : text .null = "null" := rfl

@[simp] theorem text_true : text (.bool true) = "true" := rfl

@[simp] theorem text_false : text (.bool false) = "false" := rfl

@[simp] theorem text_number (value : Number) : text (.number value) = numberText value := rfl

@[simp] theorem text_string (value : String) : text (.string value) = stringText value := rfl

@[simp] theorem text_array (items : List Json) :
    text (.array items) = "[" ++ ",".intercalate (itemTexts items) ++ "]" := rfl

@[simp] theorem text_object (members : List (String × Json)) :
    text (.object members) = "\x7b" ++ ",".intercalate (memberTexts members) ++ "\x7d" := rfl

end SchemaCompiler.Json
