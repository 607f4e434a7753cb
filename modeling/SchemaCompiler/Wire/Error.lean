import SchemaCompiler.Json.Draft
import SchemaCompiler.Json.Write
import SchemaCompiler.Text.Quoted

/-!
# Why a value is turned away

A `DecodeError` comes from the form of a value: text that is not JSON, a value of the wrong kind,
a field too few.  A `CodecError` comes from the rules of one declared type: its discriminator, its
alternatives, its members.  Either can stand behind the other.
-/

namespace SchemaCompiler.Wire

mutual

inductive DecodeError where
  | notJson (fault : Fault)
  | missingField (name : String)
  | duplicateField (name : String)
  | wrongKind (found : Json) (expected : String)
  | outOfRange (found : Int) (expected : String)
  | notSingleKey
  | wrongLength (length : Nat) (expected : String)
  | unknownChoice (found : String) (choices : List String)
  | noCaseMatches (type : String)
  | codec (error : CodecError)

inductive CodecError where
  | missingDiscriminator (base property : String)
  | unknownDiscriminator (base property value : String)
  | noAlternative (type : String) (found : Json.Kind)
  | nullRefused (type : String)
  | notAnObject (type : String) (found : Json.Kind)
  | unknownMember (type : String) (value : Int)
  | json (error : DecodeError)

end

/-- A value of the wrong kind, as a message names it. -/
def describe : Json → String
  | .null => "null"
  | .bool true => "boolean `true`"
  | .bool false => "boolean `false`"
  | .number (.int value) => "integer `" ++ toString value ++ "`"
  | .number (.float value) => "floating point `" ++ Json.numberLayout.write value ++ "`"
  | .string value => "string " ++ Text.quote value
  | .array _ => "sequence"
  | .object _ => "map"

private def ticked (name : String) : String :=
  "`" ++ name ++ "`"

/-- The names that would have been accepted. -/
def expectedChoices : List String → String
  | [] => "there are no variants"
  | [only] => "expected " ++ ticked only
  | [first, second] => "expected " ++ ticked first ++ " or " ++ ticked second
  | choices => "expected one of " ++ ", ".intercalate (choices.map ticked)

def faultMessage : Fault → String
  | .malformed => "malformed JSON"
  | .truncated => "unfinished JSON"

mutual

def DecodeError.message : DecodeError → String
  | .notJson fault => faultMessage fault
  | .missingField name => "missing field " ++ ticked name
  | .duplicateField name => "duplicate field " ++ ticked name
  | .wrongKind found expected => "invalid type: " ++ describe found ++ ", expected " ++ expected
  | .outOfRange found expected =>
    "invalid value: integer " ++ ticked (toString found) ++ ", expected " ++ expected
  | .notSingleKey => "invalid value: map, expected map with a single key"
  | .wrongLength length expected =>
    "invalid length " ++ toString length ++ ", expected " ++ expected
  | .unknownChoice found choices =>
    "unknown variant " ++ ticked found ++ ", " ++ expectedChoices choices
  | .noCaseMatches type => "data did not match any variant of untagged enum " ++ type
  | .codec error => error.message

def CodecError.message : CodecError → String
  | .missingDiscriminator base property =>
    base ++ ": missing discriminator field '" ++ property ++ "'"
  | .unknownDiscriminator base property value =>
    base ++ ": unknown discriminator value '" ++ value ++ "' for '" ++ property ++ "'"
  | .noAlternative type found => type ++ ": no alternative accepts a " ++ found.name ++ " value"
  | .nullRefused type => type ++ ": null is not a valid value for this union"
  | .notAnObject type found => type ++ ": expected a JSON object, got " ++ found.name
  | .unknownMember type value => type ++ ": unknown enum value " ++ toString value
  | .json error => "JSON error: " ++ error.message

end

end SchemaCompiler.Wire
