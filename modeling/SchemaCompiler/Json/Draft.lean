import SchemaCompiler.Json.Basic

/-!
# Text read up to its first fault

A `Draft` is JSON text as far as it can be taken apart.  A fault stays where it stands, so a
reader that turns away earlier, because of a shape it did not expect, never meets it.

Two readers meet different faults.  One that wants a value is stopped by an unpaired surrogate, a
number beyond binary64 or too many levels; one that only passes over a value is not.
-/

namespace SchemaCompiler

/-- Why text is not JSON: a character out of place, or an end too soon. -/
inductive Fault where
  | malformed
  | truncated
deriving DecidableEq, Repr, Inhabited

/-- A value without parts: what it says, and what stops a reader that only passes over it. -/
structure Token (α : Type) where
  reading : Except Fault α
  passing : Option Fault

/-- A `word` is one of `null`, `true` and `false`, and `broken` is no value at all.  The name of a
member is kept as whatever stands in its place; only a string is a name.  An `ending` is the fault
of what stands where the closing bracket should. -/
inductive Draft where
  | word (token : Token Json)
  | number (token : Token Number)
  | string (token : Token String)
  | array (items : List Draft) (ending : Option Fault)
  | object (members : List (Draft × Draft)) (ending : Option Fault)
  | broken (fault : Fault)
deriving Inhabited

namespace Draft

/-- The number of nested arrays and objects that a reader refuses. -/
def levelLimit : Nat := 128

/-- A step into an array or object, with the number of levels that are still open. -/
def descend (levels : Nat) : Except Fault Nat :=
  if levels ≤ 1 then .error .malformed else .ok (levels - 1)

def finish (ending : Option Fault) : Except Fault Unit :=
  match ending with
  | none => .ok ()
  | some fault => .error fault

/-- The name of a member. -/
def key : Draft → Except Fault String
  | .string token => token.reading
  | .broken fault => .error fault
  | _ => .error .malformed

mutual

/-- The value, for a reader that wants all of it. -/
def toJson (levels : Nat) : Draft → Except Fault Json
  | .word token => token.reading
  | .number token => token.reading.map .number
  | .string token => token.reading.map .string
  | .array items ending => do
    let levels ← descend levels
    let values ← toJsonItems levels items
    finish ending
    pure (.array values)
  | .object members ending => do
    let levels ← descend levels
    let pairs ← toJsonMembers levels members
    finish ending
    pure (.object (Entries.ofPairs pairs))
  | .broken fault => .error fault

def toJsonItems (levels : Nat) : List Draft → Except Fault (List Json)
  | [] => .ok []
  | item :: rest => do
    let value ← toJson levels item
    let values ← toJsonItems levels rest
    pure (value :: values)

def toJsonMembers (levels : Nat) : List (Draft × Draft) → Except Fault (List (String × Json))
  | [] => .ok []
  | (name, value) :: rest => do
    let name ← name.key
    let value ← toJson levels value
    let pairs ← toJsonMembers levels rest
    pure ((name, value) :: pairs)

end

def passingName : Draft → Option Fault
  | .string token => token.passing
  | .broken fault => some fault
  | _ => some .malformed

/-- As much of the value as is seen before an array or object is entered. -/
def front : Draft → Except Fault Json
  | .word token => token.reading
  | .number token => token.reading.map .number
  | .string token => token.reading.map .string
  | .array _ _ => .ok (.array [])
  | .object _ _ => .ok (.object [])
  | .broken fault => .error fault

mutual

/-- What stops a reader that only passes over the value. -/
def passing : Draft → Option Fault
  | .word token => token.passing
  | .number token => token.passing
  | .string token => token.passing
  | .array items ending => passingItems items <|> ending
  | .object members ending => passingMembers members <|> ending
  | .broken fault => some fault

def passingItems : List Draft → Option Fault
  | [] => none
  | item :: rest => passing item <|> passingItems rest

def passingMembers : List (Draft × Draft) → Option Fault
  | [] => none
  | (name, value) :: rest => passingName name <|> passing value <|> passingMembers rest

end

end Draft

end SchemaCompiler
