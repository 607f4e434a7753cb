import SchemaCompiler.Entries
import SchemaCompiler.SchemaError

/-!
# Claims on names

Every emitted type name has one owner.  A second owner is an error; the same owner may claim a
name again.
-/

namespace SchemaCompiler.Naming

/-- Names with their owners. -/
structure Claims where
  owners : Entries String

namespace Claims

def empty : Claims :=
  ⟨[]⟩

def claim (claims : Claims) (name owner : String) : Except SchemaError Claims :=
  match claims.owners.get? name with
  | some first =>
    if first = owner then .ok claims else .error (.nameCollision name first owner)
  | none => .ok ⟨claims.owners.insert name owner⟩

def contains (claims : Claims) (name : String) : Bool :=
  claims.owners.contains name

def size (claims : Claims) : Nat :=
  claims.owners.length

end Claims

end SchemaCompiler.Naming
