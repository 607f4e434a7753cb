import SchemaCompiler.IntWidth

/-!
# Type descriptors

The semantic type of one property.  `optional` keeps descriptors free of doubled options: a
dynamic value already carries null.
-/

namespace SchemaCompiler

inductive Scalar where
  | string
  | integer (width : IntWidth)
  | number
  | boolean
deriving DecidableEq, Repr

inductive Descriptor where
  | scalar (scalar : Scalar)
  /-- Another definition, by name. -/
  | reference (name : String)
  | array (items : Descriptor)
  /-- Null is a legal value. -/
  | nullable (inner : Descriptor)
  /-- Any JSON value. -/
  | dynamic
deriving DecidableEq, Repr

namespace Descriptor

def optional : Descriptor → Descriptor
  | dynamic => dynamic
  | nullable inner => nullable inner
  | other => nullable other

def isDynamic : Descriptor → Bool
  | dynamic => true
  | _ => false

/-- The definition held in place: through an option, but not through an array. -/
def inlineReference? : Descriptor → Option String
  | reference name => some name
  | nullable inner => inner.inlineReference?
  | _ => none

end Descriptor

end SchemaCompiler
