import SchemaCompiler.Json.Write
import SchemaCompiler.Wire.Error

/-!
# Discriminated objects

A tagged object names its case in one member, the discriminator.  Reading takes the text of that
member to a table of decoders, each of which sees the whole object; writing puts the tag first and
drops whatever the case itself wrote under that key.
-/

namespace SchemaCompiler.Wire

/-- The text of a constant: a string verbatim, any other value as JSON. -/
def literalText : Json → String
  | .string value => value
  | value => value.text

/-- The tag of an object. -/
def readTag (base property : String) (value : Json) : Except CodecError String :=
  match value with
  | .object members =>
    match Entries.get? members property with
    | none | some .null => .error (.missingDiscriminator base property)
    | some tag => .ok (literalText tag)
  | other => .error (.notAnObject base other.kind)

/-- The members of a case under its tag. -/
def writeTag (base property tag : String) (value : Json) :
    Except CodecError (Entries Json) :=
  match value with
  | .object members =>
    .ok ((property, .string tag) :: Entries.erase members property)
  | other => .error (.notAnObject base other.kind)

/-- Tag values with their decoders, kept in the order of the values. -/
structure Registry (α : Type) where
  base : String
  property : String
  decoders : List (String × (Json → Except CodecError α))

namespace Registry

variable {α : Type}

def empty (base property : String) : Registry α :=
  ⟨base, property, []⟩

private def register.place (value : String) (decoder : Json → Except CodecError α) :
    List (String × (Json → Except CodecError α)) → List (String × (Json → Except CodecError α))
  | [] => [(value, decoder)]
  | (v, d) :: rest =>
    if v = value then (value, decoder) :: rest
    else if value < v then (value, decoder) :: (v, d) :: rest
    else (v, d) :: register.place value decoder rest

/-- A later decoder for a value replaces the earlier one. -/
def register (registry : Registry α) (value : String) (decoder : Json → Except CodecError α) :
    Registry α :=
  { registry with decoders := register.place value decoder registry.decoders }

private theorem register.lookup_place (value : String) (decoder : Json → Except CodecError α)
    (decoders : Entries (Json → Except CodecError α)) (tag : String) :
    Entries.get? (register.place value decoder decoders) tag =
      if value = tag then some decoder else decoders.get? tag := by
  induction decoders with
  | nil => exact Entries.get?_cons value decoder [] tag
  | cons first rest ih =>
    obtain ⟨v, d⟩ := first
    rw [register.place]
    split
    · rename_i hsame
      rw [Entries.get?_cons, Entries.get?_cons, hsame]
      split <;> rfl
    · rename_i hother
      split
      · rw [Entries.get?_cons]
      · rw [Entries.get?_cons, ih, Entries.get?_cons]
        by_cases htag : v = tag
        · rw [if_pos htag, if_pos htag, if_neg fun h => hother (htag.trans h.symm)]
        · rw [if_neg htag, if_neg htag]

theorem lookup_register (registry : Registry α) (value : String)
    (decoder : Json → Except CodecError α) (tag : String) :
    (registry.register value decoder).decoders.lookup tag =
      if value = tag then some decoder else registry.decoders.lookup tag :=
  register.lookup_place value decoder registry.decoders tag

def values (registry : Registry α) : List String :=
  registry.decoders.map Prod.fst

def contains (registry : Registry α) (value : String) : Bool :=
  registry.values.contains value

def decode (registry : Registry α) (value : Json) : Except CodecError α := do
  let tag ← readTag registry.base registry.property value
  match registry.decoders.lookup tag with
  | some decoder => decoder value
  | none => throw (.unknownDiscriminator registry.base registry.property tag)

/-- The registry in one line. -/
def summary (registry : Registry α) : String :=
  "DiscriminatorRegistry \x7b base: " ++ Text.quote registry.base ++
    ", property: " ++ Text.quote registry.property ++
    ", values: [" ++ ", ".intercalate (registry.values.map Text.quote) ++ "] \x7d"

end Registry

end SchemaCompiler.Wire
