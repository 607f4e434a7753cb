import SchemaCompiler.Proofs.Fallible
import SchemaCompiler.Wire.Discriminator

/-!
# Tags on the wire

A tag is read as the text of its member and written as a string.  The text of a string is the
string, so what is written reads back as the tag it was written for (`readTag_of_writeTag`).
-/

namespace SchemaCompiler.Wire

open Fallible

/-- Only a string is written the way it was declared. -/
theorem string_literalText_eq_iff {constant : Json} :
    Json.string (literalText constant) = constant ↔ ∃ text, constant = .string text := by
  constructor
  · intro h
    exact ⟨literalText constant, h.symm⟩
  · rintro ⟨text, rfl⟩
    rfl

variable {base property tag : String} {members : List (String × Json)}

/-- A tag is read from its own member alone. -/
theorem readTag_congr {other : List (String × Json)}
    (h : Entries.get? members property = Entries.get? other property) :
    readTag base property (.object members) = readTag base property (.object other) := by
  rw [readTag, readTag, h]

theorem readTag_of_get? {constant : Json} (h : Entries.get? members property = some constant)
    (hnull : constant ≠ .null) :
    readTag base property (.object members) = .ok (literalText constant) := by
  rw [readTag, h]
  cases constant with
  | null => exact absurd rfl hnull
  | _ => rfl

/-- The tag of an object is the text of a member that is not null. -/
theorem readTag_eq_ok_iff :
    readTag base property (.object members) = .ok tag ↔
      ∃ constant, Entries.get? members property = some constant ∧ constant ≠ .null ∧
        literalText constant = tag := by
  constructor
  · intro h
    unfold readTag at h
    dsimp only at h
    split at h
    · cases h
    · cases h
    · rename_i constant hnull hconstant
      exact ⟨constant, hconstant, fun heq => hnull heq, Except.ok.inj h⟩
  · rintro ⟨constant, hconstant, hnull, rfl⟩
    exact readTag_of_get? hconstant hnull

theorem readTag_of_null (h : Entries.get? members property = some .null) :
    readTag base property (.object members) = .error (.missingDiscriminator base property) := by
  rw [readTag, h]

theorem get?_of_writeTag {value : Json} {written : Entries Json}
    (h : writeTag base property tag value = .ok written) :
    written.get? property = some (.string tag) := by
  unfold writeTag at h
  split at h
  · obtain rfl := Except.ok.inj h
    rw [Entries.get?_cons, if_pos rfl]
  · cases h

theorem readTag_of_writeTag {value : Json} {written : Entries Json}
    (h : writeTag base property tag value = .ok written) :
    readTag base property (.object written) = .ok tag :=
  readTag_of_get? (get?_of_writeTag h) Json.noConfusion

namespace Registry

variable {α : Type} {registry : Registry α} {decoder : Json → Except CodecError α}

theorem decode_of_readTag {value : Json}
    (htag : readTag registry.base registry.property value = .ok tag)
    (hdecoder : registry.decoders.lookup tag = some decoder) :
    registry.decode value = decoder value := by
  simp only [decode, htag, bind, Except.bind, hdecoder]

theorem decode_of_readTag_error {value : Json} {error : CodecError}
    (htag : readTag registry.base registry.property value = .error error) :
    registry.decode value = .error error := by
  rw [decode, htag]
  rfl

end Registry

end SchemaCompiler.Wire
