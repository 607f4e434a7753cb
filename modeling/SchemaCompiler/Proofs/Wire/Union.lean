import SchemaCompiler.Proofs.Fallible
import SchemaCompiler.Wire.Union

/-!
# Unions read back

A payload is written as the token it was read from, except for an integer held as a floating-point
value.  That one is written with a fraction, and among the alternatives only the floating-point one
takes it then.
-/

namespace SchemaCompiler.Wire

theorem Payload.toJson_ne_null (payload : Payload) : payload.toJson ≠ .null := by
  cases payload <;> exact fun h => Json.noConfusion h

namespace Union

variable {u : Union}

theorem decode_eq_none_iff {value : Json} :
    u.decode value = .ok none ↔ value = .null ∧ u.nullable = true := by
  cases value with
  | null =>
      rw [decode]
      cases u.nullable <;> simp
  | _ =>
      constructor
      · intro h
        rw [decode] at h
        split at h <;> cases h
        exact fun h => Json.noConfusion h
      · rintro ⟨h, -⟩
        cases h

theorem decode_eq_some_iff {value : Json} {payload : Payload} :
    u.decode value = .ok (some payload) ↔ u.choose value = some payload := by
  cases value with
  | null =>
      rw [decode, choose]
      cases u.nullable <;> simp
  | _ =>
      rw [decode]
      · split <;> simp [*]
      · exact fun h => Json.noConfusion h

theorem declares_of_mem_integerOrder {kind : AlternativeKind} (h : kind ∈ u.integerOrder) :
    u.declares kind = true := by
  rcases List.mem_append.mp h with h | h
  · exact (List.mem_filter.mp h).2
  · exact List.contains_iff_mem.mpr (List.mem_filter.mp h).1

theorem toJson_of_integerAs {value : Int} {kind : AlternativeKind} {payload : Payload}
    (h : integerAs value kind = some payload) :
    payload.toJson = .number (.int value) ∨
      kind = .float ∧ payload = .float (Number.nearestFloat value) := by
  cases kind with
  | integer width =>
      rw [integerAs] at h
      split at h
      · cases h
        exact Or.inl rfl
      · cases h
  | float =>
      cases h
      exact Or.inr ⟨rfl, rfl⟩
  | _ => cases h

theorem choose_toJson {value : Json} {payload : Payload} (h : u.choose value = some payload) :
    u.choose payload.toJson = some payload := by
  have hsame (heq : payload.toJson = value) : u.choose payload.toJson = some payload := by
    rw [heq]
    exact h
  cases value with
  | null => cases h
  | number number =>
      cases number with
      | int value =>
          obtain ⟨kind, hkind, hheld⟩ := List.exists_of_findSome?_eq_some h
          rcases toJson_of_integerAs hheld with heq | ⟨rfl, rfl⟩
          · exact hsame heq
          · show (if u.declares .float then _ else _) = _
            rw [if_pos (declares_of_mem_integerOrder hkind)]
      | float value =>
          refine hsame ?_
          rw [choose] at h
          split at h <;> cases h
          rfl
  | _ =>
      refine hsame ?_
      rw [choose] at h
      split at h <;> cases h
      rfl

/-- **A decoded payload is decoded again from its encoding.** -/
theorem decode_encode {value : Json} {payload : Option Payload}
    (h : u.decode value = .ok payload) : u.decode (encode payload) = .ok payload := by
  cases payload with
  | none =>
      rw [decode_eq_none_iff] at h
      show u.decode .null = .ok none
      rw [decode_eq_none_iff]
      exact ⟨rfl, h.2⟩
  | some payload =>
      show u.decode payload.toJson = .ok (some payload)
      rw [decode_eq_some_iff] at h ⊢
      exact choose_toJson h

theorem eq_null_of_encode_eq_null {value : Json} {payload : Option Payload}
    (h : u.decode value = .ok payload) (hnull : encode payload = .null) : value = .null := by
  cases payload with
  | none =>
      rw [decode_eq_none_iff] at h
      exact h.1
  | some payload => exact absurd hnull payload.toJson_ne_null

end Union

end SchemaCompiler.Wire
