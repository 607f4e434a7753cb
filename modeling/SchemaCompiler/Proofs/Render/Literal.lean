import SchemaCompiler.Model.Build
import SchemaCompiler.Proofs.Json.Finite
import SchemaCompiler.Proofs.Json.Inside
import SchemaCompiler.Proofs.Source.Expression

/-!
# Defaults of static types

A default is kept only if it fits the type of its field, and is then printed as a literal of that
type.  The two recursions agree: what fits is printed without the fallback, however deep, and the
literal is an expression of the type that produces the default (`literal_produces`).
-/

namespace SchemaCompiler

namespace Descriptor

/-- A type without dynamic values inside. -/
def IsStatic : Descriptor → Prop
  | array items => items.IsStatic
  | nullable inner => inner.IsStatic
  | dynamic => False
  | scalar _ | reference _ => True

/-- A value with the numbers that belong to binary64 types converted to them. -/
def convert : Descriptor → Json → Json
  | scalar .number, .number number => .number (.float number.toFloat)
  | array items, .array values => .array (values.map (items.convert ·))
  | nullable inner, value => inner.convert value
  | _, value => value

end Descriptor

namespace Render

open Build (literalFits)
open Source

/-! ## The values inside a default -/

/-- The types and values that are printed on their own while a default is. -/
inductive Prints : Descriptor → Json → Descriptor → Json → Prop where
  | whole (type : Descriptor) (default : Json) : Prints type default type default
  | item {items found : Descriptor} {values : List Json} {value inside : Json}
      (hmem : value ∈ values) (h : Prints items value found inside) :
      Prints (.array items) (.array values) found inside
  | inner {inner found : Descriptor} {value inside : Json} (hvalue : value ≠ .null)
      (h : Prints inner value found inside) : Prints (.nullable inner) value found inside

/-- What makes the literal of a default an expression. -/
structure IsWritable (type : Descriptor) (default : Json) : Prop where
  isStatic : type.IsStatic
  inRange : ∀ number ∈ default.numbers, number.InRange
  fits : literalFits type default = true

theorem convert_null (type : Descriptor) : type.convert .null = .null := by
  induction type with
  | scalar kind => cases kind <;> rfl
  | nullable inner ih => exact ih
  | _ => rfl

variable {type found : Descriptor} {default value : Json}

theorem IsWritable.item {items : Descriptor} {values : List Json}
    (h : IsWritable (.array items) (.array values)) (hmem : value ∈ values) :
    IsWritable items value where
  isStatic := h.isStatic
  inRange number hnumber := h.inRange number (Json.mem_numbers_of_item hmem hnumber)
  fits := by
    have hfits := h.fits
    rw [literalFits] at hfits
    exact List.all_eq_true.mp hfits value hmem

theorem IsWritable.inner {inner : Descriptor} (h : IsWritable (.nullable inner) default)
    (hvalue : default ≠ .null) : IsWritable inner default where
  isStatic := h.isStatic
  inRange := h.inRange
  fits := by
    have hfits := h.fits
    rwa [literalFits] at hfits
    exact hvalue

theorem IsWritable.of_prints (hprints : Prints type default found value)
    (h : IsWritable type default) : IsWritable found value := by
  induction hprints with
  | whole => exact h
  | item hmem _ ih => exact ih (h.item hmem)
  | inner hvalue _ ih => exact ih (h.inner hvalue)

/-! ## Literals as expressions -/

theorem yieldsAll_literals {items : Descriptor} {values : List Json} (hne : values ≠ [])
    (h : ∀ value ∈ values, Yields (literal items value) items.term (items.convert value)) :
    YieldsAll (", ".intercalate (literals items values)) items.term
      (values.map (items.convert ·)) := by
  induction values with
  | nil => exact absurd rfl hne
  | cons value rest ih =>
      have hvalue := h value List.mem_cons_self
      cases rest with
      | nil =>
          rw [literals, literals, String.intercalate_singleton]
          exact hvalue.singleton
      | cons next rest =>
          have hrest := ih (List.cons_ne_nil _ _) fun value hmem =>
            h value (List.mem_cons_of_mem _ hmem)
          rw [literals] at hrest ⊢
          rw [literals, String.intercalate_cons_cons]
          exact hvalue.cons hrest

theorem IsWritable.yields_scalar {kind : Scalar} (h : IsWritable (.scalar kind) default) :
    Yields (literal (.scalar kind) default) (Descriptor.scalar kind).term
      ((Descriptor.scalar kind).convert default) := by
  cases kind with
  | string =>
      cases default with
      | string text =>
          rw [literal]
          exact yields_text text
      | _ => cases h.fits
  | boolean =>
      cases default with
      | bool b =>
          rw [literal]
          exact yields_bool b
      | _ => cases h.fits
  | number =>
      cases default with
      | number number =>
          have hrange := h.inRange number (by simp [Json.numbers])
          rw [literal]
          exact yields_float rfl (Number.isFinite_toFloat hrange)
      | _ => cases h.fits
  | integer width =>
      cases default with
      | number number =>
          cases number with
          | int i =>
              rw [literal]
              cases width <;> exact yields_integer h.fits
          | float x => cases h.fits
      | _ => cases h.fits

theorem IsWritable.yields_array {items : Descriptor} (h : IsWritable (.array items) default)
    (hitems : ∀ value, IsWritable items value →
      Yields (literal items value) items.term (items.convert value)) :
    Yields (literal (.array items) default) (Descriptor.array items).term
      ((Descriptor.array items).convert default) := by
  cases default with
  | array values =>
      cases values with
      | nil =>
          rw [literal]
          exact yields_emptyList items.term
      | cons head rest =>
          rw [literal]
          · exact (yieldsAll_literals (List.cons_ne_nil _ _) fun value hmem =>
              hitems value (h.item hmem)).list
          · exact List.cons_ne_nil _ _
  | _ => cases h.fits

theorem IsWritable.yields_nullable {inner : Descriptor} (h : IsWritable (.nullable inner) default)
    (hinner : IsWritable inner default →
      Yields (literal inner default) inner.term (inner.convert default)) :
    Yields (literal (.nullable inner) default) (Descriptor.nullable inner).term
      ((Descriptor.nullable inner).convert default) := by
  by_cases hnull : default = .null
  · subst hnull
    rw [literal, Descriptor.convert, convert_null]
    exact yields_absent inner.term
  · rw [literal]
    · exact (hinner (h.inner hnull)).present
    · exact hnull

/-- What fits a static type is written as an expression of that type. -/
theorem IsWritable.yields (h : IsWritable type default) :
    Yields (literal type default) type.term (type.convert default) := by
  induction type generalizing default with
  | dynamic => exact h.isStatic.elim
  | reference name => cases default <;> cases h.fits
  | scalar kind => exact h.yields_scalar
  | array items ih => exact h.yields_array fun _ => ih
  | nullable inner ih => exact h.yields_nullable ih

theorem IsWritable.ne_fallback (h : IsWritable type default) :
    literal type default ≠ "Default::default()" := by
  obtain ⟨e, value, hreads, -⟩ := h.yields
  intro heq
  rw [heq] at hreads
  have hread : Expression.read? "Default::default()" = none := by decide
  rw [hreads.read?] at hread
  cases hread

/-- **The literal of a default that fits a static type.**  Nothing inside it is printed as the
fallback.  It is an expression that produces one value of the type as it is rendered, and the
encoding of that value is the default. -/
theorem literal_produces {type : Descriptor} {default : Json} (hstatic : type.IsStatic)
    (hrange : ∀ number ∈ default.numbers, number.InRange)
    (hfits : literalFits type default = true) :
    (∀ found value, Prints type default found value →
      literal found value ≠ "Default::default()") ∧
    type.term.text = Profile.standard.type false type ∧
    ∃ e value, Expression.read? (literal type default) = some e ∧
      (∀ other, Produces e type.term other ↔ other = value) ∧
      value.json = type.convert default := by
  have h : IsWritable type default := ⟨hstatic, hrange, hfits⟩
  obtain ⟨e, value, hreads, hproduces, hjson⟩ := h.yields
  refine ⟨fun found value hprints => (h.of_prints hprints).ne_fallback, type.text_term, e, value,
    hreads.read?, fun other => ⟨fun hother => hother.unique hproduces, ?_⟩, hjson⟩
  rintro rfl
  exact hproduces

/-- A list of 16-bit integers that may be missing, with the least one in it. -/
theorem literal_produces_least :
    let type : Descriptor := .nullable (.array (.nullable (.scalar (.integer .int16))))
    let default : Json := .array [.number (.int (-32768)), .null]
    (type.IsStatic ∧ (∀ number ∈ default.numbers, number.InRange) ∧
      literalFits type default = true) ∧
    (∀ found value, Prints type default found value →
      literal found value ≠ "Default::default()") ∧
    type.term.text = Profile.standard.type false type ∧
    ∃ e value, Expression.read? (literal type default) = some e ∧
      (∀ other, Produces e type.term other ↔ other = value) ∧
      value.json = type.convert default := by
  intro type default
  have hstatic : type.IsStatic := trivial
  have hrange : ∀ number ∈ default.numbers, number.InRange := by
    intro number hnumber
    obtain rfl : number = .int (-32768) := List.mem_singleton.mp hnumber
    exact .inl rfl
  have hfits : literalFits type default = true := rfl
  exact ⟨⟨hstatic, hrange, hfits⟩, literal_produces hstatic hrange hfits⟩

example : literal (.nullable (.array (.nullable (.scalar (.integer .int16)))))
    (.array [.number (.int (-32768)), .null]) = "Some(vec![Some(-32768), None])" := by
  cbv

end Render

end SchemaCompiler
