import SchemaCompiler.Proofs.Json.Binary64
import SchemaCompiler.Proofs.Wire.Alternatives
import SchemaCompiler.Wire.Gallery

/-!
# Integers in floating point

Floating point comes before the unsigned and the 16-bit kinds, so an integer that one of those
could hold is read as its nearest binary64 value (`Rounds`).  This is the only way in which a union
that can hold an integer reads another number (`reads_integer`).
-/

namespace SchemaCompiler.Wire

open Binary64 (Representable value?)

/-- The number that a payload stands for. -/
def Payload.number? : Payload → Option ℚ
  | .integer _ value => some value
  | .float value => value? value
  | .string _ | .boolean _ | .object _ | .array _ => none

namespace Union

variable {u : Union} {n : Int} {payload : Payload}

/-- Some alternative of the union can hold the integer as it is. -/
inductive CanHold (u : Union) (n : Int) : Prop where
  | integer {width : IntWidth} (declared : .integer width ∈ u.alternatives)
      (least : width.least ≤ n) (greatest : n ≤ width.greatest)
  | float (declared : .float ∈ u.alternatives)
      (exact : value? (Number.nearestFloat n) = some (n : ℚ))

/-- The integer goes to floating point: the kinds before that are not declared or too narrow. -/
structure Rounds (u : Union) (n : Int) : Prop where
  declared : .float ∈ u.alternatives
  beyond : ∀ width ∈ [IntWidth.int32, IntWidth.int64], .integer width ∈ u.alternatives →
    ¬(width.least ≤ n ∧ n ≤ width.greatest)

theorem rank_integer_lt_iff {width : IntWidth} :
    u.rank (.integer width) < u.rank .float ↔ width ∈ [IntWidth.int32, IntWidth.int64] := by
  cases width <;> simp [rank]
  all_goals omega

/-- An integer is taken in its own width, or as the nearest binary64 value if it has to be. -/
theorem Takes.integer_or_float (h : u.Takes (.number (.int n)) payload) :
    (¬u.Rounds n ∧ ∃ width, payload = .integer width n) ∨
      (u.Rounds n ∧ payload = .float (Number.nearestFloat n)) := by
  obtain ⟨hdeclared, hholds, hfirst⟩ := h
  cases hholds with
  | integer hleast hgreatest =>
      rename_i width
      refine Or.inl ⟨fun hrounds => ?_, width, rfl⟩
      have hlt : u.rank (.integer width) < u.rank .float := by
        have hle := hfirst (.float _) hrounds.declared (.rounded n)
        have hne : u.rank (.integer width) ≠ u.rank .float := by
          intro heq
          cases eq_of_rank_eq hdeclared heq
        exact lt_of_le_of_ne hle hne
      exact hrounds.beyond width (rank_integer_lt_iff.mp hlt) hdeclared ⟨hleast, hgreatest⟩
  | rounded =>
      refine Or.inr ⟨⟨hdeclared, ?_⟩, rfl⟩
      rintro width hwidth hother ⟨hleast, hgreatest⟩
      have hle := hfirst (.integer width n) hother (.integer hleast hgreatest)
      have hlt : u.rank (.integer width) < u.rank .float := rank_integer_lt_iff.mpr hwidth
      exact absurd hle (not_le_of_gt hlt)

theorem CanHold.exists_takes (h : u.CanHold n) (hdistinct : u.alternatives.Nodup) :
    ∃ payload, u.decode (.number (.int n)) = .ok (some payload) ∧
      u.Takes (.number (.int n)) payload := by
  obtain ⟨held, hdeclared, hholds⟩ : ∃ held : Payload, held.kind ∈ u.alternatives ∧
      Holds (.number (.int n)) held := by
    cases h with
    | integer hdeclared hleast hgreatest =>
        exact ⟨.integer _ n, hdeclared, .integer hleast hgreatest⟩
    | float hdeclared => exact ⟨.float _, hdeclared, .rounded n⟩
  obtain ⟨payload, hchosen⟩ := exists_choose_eq_some hdeclared hholds
  exact ⟨payload, decode_eq_some_iff.mpr hchosen, takes_of_choose hdistinct hchosen⟩

theorem log2_le_of_width {width : IntWidth} (hleast : width.least ≤ n)
    (hgreatest : n ≤ width.greatest) : n.natAbs.log2 ≤ 1000 := by
  have hlt : n.natAbs < 2 ^ 64 := by
    cases width <;> simp only [IntWidth.least, IntWidth.greatest] at hleast hgreatest <;> omega
  have hlog : n.natAbs.log2 ≤ 64 := by
    by_cases hzero : n.natAbs = 0
    · rw [hzero]
      decide
    · exact ((Nat.log2_lt hzero).mpr hlt).le
  omega

/-- The nearest value of an integer that can be held is that integer if it is representable. -/
theorem CanHold.nearest_iff (h : u.CanHold n) :
    value? (Number.nearestFloat n) = some (n : ℚ) ↔ Representable n := by
  cases h with
  | integer _ hleast hgreatest =>
      exact Binary64.value?_nearestFloat_eq_iff (log2_le_of_width hleast hgreatest)
  | float _ hexact => exact iff_of_true hexact (Binary64.representable_of_value? hexact)

/-- **An integer that some alternative can hold is read**, as that very integer unless the union
has to round it.  It rounds where floating point is declared and neither signed kind before that
can hold the integer, and this changes the integers that take more than 53 bits. -/
theorem reads_integer (hdistinct : u.alternatives.Nodup) (h : u.CanHold n) :
    ∃ payload, u.decode (.number (.int n)) = .ok (some payload) ∧
      (u.Rounds n → payload = .float (Number.nearestFloat n)) ∧
      (payload.number? = some (n : ℚ) ↔ (u.Rounds n → Representable n)) := by
  obtain ⟨payload, hdecode, htakes⟩ := h.exists_takes hdistinct
  refine ⟨payload, hdecode, ?_⟩
  rcases htakes.integer_or_float with ⟨hrounds, width, rfl⟩ | ⟨hrounds, rfl⟩
  · refine ⟨fun hrounded => absurd hrounded hrounds, ?_⟩
    exact iff_of_true rfl fun hrounded => absurd hrounded hrounds
  · refine ⟨fun _ => rfl, ?_⟩
    calc value? (Number.nearestFloat n) = some (n : ℚ) ↔ Representable n := h.nearest_iff
      _ ↔ (u.Rounds n → Representable n) := ⟨fun hexact _ => hexact, fun hexact => hexact hrounds⟩

/-- One more than the 53 bits of a significand can count, in a union without the wider kind. -/
theorem reads_integer_past_significand :
    let u : Union := ⟨"Level", [.integer .uint64, .integer .int32, .float], false⟩
    u.alternatives.Nodup ∧ u.CanHold 9007199254740993 ∧ u.Rounds 9007199254740993 ∧
      ∃ payload, u.decode (.number (.int 9007199254740993)) = .ok (some payload) ∧
        payload.number? ≠ some ((9007199254740993 : Int) : ℚ) := by
  intro u
  have hdistinct : u.alternatives.Nodup := by decide
  have hdeclared : .integer .uint64 ∈ u.alternatives := by decide
  have hholds : u.CanHold 9007199254740993 := .integer hdeclared (by decide) (by decide)
  have hrounds : u.Rounds 9007199254740993 := by
    refine ⟨by decide, ?_⟩
    decide
  obtain ⟨payload, hdecode, hrounded, -⟩ := reads_integer hdistinct hholds
  refine ⟨hdistinct, hholds, hrounds, payload, hdecode, ?_⟩
  rw [hrounded hrounds]
  change value? (Number.nearestFloat 9007199254740993) ≠ some 9007199254740993
  decide +kernel

/-- The greatest integer of 64 bits is read as the power of two after it, although an alternative
of its own width is declared. -/
theorem everything_rounds :
    ∃ u ∈ Gallery.unions, u.alternatives.Nodup ∧ .integer .uint64 ∈ u.alternatives ∧
      IntWidth.uint64.least ≤ 18446744073709551615 ∧
      18446744073709551615 ≤ IntWidth.uint64.greatest ∧
      ¬∃ payload, u.decode (.number (.int 18446744073709551615)) = .ok (some payload) ∧
        payload.number? = some ((18446744073709551615 : Int) : ℚ) := by
  refine ⟨Gallery.unions[3], List.getElem_mem _, by decide, by decide, by decide, by decide, ?_⟩
  rintro ⟨payload, hdecode, hvalue⟩
  have hrounded : Gallery.unions[3].decode (.number (.int 18446744073709551615)) =
      .ok (some (.float (Number.nearestFloat 18446744073709551615))) := rfl
  obtain rfl : payload = .float (Number.nearestFloat 18446744073709551615) :=
    Option.some.inj (Except.ok.inj (hdecode.symm.trans hrounded))
  revert hvalue
  change value? (Number.nearestFloat 18446744073709551615) ≠ some 18446744073709551615
  decide +kernel

end Union

end SchemaCompiler.Wire
