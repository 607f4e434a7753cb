import SchemaCompiler.IntWidth
import SchemaCompiler.Proofs.Json.Binary64

/-!
# Finite numbers

A number inside a JSON value is an integer of 64 bits or a finite binary64 value
(`Number.InRange`).  Either way it is finite once it is taken as a binary64 value
(`Number.isFinite_toFloat`): the conversion of an integer of that size never reaches the exponents
of infinity (`Binary64.isFinite_nearestFloat`).
-/

namespace SchemaCompiler

namespace Binary64

open Float.Model (Format UnpackedFloat totalExponent)
open Float.Model.UnpackedFloat

/-- A value that is finite once it is packed. -/
def Bounded : UnpackedFloat → Prop
  | .zero _ => True
  | .finite _ _ exponent _ => exponent ≤ 971
  | .infinity _ | .notANumber => False

theorem isFinite_unpack_packComponents (sign : Sign) {field : BitVec 11} (fraction : BitVec 52)
    (hones : field ≠ -1#11) :
    (UnpackedFloat.unpack Format.binary64
      (packComponents Format.binary64 sign field fraction)).isFinite = true := by
  unfold UnpackedFloat.unpack
  simp only [unpackMantissa_packComponents, unpackExponent_packComponents, hones, if_false]
  split
  · split <;> rfl
  · rfl

theorem Bounded.isFinite {f : UnpackedFloat} (h : Bounded f) :
    (Float.Model.pack f).unpack.isFinite = true := by
  change (UnpackedFloat.unpack Format.binary64 (UnpackedFloat.pack Format.binary64 f)).isFinite = _
  cases f with
  | infinity => exact h.elim
  | notANumber => exact h.elim
  | zero => exact isFinite_unpack_packComponents _ _ (by decide)
  | finite sign m e hpos =>
      have htop : e ≤ 971 := h
      have hfinite : ¬2 ^ Format.binary64.exponentBits ≤
          (e + Format.binary64.exponentBias + Format.binary64.mantissaBitsWithoutImplicit).toNat +
            1 := by
        change ¬2048 ≤ (e + 1023 + 52).toNat + 1
        omega
      rw [UnpackedFloat.pack]
      simp only [if_neg hfinite]
      split
      · refine isFinite_unpack_packComponents _ _ fun hones => ?_
        have hfield := congrArg BitVec.toNat hones
        change (BitVec.ofNat 11 (e + 1023 + 52).toNat).toNat = 2047 at hfield
        rw [BitVec.toNat_ofNat] at hfield
        omega
      · exact isFinite_unpack_packComponents _ _ (by decide)

theorem bounded_unpack {bits : BitVec 64}
    (h : (UnpackedFloat.unpack Format.binary64 bits).isFinite = true) :
    Bounded (UnpackedFloat.unpack Format.binary64 bits) := by
  have hexponent {field : BitVec 11} (hones : field ≠ -1#11) :
      (field.toNat : Int) - (1023 + 52) ≤ 971 := by
    have hlt := field.isLt
    have htop : field.toNat ≠ 2047 := fun heq => hones (BitVec.eq_of_toNat_eq heq)
    omega
  unfold UnpackedFloat.unpack at h ⊢
  dsimp only at h ⊢
  split
  · rename_i hones
    rw [if_pos hones] at h
    split at h <;> cases h
  · rename_i hones
    split
    · rename_i hzeros
      split
      · trivial
      · change _ ≤ (971 : Int)
        rw [hzeros]
        decide
    · exact hexponent hones

theorem Bounded.neg {f : UnpackedFloat} (h : Bounded f) : Bounded f.neg := by
  cases f with
  | infinity => exact h.elim
  | notANumber => exact h.elim
  | zero => exact h
  | finite => exact h

theorem mantissa_shiftRight_le (x : ExtendedMantissa) (k : Nat) :
    (x >>> k).mantissa ≤ x.mantissa := by
  induction k with
  | zero => exact le_rfl
  | succ k ih => exact (Nat.div_le_self _ 2).trans ih

theorem roundedMantissa_le (x : ExtendedMantissa) : x.roundedMantissa ≤ x.mantissa + 1 := by
  obtain ⟨m, round, sticky⟩ := x
  have hparity : m % 2 ≤ 1 := by omega
  cases round <;> cases sticky <;>
    simp [ExtendedMantissa.roundedMantissa, ExtendedMantissa.accuracy, Accuracy.roundToNearestEven]
  omega

theorem log2_le_of_le {m k : Nat} (h : m ≤ 2 ^ k) : m.log2 ≤ k := by
  by_cases hzero : m = 0
  · subst hzero
    exact Nat.zero_le k
  · exact (Nat.pow_le_pow_iff_right (by decide)).mp ((Nat.log2_self_le hzero).trans h)

/-- Rounding a number of moderate size leaves it bounded. -/
theorem bounded_round (sign : Sign) {m : Nat} {e : Int} (hm : m < 2 ^ 200) (hlow : -200 ≤ e)
    (hhigh : e ≤ 200) : Bounded (roundWithAccuracy Format.binary64 sign m e .exact) := by
  have hlog : m.log2 ≤ 200 := log2_le_of_le hm.le
  have hfirst : (shiftToTargetExponent Format.binary64 m e .exact).1.mantissa ≤ m ∧
      (shiftToTargetExponent Format.binary64 m e .exact).2 ≤ 400 := by
    refine ⟨mantissa_shiftRight_le _ _, ?_⟩
    simp only [shiftToTargetExponent, shiftToExponent, targetExponent_eq, totalExponent]
    omega
  rw [roundWithAccuracy]
  generalize shiftToTargetExponent Format.binary64 m e .exact = shifted at hfirst
  obtain ⟨x, e₁⟩ := shifted
  obtain ⟨hmantissa, he₁⟩ := hfirst
  have hrounded : x.roundedMantissa.log2 ≤ 200 :=
    log2_le_of_le ((roundedMantissa_le x).trans (hmantissa.trans_lt hm))
  have hsecond : (shiftToTargetExponent Format.binary64 x.roundedMantissa e₁ .exact).2 ≤ 971 := by
    simp only [shiftToTargetExponent, shiftToExponent, targetExponent_eq, totalExponent]
    omega
  dsimp only
  split
  · trivial
  · exact hsecond

theorem isFinite_of_value? {x : Float} {a : ℚ} (h : value? x = some a) : x.isFinite = true := by
  change x.toModel.unpack.isFinite = true
  rw [value?] at h
  split at h
  · rename_i hmodel
    rw [hmodel]
    rfl
  · rename_i hmodel
    rw [hmodel]
    rfl
  all_goals cases h

theorem isFinite_neg {x : Float} (h : x.isFinite = true) : (-x).isFinite = true :=
  (bounded_unpack h).neg.isFinite

theorem toModel_ofScientific_of_large {n : Nat} (h : 2 ^ 53 ≤ n) :
    (Float.ofScientific n false 0).toModel =
      Float.Model.pack (UnpackedFloat.ofScientific Format.binary64 n 0) := by
  rw [Float.ofScientific]
  split
  · rename_i hsmall
    exact absurd h (not_le.mpr hsmall.1)
  · rfl

theorem bounded_ofScientific {n : Nat} (hpos : n ≠ 0) (hlt : n < 2 ^ 64) :
    Bounded (UnpackedFloat.ofScientific Format.binary64 n 0) := by
  have hlarge : ¬(0 : Int) < -(2 ^ Format.binary64.exponentBits + (n.log2 : Int)) := by
    change ¬(0 : Int) < -(2048 + (n.log2 : Int))
    omega
  have hproduct : n <<< Format.binary64.mantissaBits * 10 ^ (0 : Int).toNat = n * 2 ^ 53 := by
    change n <<< 53 * 1 = _
    rw [Nat.mul_one, Nat.shiftLeft_eq]
  unfold UnpackedFloat.ofScientific
  rw [dif_neg hpos, if_neg (by decide), if_neg hlarge, if_pos (by decide), mul_finite, hproduct]
  exact bounded_round _ (by omega) (by decide) (by decide)

theorem isFinite_ofScientific {n : Nat} (hlt : n < 2 ^ 64) :
    (Float.ofScientific n false 0).isFinite = true := by
  by_cases hsmall : n < 2 ^ 53
  · have hlog : (n : Int).natAbs.log2 ≤ 1000 :=
      (log2_le_of_le (k := 53) (by rw [Int.natAbs_natCast]; exact hsmall.le)).trans (by decide)
    have hvalue := value?_nearestFloat hlog ⟨n, 0, by rwa [Int.natAbs_natCast], by ring⟩
    rw [Number.nearestFloat, if_neg (by omega), Int.natAbs_natCast] at hvalue
    exact isFinite_of_value? hvalue
  · change (Float.ofScientific n false 0).toModel.unpack.isFinite = true
    rw [toModel_ofScientific_of_large (not_lt.mp hsmall)]
    exact (bounded_ofScientific (by omega) hlt).isFinite

/-- The value nearest to an integer of 64 bits is finite. -/
theorem isFinite_nearestFloat {n : Int} (h : n.natAbs < 2 ^ 64) :
    (Number.nearestFloat n).isFinite = true := by
  rw [Number.nearestFloat]
  split
  · exact isFinite_neg (isFinite_ofScientific h)
  · exact isFinite_ofScientific h

end Binary64

namespace Number

/-- What a number token can hold: an integer of 64 bits, with or without a sign, or a finite
binary64 value. -/
def InRange : Number → Prop
  | int value => IntWidth.int64.holds value = true ∨ IntWidth.uint64.holds value = true
  | float value => value.isFinite = true

theorem isFinite_toFloat {number : Number} (h : number.InRange) :
    number.toFloat.isFinite = true := by
  cases number with
  | int value =>
      have hsize : value.natAbs < 2 ^ 64 := by
        have hbounds := h.imp IntWidth.holds_iff.mp IntWidth.holds_iff.mp
        simp only [IntWidth.least, IntWidth.greatest] at hbounds
        omega
      exact Binary64.isFinite_nearestFloat hsize
  | float value => exact h

end Number

end SchemaCompiler
