import Mathlib
import SchemaCompiler.Json.Basic

/-!
# Integers in binary64

`value?` is the number that a binary64 value stands for.  The value nearest to an integer stands
for that integer exactly if 53 bits and a power of two are enough to write it
(`value?_nearestFloat_eq_iff`).  One direction follows the integer through rounding and packing:
its significand is shifted until it has 53 bits (`exists_normal`), which no later step changes
(`IsNormal.round`, `IsNormal.unpack_pack`).  The other holds of every binary64 value.
-/

namespace SchemaCompiler.Binary64

open Float.Model (Format totalExponent UnpackedFloat)
open Float.Model.UnpackedFloat

/-- The number that a binary64 value stands for; infinities and NaN stand for none. -/
def value? (x : Float) : Option ℚ :=
  match x.toModel.unpack with
  | .finite sign significand exponent _ => some (sign.apply significand * 2 ^ exponent)
  | .zero _ => some 0
  | .infinity _ | .notANumber => none

/-- A significand of 53 bits at most times a power of two. -/
def Representable (n : Int) : Prop :=
  ∃ (significand : Int) (exponent : Nat), significand.natAbs < 2 ^ 53 ∧
    n = significand * 2 ^ exponent

structure IsNormal (significand : Nat) (exponent : Int) : Prop where
  least : 2 ^ 52 ≤ significand
  greatest : significand < 2 ^ 53
  bottom : -1074 ≤ exponent
  top : exponent ≤ 971

variable {significand : Nat} {exponent : Int}

theorem IsNormal.pos (h : IsNormal significand exponent) : 0 < significand :=
  lt_of_lt_of_le (by decide) h.least

theorem targetExponent_eq (total : Int) :
    Format.binary64.targetExponent total = max (total - 53) (-1074) :=
  rfl

theorem shiftRight_mul (m k : Nat) :
    ExtendedMantissa.ofMantissaAndAccuracy (m * 2 ^ k) .exact >>> k =
      ExtendedMantissa.ofMantissaAndAccuracy m .exact := by
  induction k generalizing m with
  | zero =>
      rw [Nat.pow_zero, Nat.mul_one]
      rfl
  | succ k ih =>
      have hsplit : m * 2 ^ (k + 1) = m * 2 * 2 ^ k := by rw [Nat.pow_succ]; ring
      change ExtendedMantissa.shiftRightOne
        (ExtendedMantissa.ofMantissaAndAccuracy (m * 2 ^ (k + 1)) .exact >>> k) = _
      rw [hsplit, ih]
      simp [ExtendedMantissa.shiftRightOne, ExtendedMantissa.ofMantissaAndAccuracy]

/-- A significand followed by zeros only is rounded to itself. -/
theorem IsNormal.round (h : IsNormal significand exponent) (sign : Sign) (k : Nat) :
    roundWithAccuracy Format.binary64 sign (significand * 2 ^ k) (exponent - k) .exact =
      .finite sign significand exponent h.pos := by
  have htarget (j : Nat) : Format.binary64.targetExponent
      (totalExponent (significand * 2 ^ j) (exponent - j)) = exponent := by
    have hlog : (significand * 2 ^ j).log2 = 52 + j := by
      have hpos := Nat.mul_pos h.pos (Nat.two_pow_pos j)
      refine (Nat.log2_eq_iff hpos.ne').mpr ⟨?_, ?_⟩
      · rw [Nat.pow_add]
        exact Nat.mul_le_mul_right _ h.least
      · rw [show 52 + j + 1 = 53 + j by omega, Nat.pow_add]
        exact Nat.mul_lt_mul_of_pos_right h.greatest (Nat.two_pow_pos j)
    have hbottom := h.bottom
    rw [targetExponent_eq, totalExponent, hlog]
    omega
  have hshift (j : Nat) : shiftToTargetExponent Format.binary64 (significand * 2 ^ j)
      (exponent - j) .exact =
        (ExtendedMantissa.ofMantissaAndAccuracy significand .exact, exponent) := by
    have hamount : (exponent - (exponent - j)).toNat = j := by omega
    rw [shiftToTargetExponent, htarget]
    simp only [shiftToExponent]
    rw [hamount, shiftRight_mul, sub_add_cancel]
  have hsettled := hshift 0
  rw [Nat.pow_zero, Nat.mul_one, Nat.cast_zero, sub_zero] at hsettled
  have hrounded : (ExtendedMantissa.ofMantissaAndAccuracy significand .exact).roundedMantissa =
      significand := rfl
  have hmantissa : (ExtendedMantissa.ofMantissaAndAccuracy significand .exact).mantissa =
      significand := rfl
  rw [roundWithAccuracy, hshift]
  simp only [hrounded, hsettled, hmantissa, h.pos.ne', dite_false]

/-! ## Bits -/

/-- Between the two special exponent fields, the fraction has a leading one. -/
theorem unpack_packComponents (sign : Sign) {field : BitVec 11} (fraction : BitVec 52)
    (hzeros : field ≠ 0#11) (hones : field ≠ -1#11) :
    UnpackedFloat.unpack Format.binary64 (packComponents Format.binary64 sign field fraction) =
      .finite sign (2 ^ 52 + fraction.toNat) (field.toNat - 1075) (by omega) := by
  have hsignificand : (1#1 ++ fraction).toNat = 2 ^ 52 + fraction.toNat := by
    rw [BitVec.toNat_append, ← Nat.shiftLeft_add_eq_or_of_lt fraction.isLt]
    rfl
  unfold UnpackedFloat.unpack
  simp only [unpackMantissa_packComponents, unpackExponent_packComponents,
    unpackSign_packComponents, Sign.ofBitVec_toBitVec, hzeros, hones, hsignificand,
    if_false]
  rfl

theorem IsNormal.toNat_field (h : IsNormal significand exponent) :
    ((BitVec.ofNat 11 (exponent + 1075).toNat).toNat : Int) = exponent + 1075 := by
  obtain ⟨-, -, hbottom, htop⟩ := h
  rw [BitVec.toNat_ofNat]
  omega

theorem IsNormal.pack_eq (h : IsNormal significand exponent) (sign : Sign) :
    UnpackedFloat.pack Format.binary64 (.finite sign significand exponent h.pos) =
      packComponents Format.binary64 sign (BitVec.ofNat 11 (exponent + 1075).toNat)
        (BitVec.ofNat 52 significand) := by
  have hlog : significand.log2 = 52 :=
    (Nat.log2_eq_iff h.pos.ne').mpr ⟨h.least, h.greatest⟩
  have hbiased : exponent + Format.binary64.exponentBias +
      Format.binary64.mantissaBitsWithoutImplicit = exponent + 1075 := by
    change exponent + 1023 + 52 = _
    ring
  have hfinite : ¬2 ^ Format.binary64.exponentBits ≤ (exponent + 1075).toNat + 1 := by
    have htop := h.top
    change ¬2048 ≤ _
    omega
  simp only [UnpackedFloat.pack, hbiased, hlog, if_neg hfinite]
  rfl

/-- A normal value is read back from its bits. -/
theorem IsNormal.unpack_pack (h : IsNormal significand exponent) (sign : Sign) :
    (Float.Model.pack (.finite sign significand exponent h.pos)).unpack =
      .finite sign significand exponent h.pos := by
  have hfield := h.toNat_field
  have hbottom := h.bottom
  have htop := h.top
  have hzeros : BitVec.ofNat 11 (exponent + 1075).toNat ≠ 0#11 := by
    intro heq
    rw [heq] at hfield
    change (0 : Int) = _ at hfield
    omega
  have hones : BitVec.ofNat 11 (exponent + 1075).toNat ≠ -1#11 := by
    intro heq
    rw [heq] at hfield
    change (2047 : Int) = _ at hfield
    omega
  have hsignificand : 2 ^ 52 + (BitVec.ofNat 52 significand).toNat = significand := by
    have hleast := h.least
    have hgreatest := h.greatest
    rw [BitVec.toNat_ofNat]
    omega
  change UnpackedFloat.unpack Format.binary64 (UnpackedFloat.pack Format.binary64 _) = _
  rw [h.pack_eq, unpack_packComponents sign _ hzeros hones]
  simp only [hfield, hsignificand, add_sub_cancel_right]

/-! ## Integers -/

theorem representable_natAbs_iff {n : Int} : Representable n.natAbs ↔ Representable n := by
  constructor
  · rintro ⟨m, k, hm, hn⟩
    rcases Int.natAbs_eq n with h | h
    · exact ⟨m, k, hm, h.trans hn⟩
    · refine ⟨-m, k, by rwa [Int.natAbs_neg], ?_⟩
      rw [h, hn, neg_mul]
  · rintro ⟨m, k, hm, hn⟩
    refine ⟨m.natAbs, k, by rwa [Int.natAbs_natCast], ?_⟩
    rw [hn, Int.natAbs_mul, Int.natAbs_pow]
    push_cast
    rfl

/-- The significand of an integer that is representable. -/
theorem exists_normal {n : Nat} (hpos : 0 < n) (hsmall : n.log2 ≤ 1000)
    (h : Representable n) :
    ∃ significand, IsNormal significand (n.log2 - 52) ∧
      significand * 2 ^ n.log2 = n * 2 ^ 52 := by
  obtain ⟨m, k, hm, hn⟩ := h
  have hn : n = m.natAbs * 2 ^ k := by
    have := congrArg Int.natAbs hn
    simpa [Int.natAbs_mul, Int.natAbs_pow] using this
  have hleast : 2 ^ n.log2 ≤ n := Nat.log2_self_le hpos.ne'
  have hgreatest : n < 2 ^ (n.log2 + 1) := Nat.lt_log2_self
  -- the zeros behind the significand are enough to divide by
  have hk : n.log2 < 53 + k := by
    refine (Nat.pow_lt_pow_iff_right (by decide : 1 < 2)).mp (lt_of_le_of_lt hleast ?_)
    rw [Nat.pow_add]
    calc n = m.natAbs * 2 ^ k := hn
      _ < 2 ^ 53 * 2 ^ k := Nat.mul_lt_mul_of_pos_right hm (Nat.two_pow_pos k)
  obtain ⟨significand, hsignificand⟩ : 2 ^ n.log2 ∣ n * 2 ^ 52 := by
    have hdvd : 2 ^ n.log2 ∣ m.natAbs * 2 ^ (k + 52) :=
      Dvd.dvd.mul_left (Nat.pow_dvd_pow 2 (by omega)) _
    rwa [Nat.pow_add, ← Nat.mul_assoc, ← hn] at hdvd
  have hpower := Nat.two_pow_pos n.log2
  refine ⟨significand, ⟨?_, ?_, by omega, by omega⟩, by rw [hsignificand, Nat.mul_comm]⟩
  · refine Nat.le_of_mul_le_mul_left (c := 2 ^ n.log2) ?_ hpower
    rw [← hsignificand]
    exact Nat.mul_le_mul_right _ hleast
  · refine Nat.lt_of_mul_lt_mul_left (a := 2 ^ n.log2) ?_
    rw [← hsignificand]
    calc n * 2 ^ 52 < 2 ^ (n.log2 + 1) * 2 ^ 52 :=
          Nat.mul_lt_mul_of_pos_right hgreatest (Nat.two_pow_pos 52)
      _ = 2 ^ n.log2 * 2 ^ 53 := by rw [Nat.pow_succ]; ring

/-- An integer within 53 bits is shifted to the left until its significand is normal. -/
theorem ofUInt64_eq {n : Nat} (hpos : 0 < n) (hlt : n < 2 ^ 53) {significand : Nat}
    (h : IsNormal significand (n.log2 - 52)) (hvalue : significand * 2 ^ n.log2 = n * 2 ^ 52) :
    Float.Model.ofUInt64 n.toUInt64 =
      Float.Model.pack (.finite .positive significand (n.log2 - 52) h.pos) := by
  have hword : n.toUInt64.toNat = n := by
    change n % 2 ^ 64 = n
    omega
  have hlog : n.log2 ≤ 52 := by
    have := (Nat.log2_lt hpos.ne').mpr hlt
    omega
  have hshifted : n <<< (52 - n.log2) = significand := by
    refine Nat.eq_of_mul_eq_mul_right (Nat.two_pow_pos n.log2) ?_
    rw [hvalue, Nat.shiftLeft_eq, Nat.mul_assoc, ← Nat.pow_add, Nat.sub_add_cancel hlog]
  have hcompare : compare (n : Int) 0 = .gt := Int.compare_eq_gt.mpr (by omega)
  have htarget : Format.binary64.targetExponent (totalExponent n 0) = n.log2 - 52 := by
    rw [targetExponent_eq, totalExponent]
    omega
  have hamount : (0 - ((n.log2 : Int) - 52)).toNat = 52 - n.log2 := by omega
  have hlower : (0 : Int) - ((52 - n.log2 : Nat) : Int) = n.log2 - 52 := by omega
  have hround := h.round .positive 0
  rw [Nat.pow_zero, Nat.mul_one, Nat.cast_zero, sub_zero] at hround
  simp only [Float.Model.ofUInt64, ofUInt64, ofNat, ofInt, UnpackedFloat.normalize, hword, hcompare,
    Int.toNat_natCast, UnpackedFloat.round, htarget, decreaseExponent, hamount, hlower, hshifted,
    hround]

theorem mul_finite (s s' : Sign) (m m' : Nat) (e e' : Int) (h : 0 < m) (h' : 0 < m') :
    UnpackedFloat.mul Format.binary64 (.finite s m e h) (.finite s' m' e' h') =
      roundWithAccuracy Format.binary64 (s * s') (m * m') (e + e') .exact :=
  rfl

theorem toModel_ofScientific {n : Nat} (hpos : 0 < n) {significand : Nat}
    (h : IsNormal significand (n.log2 - 52)) (hvalue : significand * 2 ^ n.log2 = n * 2 ^ 52) :
    (Float.ofScientific n false 0).toModel =
      Float.Model.pack (.finite .positive significand (n.log2 - 52) h.pos) := by
  rw [Float.ofScientific]
  split
  · rename_i hsmall
    -- a product with one
    have hone : (Float.exactlyRepresentablePowersOfTen[0]).toModel.unpack =
      .finite .positive (2 ^ 52) (-52) (by decide) := by rfl
    change Float.Model.pack (UnpackedFloat.mul Format.binary64
      (Float.Model.ofUInt64 n.toUInt64).unpack
      (Float.exactlyRepresentablePowersOfTen[0]).toModel.unpack) = _
    rw [ofUInt64_eq hpos hsmall.1 h hvalue, h.unpack_pack, hone, mul_finite]
    exact congrArg Float.Model.pack (h.round .positive 52)
  · have hproduct : n <<< Format.binary64.mantissaBits * 10 ^ (0 : Int).toNat =
        significand * 2 ^ (n.log2 + 1) := by
      change n <<< 53 * 1 = _
      rw [Nat.pow_succ, ← Nat.mul_assoc, hvalue, Nat.shiftLeft_eq]
      ring
    have hexponent : -(Format.binary64.mantissaBits : Int) + 0 =
        (n.log2 : Int) - 52 - ((n.log2 + 1 : Nat) : Int) := by
      change (-53 : Int) + 0 = _
      omega
    have hlarge : ¬(0 : Int) < -(2 ^ Format.binary64.exponentBits + (n.log2 : Int)) := by
      change ¬(0 : Int) < -(2048 + (n.log2 : Int))
      omega
    change Float.Model.pack (UnpackedFloat.ofScientific Format.binary64 n 0) = _
    unfold UnpackedFloat.ofScientific
    rw [dif_neg hpos.ne', if_neg (by decide), if_neg hlarge, if_pos (by decide), mul_finite,
      hproduct, hexponent]
    exact congrArg Float.Model.pack (h.round .positive (n.log2 + 1))

/-! ## Values -/

theorem natAbs_apply (sign : Sign) (m : Nat) : (sign.apply (m : Int)).natAbs = m := by
  cases sign
  · exact Int.natAbs_neg m
  · exact Int.natAbs_natCast m

theorem value?_of_toModel {x : Float} {sign : Sign} (h : IsNormal significand exponent)
    (hx : x.toModel = Float.Model.pack (.finite sign significand exponent h.pos)) :
    value? x = some ((sign.apply (significand : Int) : Int) * 2 ^ exponent : ℚ) := by
  rw [value?, hx, h.unpack_pack]

/-- An integer that is representable has itself as its nearest value. -/
theorem value?_nearestFloat {n : Int} (hsmall : n.natAbs.log2 ≤ 1000) (h : Representable n) :
    value? (Number.nearestFloat n) = some (n : ℚ) := by
  by_cases hzero : n = 0
  · subst hzero
    decide +kernel
  · have hpos : 0 < n.natAbs := Int.natAbs_pos.mpr hzero
    obtain ⟨significand, hnormal, hvalue⟩ :=
      exists_normal hpos hsmall (representable_natAbs_iff.mpr h)
    have hmodel := toModel_ofScientific hpos hnormal hvalue
    have hscaled : (significand : ℚ) * 2 ^ ((n.natAbs.log2 : Int) - 52) = n.natAbs := by
      rw [zpow_sub₀ (by norm_num), zpow_natCast, ← mul_div_assoc, div_eq_iff (by norm_num)]
      exact_mod_cast hvalue
    by_cases hnegative : n < 0
    · have hopposite : (Number.nearestFloat n).toModel = Float.Model.pack
          (.finite .negative significand (n.natAbs.log2 - 52) hnormal.pos) := by
        rw [Number.nearestFloat, if_pos hnegative]
        change Float.Model.pack (Float.ofScientific n.natAbs false 0).toModel.unpack.neg = _
        rw [hmodel, hnormal.unpack_pack]
        rfl
      rw [value?_of_toModel hnormal hopposite]
      have hn : (n : ℚ) = -(n.natAbs : ℚ) := by
        rw [Nat.cast_natAbs, abs_of_neg hnegative]
        push_cast
        ring
      rw [hn, ← hscaled]
      change some (((-(significand : Int) : Int) : ℚ) * _) = _
      push_cast
      rw [neg_mul]
    · rw [Number.nearestFloat, if_neg hnegative, value?_of_toModel hnormal hmodel]
      have hn : (n : ℚ) = n.natAbs := by
        rw [Nat.cast_natAbs, abs_of_nonneg (not_lt.mp hnegative)]
      rw [hn, ← hscaled]
      rfl

theorem significand_lt_of_unpack {bits : BitVec 64} {sign : Sign} {h : 0 < significand}
    (hunpack : UnpackedFloat.unpack Format.binary64 bits = .finite sign significand exponent h) :
    significand < 2 ^ 53 := by
  unfold UnpackedFloat.unpack at hunpack
  dsimp only at hunpack
  split at hunpack
  · split at hunpack <;> cases hunpack
  · split at hunpack
    · split at hunpack
      · cases hunpack
      · cases hunpack
        exact lt_trans (BitVec.isLt _) (by decide)
    · cases hunpack
      exact BitVec.isLt _

/-- Integers that are values are representable. -/
theorem representable_of_value? {x : Float} {n : Int} (h : value? x = some (n : ℚ)) :
    Representable n := by
  unfold value? at h
  split at h
  · rename_i sign significand exponent hpos hunpack
    have hlt := significand_lt_of_unpack hunpack
    have hvalue := Option.some.inj h
    rcases le_or_gt 0 exponent with hexponent | hexponent
    · lift exponent to ℕ using hexponent
      refine ⟨sign.apply significand, exponent, by rwa [natAbs_apply], ?_⟩
      rw [zpow_natCast] at hvalue
      exact_mod_cast hvalue.symm
    · -- a fraction of the significand
      obtain ⟨k, rfl⟩ := Int.exists_eq_neg_ofNat hexponent.le
      have hscaled : n * 2 ^ k = sign.apply significand := by
        rw [zpow_neg, zpow_natCast, ← div_eq_mul_inv, div_eq_iff (by positivity)] at hvalue
        exact_mod_cast hvalue.symm
      have habs : n.natAbs * 2 ^ k = significand := by
        rw [← natAbs_apply sign significand, ← hscaled, Int.natAbs_mul, Int.natAbs_pow]
        rfl
      have hle : n.natAbs ≤ significand := by
        rw [← habs]
        exact Nat.le_mul_of_pos_right _ (Nat.two_pow_pos k)
      exact ⟨n, 0, lt_of_le_of_lt hle hlt, by ring⟩
  · have hzero : n = 0 := by exact_mod_cast (Option.some.inj h).symm
    exact ⟨0, 0, by decide, by rw [hzero]; rfl⟩
  all_goals cases h

/-- **An integer is its own nearest value exactly if it is representable.** -/
theorem value?_nearestFloat_eq_iff {n : Int} (hsmall : n.natAbs.log2 ≤ 1000) :
    value? (Number.nearestFloat n) = some (n : ℚ) ↔ Representable n :=
  ⟨representable_of_value?, value?_nearestFloat hsmall⟩

end SchemaCompiler.Binary64
