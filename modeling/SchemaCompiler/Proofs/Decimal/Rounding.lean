import SchemaCompiler.Proofs.Json.Binary64
import SchemaCompiler.Decimal.Shortest

/-!
# Rounding to binary64

A finite value stands for its significand scaled by a power of two.  A number rounds to the value
if no other is nearer, and to the even significand of two that are equally near (`Rounds`).  The
numbers that round to a value make up the interval between the middles to its neighbours
(`rounds_of_around`), and a number rounds to one value (`Rounds.unique`).
-/

namespace SchemaCompiler.Binary64

open Float.Model (Format UnpackedFloat)
open Float.Model.UnpackedFloat

/-- The fraction field of a value. -/
def fraction (x : Float) : Nat :=
  x.toBits.toNat % 2 ^ 52

/-- The exponent field of a value. -/
def field (x : Float) : Nat :=
  x.toBits.toNat / 2 ^ 52 % 2 ^ 11

def isNegative (x : Float) : Bool :=
  x.toBits >>> 63 = 1

def significand (x : Float) : Nat :=
  if field x = 0 then fraction x else 2 ^ 52 + fraction x

def scale (x : Float) : Int :=
  if field x = 0 then -1074 else field x - 1075

/-- The number that a finite value stands for, without its sign. -/
def magnitude (x : Float) : ℚ :=
  significand x * 2 ^ scale x

theorem isNegative_iff {x : Float} : isNegative x = true ↔ 2 ^ 63 ≤ x.toBits.toNat := by
  have hlt := x.toBits.toNat_lt
  rw [isNegative, decide_eq_true_eq, ← UInt64.toNat_inj, UInt64.toNat_shiftRight]
  change x.toBits.toNat >>> 63 = 1 ↔ _
  rw [Nat.shiftRight_eq_div_pow]
  omega

theorem toNat_unpackMantissa (x : Float) :
    (@unpackMantissa Format.binary64 x.toBits.toBitVec).toNat = fraction x := by
  simp [unpackMantissa, fraction]

theorem toNat_unpackExponent (x : Float) :
    (@unpackExponent Format.binary64 x.toBits.toBitVec).toNat = field x := by
  simp [unpackExponent, field, Nat.shiftRight_eq_div_pow]

theorem toNat_unpackSign (x : Float) :
    (@unpackSign Format.binary64 x.toBits.toBitVec).toNat = x.toBits.toNat / 2 ^ 63 := by
  have hlt := x.toBits.toNat_lt
  simp [unpackSign, Nat.shiftRight_eq_div_pow]
  omega

theorem unpackSign_eq (x : Float) :
    Sign.ofBitVec (@unpackSign Format.binary64 x.toBits.toBitVec) =
      if isNegative x then .negative else .positive := by
  have hlt := x.toBits.toNat_lt
  have hbit : @unpackSign Format.binary64 x.toBits.toBitVec = 0#1 ↔
      ¬isNegative x = true := by
    rw [← BitVec.toNat_inj, toNat_unpackSign, isNegative_iff]
    change _ = 0 ↔ _
    omega
  rw [Sign.ofBitVec]
  split
  · rename_i h
    rw [if_neg (hbit.mp h)]
  · rename_i h
    rw [if_pos (not_not.mp (mt hbit.mpr h))]

theorem field_lt (x : Float) : field x < 2048 :=
  Nat.mod_lt _ (by decide)

theorem fraction_lt (x : Float) : fraction x < 2 ^ 52 :=
  Nat.mod_lt _ (by decide)

/-- A value is finite unless its exponent field has ones only. -/
theorem value?_eq (x : Float) :
    value? x = if field x = 2047 then none
      else some ((if isNegative x then -1 else 1) * magnitude x) := by
  have hones : @unpackExponent Format.binary64 x.toBits.toBitVec = -1#11 ↔
      field x = 2047 := by
    rw [← BitVec.toNat_inj, toNat_unpackExponent]
    rfl
  have hzeros : @unpackExponent Format.binary64 x.toBits.toBitVec = 0#11 ↔
      field x = 0 := by
    rw [← BitVec.toNat_inj, toNat_unpackExponent]
    rfl
  have hnone : @unpackMantissa Format.binary64 x.toBits.toBitVec = 0#52 ↔
      fraction x = 0 := by
    rw [← BitVec.toNat_inj, toNat_unpackMantissa]
    rfl
  have hfull : (1#1 ++ @unpackMantissa Format.binary64 x.toBits.toBitVec).toNat =
      2 ^ 52 + fraction x := by
    rw [BitVec.toNat_append, ← Nat.shiftLeft_add_eq_or_of_lt (BitVec.isLt _),
      toNat_unpackMantissa]
    rfl
  have hsign (m : Nat) : (((if isNegative x then Sign.negative else .positive).apply m : Int) : ℚ) =
      (if isNegative x then -1 else 1) * m := by
    cases isNegative x <;> simp [Sign.apply]
  have hmodel : x.toModel.unpack = UnpackedFloat.unpack Format.binary64 x.toBits.toBitVec := rfl
  rw [value?, hmodel, UnpackedFloat.unpack]
  simp only [unpackSign_eq, hones, hzeros, hnone]
  by_cases hspecial : field x = 2047
  · rw [if_pos hspecial, if_pos hspecial]
    by_cases hfraction : fraction x = 0
    · rw [if_pos hfraction]
    · rw [if_neg hfraction]
  · rw [if_neg hspecial, if_neg hspecial]
    rw [magnitude, significand, scale]
    by_cases hfield : field x = 0
    · simp only [if_pos hfield]
      by_cases hfraction : fraction x = 0
      · rw [dif_pos hfraction, hfraction]
        simp
      · rw [dif_neg hfraction]
        simp only [hsign, toNat_unpackMantissa, toNat_unpackExponent, hfield, mul_assoc]
        rfl
    · simp only [if_neg hfield]
      simp only [hsign, hfull, toNat_unpackExponent, mul_assoc]
      rfl

theorem isFinite_iff {x : Float} : x.isFinite = true ↔ field x ≠ 2047 := by
  have hfinite : x.isFinite = true ↔ (value? x).isSome = true := by
    change x.toModel.unpack.isFinite = true ↔ _
    rw [value?]
    cases x.toModel.unpack <;> simp [UnpackedFloat.isFinite]
  rw [hfinite, value?_eq]
  split <;> simp_all

/-! ## Magnitudes -/

/-- The magnitudes of finite values: 53 bits times a power of two within its range. -/
def IsMagnitude (a : ℚ) : Prop :=
  ∃ (m : Nat) (e : Int), m < 2 ^ 53 ∧ -1074 ≤ e ∧ e ≤ 971 ∧ a = m * 2 ^ e

/-- The one pair for a magnitude whose significand has 53 bits, or as many as the least exponent
leaves. -/
structure IsCanonical (m : Nat) (e : Int) : Prop where
  lt : m < 2 ^ 53
  bottom : -1074 ≤ e
  top : e ≤ 971
  full : -1074 < e → 2 ^ 52 ≤ m

variable {m m' : Nat} {e e' : Int}

theorem IsCanonical.isMagnitude (h : IsCanonical m e) : IsMagnitude (m * 2 ^ e) :=
  ⟨m, e, h.lt, h.bottom, h.top, rfl⟩

theorem isCanonical_of_isFinite {x : Float} (h : x.isFinite = true) :
    IsCanonical (significand x) (scale x) := by
  have hspecial := isFinite_iff.mp h
  have hfield := field_lt x
  have hfraction := fraction_lt x
  rw [significand, scale]
  split
  · exact ⟨by omega, by omega, by omega, by omega⟩
  · exact ⟨by omega, by omega, by omega, by omega⟩

theorem exists_shift (hle : e ≤ e') (m : Nat) :
    ∃ k : Nat, e' = e + k ∧ (m * 2 ^ e' : ℚ) = (m * 2 ^ k : Nat) * 2 ^ e := by
  obtain ⟨k, rfl⟩ := Int.exists_add_of_le hle
  refine ⟨k, rfl, ?_⟩
  rw [zpow_add₀ (by norm_num), zpow_natCast]
  push_cast
  ring

theorem IsCanonical.unique (h : IsCanonical m e) (h' : IsCanonical m' e')
    (heq : (m * 2 ^ e : ℚ) = m' * 2 ^ e') : m = m' ∧ e = e' := by
  wlog hle : e ≤ e' generalizing m m' e e'
  · obtain ⟨hm, he⟩ := this h' h heq.symm (le_of_not_ge hle)
    exact ⟨hm.symm, he.symm⟩
  obtain ⟨k, rfl, hshift⟩ := exists_shift hle m'
  rw [hshift] at heq
  have hm : m = m' * 2 ^ k := by exact_mod_cast mul_right_cancel₀ (by positivity) heq
  cases k with
  | zero => simpa using hm
  | succ k =>
      -- the larger exponent leaves no room for its full significand
      have hbottom := h.bottom
      have hfull : 2 ^ 52 ≤ m' := h'.full (by omega)
      have hlt := h.lt
      have hpow : 2 ≤ 2 ^ (k + 1) := Nat.le_self_pow (by omega) 2
      have hge : 2 ^ 52 * 2 ≤ m' * 2 ^ (k + 1) := Nat.mul_le_mul hfull hpow
      omega

/-- The distance from a magnitude to the next one below, in units of its last place: half a unit
below a power of two. -/
def gapBelow (m : Nat) (e : Int) : ℚ :=
  if m = 2 ^ 52 ∧ -1074 < e then 1 / 2 else 1

theorem gapBelow_pos (m : Nat) (e : Int) : 0 < gapBelow m e := by
  rw [gapBelow]
  split <;> norm_num

theorem gapBelow_le (m : Nat) (e : Int) : gapBelow m e ≤ 1 := by
  rw [gapBelow]
  split <;> norm_num

/-- Another magnitude is at least one unit above, or one gap below. -/
theorem IsCanonical.apart (h : IsCanonical m e) {b : ℚ} (hb : IsMagnitude b) :
    b = m * 2 ^ e ∨ (m + 1) * 2 ^ e ≤ b ∨ b ≤ (m - gapBelow m e) * 2 ^ e := by
  obtain ⟨m', e', hlt, hbottom, htop, rfl⟩ := hb
  have hunit : (0 : ℚ) < 2 ^ e := by positivity
  rcases le_or_gt e e' with hle | hgt
  · obtain ⟨k, rfl, hshift⟩ := exists_shift hle m'
    rw [hshift]
    rcases lt_trichotomy (m' * 2 ^ k) m with hless | heq | hmore
    · have hcast : ((m' * 2 ^ k : Nat) : ℚ) ≤ m - gapBelow m e := by
        have hstep : ((m' * 2 ^ k : Nat) : ℚ) + 1 ≤ m := by exact_mod_cast hless
        linarith [gapBelow_le m e]
      exact .inr (.inr (mul_le_mul_of_nonneg_right hcast hunit.le))
    · exact .inl (by rw [heq])
    · have hcast : (m : ℚ) + 1 ≤ (m' * 2 ^ k : Nat) := by exact_mod_cast hmore
      exact .inr (.inl (mul_le_mul_of_nonneg_right hcast hunit.le))
  · -- a smaller exponent holds nothing from half a unit below the least full significand on
    have hfull : 2 ^ 52 ≤ m := h.full (by omega)
    have hbelow : (2 ^ 52 - 1 / 2 : ℚ) ≤ m - gapBelow m e := by
      rw [gapBelow]
      split
      · rename_i hpower
        rw [hpower.1]
        norm_num
      · have hmore : 2 ^ 52 + 1 ≤ m := by omega
        have hcast : ((2 ^ 52 + 1 : Nat) : ℚ) ≤ m := by exact_mod_cast hmore
        push_cast at hcast
        linarith
    have hscale : (2 : ℚ) ^ e' ≤ 2 ^ e / 2 := by
      have hhalf : (2 : ℚ) ^ e / 2 = 2 ^ (e - 1) := by
        rw [zpow_sub_one₀ (by norm_num), div_eq_mul_inv]
      rw [hhalf]
      exact zpow_le_zpow_right₀ (by norm_num) (by omega)
    have hm' : (m' : ℚ) ≤ 2 ^ 53 - 1 := by
      have hstep : ((m' + 1 : Nat) : ℚ) ≤ (2 ^ 53 : Nat) := by exact_mod_cast hlt
      push_cast at hstep
      linarith
    refine .inr (.inr ?_)
    calc (m' * 2 ^ e' : ℚ) ≤ (2 ^ 53 - 1) * (2 ^ e / 2) :=
          mul_le_mul hm' hscale (by positivity) (by norm_num)
      _ = (2 ^ 52 - 1 / 2) * 2 ^ e := by ring
      _ ≤ (m - gapBelow m e) * 2 ^ e := mul_le_mul_of_nonneg_right hbelow hunit.le

/-! ## Rounding -/

/-- `x` is what a number with a sign and a magnitude rounds to: nearest among the finite values,
from two equally near ones the one with an even significand.  From half a unit above the greatest
magnitude on, a number rounds to infinity. -/
structure Rounds (negative : Bool) (q : ℚ) (x : Float) : Prop where
  finite : x.isFinite = true
  sign : isNegative x = negative
  nearest : ∀ b, IsMagnitude b → |q - magnitude x| ≤ |q - b|
  even : ∀ b, IsMagnitude b → b ≠ magnitude x → |q - b| = |q - magnitude x| →
    significand x % 2 = 0
  inRange : q < (2 ^ 53 - 1 / 2) * 2 ^ (971 : ℤ)

/-- The interval of the numbers that round to a value; its ends belong to an even significand. -/
structure Around (m : Nat) (e : Int) (q : ℚ) : Prop where
  low : (m - gapBelow m e / 2) * 2 ^ e ≤ q
  high : q ≤ (m + 1 / 2) * 2 ^ e
  inside : m % 2 ≠ 0 → (m - gapBelow m e / 2) * 2 ^ e < q ∧ q < (m + 1 / 2) * 2 ^ e

theorem IsCanonical.lt_overflow (h : IsCanonical m e) {q : ℚ} (hq : Around m e q) :
    q < (2 ^ 53 - 1 / 2) * 2 ^ (971 : ℤ) := by
  have hlt := h.lt
  have hscale : (2 : ℚ) ^ e ≤ 2 ^ (971 : ℤ) := zpow_le_zpow_right₀ one_le_two h.top
  have htop : (0 : ℚ) < 2 ^ (971 : ℤ) := by positivity
  generalize (2 : ℚ) ^ (971 : ℤ) = top at hscale htop ⊢
  have hbound {c : Nat} (hc : m ≤ c) : (m + 1 / 2 : ℚ) * 2 ^ e ≤ (c + 1 / 2) * top := by
    have hcast : (m : ℚ) ≤ c := by exact_mod_cast hc
    exact mul_le_mul (by linarith) hscale (by positivity) (by positivity)
  by_cases heven : m % 2 = 0
  · calc q ≤ (m + 1 / 2) * 2 ^ e := hq.high
      _ ≤ ((2 ^ 53 - 2 : Nat) + 1 / 2) * top := hbound (by omega)
      _ < (2 ^ 53 - 1 / 2) * top := mul_lt_mul_of_pos_right (by norm_num) htop
  · calc q < (m + 1 / 2) * 2 ^ e := (hq.inside heven).2
      _ ≤ ((2 ^ 53 - 1 : Nat) + 1 / 2) * top := hbound (by omega)
      _ = (2 ^ 53 - 1 / 2) * top := by norm_num

/-- What lies around a finite value rounds to it. -/
theorem rounds_of_around {x : Float} (hfinite : x.isFinite = true) {q : ℚ}
    (hq : Around (significand x) (scale x) q) : Rounds (isNegative x) q x := by
  have hcanonical := isCanonical_of_isFinite hfinite
  have hoverflow := hcanonical.lt_overflow hq
  have hunit : (0 : ℚ) < 2 ^ scale x := by positivity
  have hgap : 0 < gapBelow (significand x) (scale x) * 2 ^ scale x :=
    mul_pos (gapBelow_pos _ _) hunit
  obtain ⟨hlow, hhigh, hinside⟩ := hq
  rw [sub_mul, div_mul_eq_mul_div, ← magnitude] at hlow hinside
  rw [add_mul, ← magnitude] at hhigh hinside
  refine ⟨hfinite, rfl, fun b hb => ?_, fun b hb hne htie => ?_, hoverflow⟩
  · have hapart := hcanonical.apart hb
    rw [add_mul, sub_mul, one_mul, ← magnitude] at hapart
    rcases hapart with rfl | habove | hbelow
    · exact le_rfl
    · rw [abs_sub_comm q b, abs_of_nonneg (show 0 ≤ b - q by linarith), abs_le]
      constructor <;> linarith
    · rw [abs_of_nonneg (show 0 ≤ q - b by linarith), abs_le]
      constructor <;> linarith
  · by_contra hodd
    obtain ⟨hstrictLow, hstrictHigh⟩ := hinside hodd
    have hapart := hcanonical.apart hb
    rw [add_mul, sub_mul, one_mul, ← magnitude] at hapart
    rcases hapart with rfl | habove | hbelow
    · exact hne rfl
    · rw [abs_sub_comm q b, abs_of_nonneg (show 0 ≤ b - q by linarith)] at htie
      rcases abs_cases (q - magnitude x) with ⟨habs, -⟩ | ⟨habs, -⟩ <;> linarith
    · rw [abs_of_nonneg (show 0 ≤ q - b by linarith)] at htie
      rcases abs_cases (q - magnitude x) with ⟨habs, -⟩ | ⟨habs, -⟩ <;> linarith

/-- A value is determined by its sign, its significand and its exponent. -/
theorem eq_of_parts {x y : Float} (hsign : isNegative x = isNegative y)
    (hsignificand : significand x = significand y) (hscale : scale x = scale y) :
    x = y := by
  have hfields : field x = field y ∧ fraction x = fraction y := by
    have hx := fraction_lt x
    have hy := fraction_lt y
    rw [significand, significand] at hsignificand
    rw [scale, scale] at hscale
    split at hsignificand <;> split at hsignificand <;> simp_all
    omega
  have hbits : x.toBits = y.toBits := by
    have hx := x.toBits.toNat_lt
    have hy := y.toBits.toNat_lt
    have hhigh : 2 ^ 63 ≤ x.toBits.toNat ↔ 2 ^ 63 ≤ y.toBits.toNat := by
      rw [← isNegative_iff, ← isNegative_iff, hsign]
    obtain ⟨hfield, hfraction⟩ := hfields
    rw [field, field] at hfield
    rw [fraction, fraction] at hfraction
    refine UInt64.toNat_inj.mp ?_
    omega
  obtain ⟨⟨bits, valid⟩⟩ := x
  obtain ⟨⟨bits', valid'⟩⟩ := y
  obtain rfl : bits = bits' := hbits
  rfl

theorem Rounds.magnitude_le {negative : Bool} {q : ℚ} {x y : Float} (h : Rounds negative q x)
    (h' : Rounds negative q y) : magnitude y ≤ magnitude x := by
  by_contra hlt
  rw [not_le] at hlt
  have hcanonical := isCanonical_of_isFinite h.finite
  have hcanonical' := isCanonical_of_isFinite h'.finite
  have htie : |q - magnitude y| = |q - magnitude x| :=
    le_antisymm (h'.nearest _ hcanonical.isMagnitude) (h.nearest _ hcanonical'.isMagnitude)
  have heven := h.even _ hcanonical'.isMagnitude hlt.ne' htie
  have heven' := h'.even _ hcanonical.isMagnitude hlt.ne htie.symm
  -- an even significand has a next one
  have hlt53 := hcanonical.lt
  have hnext : IsCanonical (significand x + 1) (scale x) :=
    ⟨by omega, hcanonical.bottom, hcanonical.top, fun hbottom => by
      have := hcanonical.full hbottom
      omega⟩
  have hunit : (0 : ℚ) < 2 ^ scale x := by positivity
  have hsum : magnitude x + 2 ^ scale x = (significand x + 1 : Nat) * 2 ^ scale x := by
    rw [magnitude]
    push_cast
    ring
  have hmiddle : q - magnitude x = magnitude y - q := by
    rcases abs_eq_abs.mp htie with heq | heq <;> linarith
  have habove : magnitude x + 2 ^ scale x ≤ magnitude y := by
    have hgap := mul_pos (gapBelow_pos (significand x) (scale x)) hunit
    have hapart := hcanonical.apart hcanonical'.isMagnitude
    rw [add_mul, sub_mul, one_mul, ← magnitude, ← magnitude] at hapart
    rcases hapart with heq | hle | hle <;> linarith
  rcases habove.lt_or_eq with hless | heq
  · -- the next magnitude would be nearer than both
    have hnearest := h.nearest _ hnext.isMagnitude
    rw [← hsum, abs_of_nonneg (show 0 ≤ q - magnitude x by linarith)] at hnearest
    rcases abs_cases (q - (magnitude x + 2 ^ scale x)) with ⟨habs, -⟩ | ⟨habs, -⟩ <;> linarith
  · rw [hsum] at heq
    have hodd := (hnext.unique hcanonical' heq).1
    omega

/-- **A number rounds to one value.** -/
theorem Rounds.unique {negative : Bool} {q : ℚ} {x y : Float} (h : Rounds negative q x)
    (h' : Rounds negative q y) : x = y := by
  have heq : magnitude x = magnitude y := le_antisymm (h'.magnitude_le h) (h.magnitude_le h')
  obtain ⟨hsignificand, hscale⟩ :=
    (isCanonical_of_isFinite h.finite).unique (isCanonical_of_isFinite h'.finite) heq
  exact eq_of_parts (h.sign.trans h'.sign.symm) hsignificand hscale

end SchemaCompiler.Binary64
