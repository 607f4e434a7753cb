import SchemaCompiler.Proofs.Decimal.Rounding

/-!
# Shortest decimals read back

The search takes a decimal only if it lies in the neighbourhood of the value, which is the interval
of the numbers that round to it (`around_of_readsBack`).  Whichever grid yields one, and also where
none does, the decimal that stands for a finite value rounds to the value (`rounds_shortest`).
-/

namespace SchemaCompiler

namespace Decimal

open Binary64

/-- The number that a decimal stands for. -/
def value (d : Decimal) : ℚ :=
  d.digits * 10 ^ d.exponent

theorem zpow_eq_div {base : ℚ} (hbase : base ≠ 0) (e : Int) :
    base ^ e = base ^ e.toNat / base ^ (-e).toNat := by
  rw [← zpow_natCast, ← zpow_natCast, ← zpow_sub₀ hbase]
  congr 1
  omega

/-! ## The neighbourhood of a value -/

namespace Neighbourhood

theorem compare_natCast_div (a b : Nat) {d : ℚ} (hd : 0 < d) :
    compare a b = compare ((a : ℚ) / d) (b / d) := by
  rcases lt_trichotomy a b with hlt | rfl | hgt
  · rw [compare_lt_iff_lt.mpr hlt, compare_lt_iff_lt.mpr]
    exact div_lt_div_of_pos_right (by exact_mod_cast hlt) hd
  · rw [compare_eq_iff_eq.mpr rfl, compare_eq_iff_eq.mpr rfl]
  · rw [compare_gt_iff_gt.mpr hgt, compare_gt_iff_gt.mpr]
    exact div_lt_div_of_pos_right (by exact_mod_cast hgt) hd

/-- Cross multiplication compares `a * 10 ^ e` with `n / unit`. -/
theorem compareScaled_eq {x : Neighbourhood} (hunit : 0 < x.unit) (a : Nat) (e : Int) (n : Nat) :
    x.compareScaled a e n = compare ((a : ℚ) * 10 ^ e) (n / x.unit) := by
  have hunit' : (0 : ℚ) < x.unit := by exact_mod_cast hunit
  have hdown : (0 : ℚ) < 10 ^ (-e).toNat := by positivity
  have hleft : ((a * Nat.pow 10 e.toNat * x.unit : Nat) : ℚ) / (10 ^ (-e).toNat * x.unit) =
      a * 10 ^ e := by
    rw [zpow_eq_div (by norm_num) e, Nat.pow_eq]
    push_cast
    field_simp
  have hright : ((n * Nat.pow 10 (-e).toNat : Nat) : ℚ) / (10 ^ (-e).toNat * x.unit) =
      n / x.unit := by
    rw [Nat.pow_eq]
    push_cast
    field_simp
  rw [compareScaled, compare_natCast_div _ _ (mul_pos hdown hunit'), hleft, hright]

theorem readsBack_iff {x : Neighbourhood} (hunit : 0 < x.unit) {a : Nat} {e : Int} :
    x.readsBack a e = true ↔
      ((x.low / x.unit : ℚ) < a * 10 ^ e ∨ x.closed = true ∧ (x.low / x.unit : ℚ) = a * 10 ^ e) ∧
      ((a * 10 ^ e : ℚ) < x.high / x.unit ∨
        x.closed = true ∧ (a * 10 ^ e : ℚ) = x.high / x.unit) := by
  rw [readsBack, Bool.and_eq_true, compareScaled_eq hunit, compareScaled_eq hunit]
  refine and_congr ?_ ?_
  · rcases lt_trichotomy ((a : ℚ) * 10 ^ e) (x.low / x.unit) with hlt | heq | hgt
    · rw [compare_lt_iff_lt.mpr hlt]
      simp [hlt.not_gt, hlt.ne']
    · rw [compare_eq_iff_eq.mpr heq]
      simp [heq]
    · rw [compare_gt_iff_gt.mpr hgt]
      simp [hgt]
  · rcases lt_trichotomy ((a : ℚ) * 10 ^ e) (x.high / x.unit) with hlt | heq | hgt
    · rw [compare_lt_iff_lt.mpr hlt]
      simp [hlt]
    · rw [compare_eq_iff_eq.mpr heq]
      simp [heq]
    · rw [compare_gt_iff_gt.mpr hgt]
      simp [hgt.not_gt, hgt.ne']

/-- The neighbourhood of a finite value, by its significand and its exponent. -/
theorem ofBits_eq (x : Float) :
    ofBits x.toBits = ofBinary (significand x) (scale x)
      (decide (significand x = 2 ^ 52 ∧ -1074 < scale x)) := by
  have hbiased : ((x.toBits >>> 52) &&& 0x7FF).toNat = field x := by
    rw [UInt64.toNat_and, UInt64.toNat_shiftRight]
    change (x.toBits.toNat >>> 52) &&& (2 ^ 11 - 1) = _
    rw [Nat.and_two_pow_sub_one_eq_mod, Nat.shiftRight_eq_div_pow, field]
  have hfraction : (x.toBits &&& 0xFFFFFFFFFFFFF).toNat = fraction x := by
    rw [UInt64.toNat_and]
    change x.toBits.toNat &&& (2 ^ 52 - 1) = _
    rw [Nat.and_two_pow_sub_one_eq_mod, fraction]
  have hlt := fraction_lt x
  rw [ofBits]
  simp only [hbiased, hfraction, significand, scale]
  split
  · congr 1
    rw [eq_comm, decide_eq_false_iff_not]
    omega
  · congr 1
    rw [Bool.eq_iff_iff, Bool.and_eq_true, beq_iff_eq, decide_eq_true_eq, decide_eq_true_eq]
    omega

section Binary

variable {m : Nat} {e : Int} {narrow : Bool}

theorem unit_pos (m : Nat) (e : Int) (narrow : Bool) : 0 < (ofBinary m e narrow).unit :=
  Nat.mul_pos (by decide) (Nat.pow_pos (by decide))

/-- Scaled to its unit, a quarter of `4 * m` is `m`. -/
theorem scaled_div_unit (n : Nat) (m : Nat) (e : Int) (narrow : Bool) :
    ((n * Nat.pow 2 e.toNat : Nat) : ℚ) / (ofBinary m e narrow).unit = n / 4 * 2 ^ e := by
  rw [ofBinary, zpow_eq_div (by norm_num) e, Nat.pow_eq, Nat.pow_eq]
  push_cast
  ring

theorem mid_div_unit :
    ((ofBinary m e narrow).mid : ℚ) / (ofBinary m e narrow).unit = m * 2 ^ e := by
  refine (scaled_div_unit (4 * m) m e narrow).trans ?_
  push_cast
  ring

theorem high_div_unit :
    ((ofBinary m e narrow).high : ℚ) / (ofBinary m e narrow).unit = (m + 1 / 2) * 2 ^ e := by
  refine (scaled_div_unit (4 * m + 2) m e narrow).trans ?_
  push_cast
  ring

theorem low_div_unit (hpos : 0 < m) :
    ((ofBinary m e (decide (m = 2 ^ 52 ∧ -1074 < e))).low : ℚ) /
      (ofBinary m e (decide (m = 2 ^ 52 ∧ -1074 < e))).unit =
        (m - gapBelow m e / 2) * 2 ^ e := by
  refine (scaled_div_unit _ m e _).trans ?_
  rw [gapBelow]
  by_cases hnarrow : m = 2 ^ 52 ∧ -1074 < e
  · rw [if_pos hnarrow, if_pos (decide_eq_true hnarrow), Nat.cast_sub (by omega)]
    push_cast
    ring
  · rw [if_neg hnarrow, if_neg (by simpa using hnarrow), Nat.cast_sub (by omega)]
    push_cast
    ring

end Binary

/-- What reads back as a positive value lies around it. -/
theorem around_of_readsBack {x : Float} (hpos : 0 < significand x) {a : Nat} {e : Int}
    (h : (ofBits x.toBits).readsBack a e = true) :
    Around (significand x) (scale x) (a * 10 ^ e) := by
  rw [ofBits_eq, readsBack_iff (unit_pos _ _ _), low_div_unit hpos, high_div_unit] at h
  have hclosed : (ofBinary (significand x) (scale x)
      (decide (significand x = 2 ^ 52 ∧ -1074 < scale x))).closed = true ↔
        significand x % 2 = 0 := by
    rw [ofBinary, beq_iff_eq]
  rw [hclosed] at h
  obtain ⟨hlow, hhigh⟩ := h
  refine ⟨hlow.elim le_of_lt fun h => h.2.le, hhigh.elim le_of_lt fun h => h.2.le,
    fun hodd => ⟨hlow.resolve_right fun h => hodd h.1, hhigh.resolve_right fun h => hodd h.1⟩⟩

/-- A grid yields a decimal on it only if that decimal reads back. -/
theorem readsBack_of_onGrid {x : Neighbourhood} {tie : Tie} {e : Int} {d : Decimal}
    (h : x.onGrid tie e = some d) : x.readsBack d.digits d.exponent = true := by
  unfold onGrid at h
  dsimp only at h
  split at h
  · cases h
  · rename_i hbelow _
    cases h
    exact hbelow
  · rename_i _ habove
    cases h
    exact habove
  · rename_i hbelow habove
    split at h
    · cases h
      exact hbelow
    · cases h
      exact habove
    · split at h
      · cases h
        exact habove
      · cases h
        dsimp only
        split
        · exact hbelow
        · exact habove

end Neighbourhood

/-! ## The decimal of a value -/

theorem value_stripZeros (n : Nat) (d : Decimal) : (stripZeros n d).value = d.value := by
  induction n generalizing d with
  | zero => rfl
  | succ n ih =>
      rw [stripZeros]
      split
      · rename_i hzero
        rw [ih]
        have hdigits : d.digits = d.digits / 10 * 10 := by omega
        simp only [value]
        rw [zpow_add_one₀ (by norm_num)]
        nth_rewrite 2 [hdigits]
        push_cast
        ring
      · rfl

/-- With enough decimal places, a value is written exactly. -/
theorem exact_value {m : Nat} {e : Int} {narrow : Bool} {places : Nat} (h : (-e).toNat ≤ places) :
    value ⟨(Neighbourhood.ofBinary m e narrow).mid * Nat.pow 10 places /
      (Neighbourhood.ofBinary m e narrow).unit, -places⟩ = m * 2 ^ e := by
  have hdvd : (Neighbourhood.ofBinary m e narrow).unit ∣
      (Neighbourhood.ofBinary m e narrow).mid * Nat.pow 10 places := by
    have hpow : Nat.pow 2 (-e).toNat ∣ Nat.pow 10 places :=
      (Nat.pow_dvd_pow 2 h).trans (pow_dvd_pow_of_dvd (by decide) places)
    have hfour : 4 ∣ 4 * m * Nat.pow 2 e.toNat :=
      ⟨m * Nat.pow 2 e.toNat, Nat.mul_assoc _ _ _⟩
    exact Nat.mul_dvd_mul hfour hpow
  have hunit := Neighbourhood.unit_pos m e narrow
  have hscale : (10 : ℚ) ^ places ≠ 0 := by positivity
  rw [value, Nat.cast_div hdvd (by exact_mod_cast hunit.ne'), zpow_neg, zpow_natCast,
    ← @Neighbourhood.mid_div_unit m e narrow, Nat.pow_eq]
  push_cast
  field_simp

theorem around_self (m : Nat) (e : Int) : Around m e (m * 2 ^ e) := by
  have hunit : (0 : ℚ) < 2 ^ e := by positivity
  have hgap := gapBelow_pos m e
  have hlow : (m - gapBelow m e / 2) * 2 ^ e < m * 2 ^ e :=
    mul_lt_mul_of_pos_right (by linarith) hunit
  have hhigh : (m : ℚ) * 2 ^ e < (m + 1 / 2) * 2 ^ e :=
    mul_lt_mul_of_pos_right (by linarith) hunit
  exact ⟨hlow.le, hhigh.le, fun _ => ⟨hlow, hhigh⟩⟩

theorem around_shortest (tie : Tie) {x : Float} (hfinite : x.isFinite = true) :
    Around (significand x) (scale x) (shortest tie x).value := by
  have hself := around_self (significand x) (scale x)
  have hbottom := (isCanonical_of_isFinite hfinite).bottom
  rw [shortest]
  dsimp only
  split
  · rename_i hmid
    have hzero : significand x = 0 := by
      rw [Neighbourhood.ofBits_eq, Neighbourhood.ofBinary] at hmid
      have hscale := Nat.pow_pos (n := (scale x).toNat) (show 0 < 2 by decide)
      rcases Nat.mul_eq_zero.mp hmid with h | h
      · omega
      · exact absurd h hscale.ne'
    have hvalue : value ⟨0, 0⟩ = significand x * 2 ^ scale x := by
      rw [hzero, value]
      simp
    rwa [hvalue]
  · rename_i hmid
    have hpos : 0 < significand x := by
      refine Nat.pos_of_ne_zero fun hzero => hmid ?_
      rw [Neighbourhood.ofBits_eq, hzero, Neighbourhood.ofBinary]
      simp
    split
    · rename_i d hfound
      obtain ⟨n, -, hgrid⟩ := List.exists_of_findSome?_eq_some hfound
      rw [value_stripZeros]
      exact Neighbourhood.around_of_readsBack hpos (Neighbourhood.readsBack_of_onGrid hgrid)
    · have hplaces : (-scale x).toNat ≤ 1100 := by omega
      rw [value_stripZeros, Neighbourhood.ofBits_eq,
        show (-1100 : Int) = -((1100 : Nat) : Int) from rfl]
      generalize (1100 : Nat) = places at hplaces ⊢
      rw [exact_value hplaces]
      exact hself

/-- **The decimal that stands for a finite value rounds to it.** -/
theorem rounds_shortest (tie : Tie) {x : Float} (hfinite : x.isFinite = true) :
    Rounds (isNegative x) (shortest tie x).value x :=
  rounds_of_around hfinite (around_shortest tie hfinite)

end Decimal

end SchemaCompiler
