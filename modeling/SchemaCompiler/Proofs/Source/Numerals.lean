import SchemaCompiler.Decimal.Layout
import SchemaCompiler.Proofs.Decimal.Shortest
import SchemaCompiler.Proofs.Source.Tokens

/-!
# Numbers as they are written

The text of an integer reads as a numeral of that integer (`exists_writes_int`).  The digits of a
decimal spell a numeral of the same value in every layout (`exists_spells_magnitude`), so the text
of a finite value reads as a numeral that rounds to the value, and as a floating-point literal if
the layout keeps a point (`exists_writes_float`).
-/

namespace SchemaCompiler.Source

variable {ds fs rest : List Char}

/-! ## The digits of a number -/

/-- A text that can stand behind a literal: its end, or the end of an item or of a group. -/
def Closes (rest : List Char) : Prop :=
  ∀ c ∈ rest.head?, c ∈ [',', ')', ']', '\x7d']

theorem Closes.not_startsWithDigit (h : Closes rest) : ¬StartsWithDigit rest := by
  rintro ⟨c, hc, hdigit⟩
  have hmem := h c hc
  simp only [List.mem_cons, List.not_mem_nil, or_false] at hmem
  rcases hmem with rfl | rfl | rfl | rfl <;> cases hdigit

theorem Closes.head?_ne {c : Char} (h : Closes rest) (hc : c ∉ [',', ')', ']', '\x7d']) :
    rest.head? ≠ some c :=
  fun heq => hc (h c heq)

/-- A text that reads as a numeral, whatever closes it. -/
def Spells (cs : List Char) (n : Numeral) : Prop :=
  ∀ rest, Closes rest → readMagnitude n.negative (cs ++ rest) = some (n, rest)

variable (negative : Bool)

theorem spells_point (hne : ds ≠ []) (hds : ∀ c ∈ ds, c.isDigit = true)
    (hfs : ∀ c ∈ fs, c.isDigit = true) : Spells (ds ++ point fs) ⟨negative, ds, fs, none⟩ := by
  intro rest hrest
  rw [List.append_assoc]
  exact readMagnitude_append negative hne hds hfs hrest.not_startsWithDigit
    (hrest.head?_ne (by decide))
    (readExponent_of_ne (hrest.head?_ne (by decide)))

theorem spells_exponent (hne : ds ≠ []) (hds : ∀ c ∈ ds, c.isDigit = true)
    (hfs : ∀ c ∈ fs, c.isDigit = true) {sign : List Char} (hsign : sign ∈ [[], ['-'], ['+']])
    (n : Nat) :
    Spells (ds ++ (point fs ++ 'e' :: (sign ++ Nat.toDigits 10 n)))
      ⟨negative, ds, fs, some (if sign = ['-'] then -(n : Int) else n)⟩ := by
  intro rest hrest
  have hletter : ¬StartsWithDigit ('e' :: (sign ++ Nat.toDigits 10 n ++ rest)) := by
    rintro ⟨c, hc, hdigit⟩
    cases hc
    cases hdigit
  rw [List.append_assoc, List.append_assoc]
  exact readMagnitude_append negative hne hds hfs hletter (by simp)
    (readExponent_append hsign n hrest.not_startsWithDigit)

/-- A numeral without an exponent has as many places as digits behind the point. -/
theorem magnitude_point (ds fs : List Char) :
    (⟨negative, ds, fs, none⟩ : Numeral).magnitude =
      Nat.ofDigitChars 10 (ds ++ fs) 0 / 10 ^ fs.length := by
  rw [Numeral.magnitude, Option.getD_none, zero_sub, zpow_neg, zpow_natCast, ← div_eq_mul_inv]

section Layout

variable (layout : Layout)

theorem positional_natCast (ds : List Char) (k : Nat) :
    layout.positional ds k =
      ds ++ List.replicate k '0' ++ point (if layout.pointZero then ['0'] else []) := by
  unfold Layout.positional
  dsimp only
  rw [if_pos (by omega)]
  cases layout.pointZero <;> rfl

theorem positional_neg_of_lt {ds : List Char} {k : Nat} (hpos : 0 < k) (hlt : k < ds.length) :
    layout.positional ds (-k) =
      ds.take (ds.length - k) ++ point (ds.drop (ds.length - k)) := by
  have hcount : (- -(k : Int)).toNat = k := by omega
  have hbehind : (ds.drop (ds.length - k)).isEmpty = false := by
    rw [List.isEmpty_eq_false_iff, ← List.length_pos_iff, List.length_drop]
    omega
  unfold Layout.positional
  dsimp only
  rw [if_neg (by omega), if_pos (by omega), hcount, point, hbehind]
  rfl

theorem positional_neg_of_le {ds : List Char} {k : Nat} (hpos : 0 < ds.length)
    (hle : ds.length ≤ k) :
    layout.positional ds (-k) = '0' :: point (List.replicate (k - ds.length) '0' ++ ds) := by
  have hcount : (- -(k : Int)).toNat = k := by omega
  have hbehind : (List.replicate (k - ds.length) '0' ++ ds).isEmpty = false := by
    rw [List.isEmpty_eq_false_iff, ← List.length_pos_iff, List.length_append]
    omega
  unfold Layout.positional
  dsimp only
  rw [if_neg (by omega), if_neg (by omega), hcount, point, hbehind]
  rfl

theorem isDigit_zeros (k : Nat) : ∀ c ∈ List.replicate k '0', c.isDigit = true := by
  intro c hc
  rw [List.eq_of_mem_replicate hc]
  rfl

/-- A text without a sign spells a numeral of the value, and a floating-point one if whole numbers
end in `.0`. -/
structure SpellsValue (cs : List Char) (value : ℚ) (n : Numeral) : Prop where
  sign : n.negative = negative
  spells : Spells cs n
  value : n.magnitude = value
  isFloat : layout.pointZero = true → n.isFloat = true

variable (hds : ∀ c ∈ ds, c.isDigit = true)

include hds

theorem exists_spells_whole (hne : ds ≠ []) (k : Nat) :
    ∃ n, SpellsValue negative layout (layout.positional ds k)
      (Nat.ofDigitChars 10 ds 0 * 10 ^ k) n := by
  have hdigits : ∀ c ∈ ds ++ List.replicate k '0', c.isDigit = true :=
    fun c hc => (List.mem_append.mp hc).elim (hds c) (isDigit_zeros k c)
  refine ⟨⟨negative, ds ++ List.replicate k '0', if layout.pointZero then ['0'] else [], none⟩,
    rfl, ?_, ?_, fun hpoint => ?_⟩
  · rw [positional_natCast]
    refine spells_point negative (List.append_ne_nil_of_left_ne_nil hne _) hdigits ?_
    cases layout.pointZero
    · exact nofun
    · exact isDigit_zeros 1
  · rw [magnitude_point]
    cases layout.pointZero
    · simp [Nat.ofDigitChars_append, mul_comm]
    · simp [Nat.ofDigitChars_append, Nat.ofDigitChars_cons, mul_comm]
  · rw [hpoint]
    rfl

/-- The point is inside the digits. -/
theorem exists_spells_inside {k : Nat} (hpos : 0 < k) (hlt : k < ds.length) :
    ∃ n, SpellsValue negative layout (layout.positional ds (-k))
      (Nat.ofDigitChars 10 ds 0 / 10 ^ k) n := by
  have hsize : (ds.drop (ds.length - k)).length = k := by
    rw [List.length_drop]
    omega
  have hfront : ds.take (ds.length - k) ≠ [] := by
    rw [← List.length_pos_iff, List.length_take]
    omega
  have hbehind : ds.drop (ds.length - k) ≠ [] := by
    rw [← List.length_pos_iff, hsize]
    exact hpos
  refine ⟨⟨negative, ds.take (ds.length - k), ds.drop (ds.length - k), none⟩, rfl, ?_, ?_,
    fun _ => ?_⟩
  · rw [positional_neg_of_lt layout hpos hlt]
    exact spells_point negative hfront (fun c hc => hds c (List.mem_of_mem_take hc))
      fun c hc => hds c (List.mem_of_mem_drop hc)
  · rw [magnitude_point, List.take_append_drop, hsize]
  · simpa [Numeral.isFloat] using hbehind

/-- All the digits are behind the point. -/
theorem exists_spells_behind (hne : ds ≠ []) {k : Nat} (hle : ds.length ≤ k) :
    ∃ n, SpellsValue negative layout (layout.positional ds (-k))
      (Nat.ofDigitChars 10 ds 0 / 10 ^ k) n := by
  refine ⟨⟨negative, ['0'], List.replicate (k - ds.length) '0' ++ ds, none⟩, rfl, ?_, ?_,
    fun _ => ?_⟩
  · rw [positional_neg_of_le layout (List.length_pos_iff.mpr hne) hle]
    exact spells_point negative (List.cons_ne_nil _ _) (isDigit_zeros 1)
      fun c hc => (List.mem_append.mp hc).elim (isDigit_zeros _ c) (hds c)
  · rw [magnitude_point, List.singleton_append, Nat.ofDigitChars_cons, Nat.ofDigitChars_append,
      Nat.ofDigitChars_replicate_zero, List.length_append, List.length_replicate,
      Nat.sub_add_cancel hle]
    simp
  · simp [Numeral.isFloat, hne]

/-- The digits around a point spell a numeral of the same value. -/
theorem exists_spells_positional (hne : ds ≠ []) (exponent : Int) :
    ∃ n, SpellsValue negative layout (layout.positional ds exponent)
      (Nat.ofDigitChars 10 ds 0 * 10 ^ exponent) n := by
  rcases le_or_gt 0 exponent with hwhole | hplaces
  · obtain ⟨k, rfl⟩ := Int.eq_ofNat_of_zero_le hwhole
    rw [zpow_natCast]
    exact exists_spells_whole negative layout hds hne k
  · obtain ⟨k, rfl⟩ := Int.exists_eq_neg_ofNat hplaces.le
    rw [zpow_neg, zpow_natCast, ← div_eq_mul_inv]
    rcases lt_or_ge k ds.length with hfew | hmany
    · exact exists_spells_inside negative layout hds (by omega) hfew
    · exact exists_spells_behind negative layout hds hne hmany

/-- One digit, the others behind a point and an exponent spell a numeral of the same value. -/
theorem exists_spells_scientific (hne : ds ≠ []) (leading : Int) :
    ∃ n, SpellsValue negative layout (layout.scientific ds leading)
      (Nat.ofDigitChars 10 ds 0 * 10 ^ (leading - (ds.length - 1 : Nat))) n := by
  obtain ⟨d, ds, rfl⟩ := List.exists_cons_of_ne_nil hne
  let sign : List Char := if leading < 0 then ['-'] else if layout.exponentPlus then ['+'] else []
  have hsign : sign ∈ [[], ['-'], ['+']] := by
    simp only [sign]
    split_ifs <;> simp
  have hexponent :
      (if sign = ['-'] then -(leading.natAbs : Int) else leading.natAbs) = leading := by
    rcases lt_or_ge leading 0 with hnegative | hnonneg
    · rw [if_pos (if_pos hnegative)]
      omega
    · have hpositive : sign ≠ ['-'] := by
        simp only [sign, if_neg (not_lt.mpr hnonneg)]
        split_ifs <;> simp
      rw [if_neg hpositive]
      omega
  have htext : layout.scientific (d :: ds) leading =
      [d] ++ (point ds ++ 'e' :: (sign ++ Nat.toDigits 10 leading.natAbs)) := by
    rw [Layout.scientific]
    cases ds <;> simp [point, sign]
  refine ⟨⟨negative, [d], ds, some leading⟩, rfl, ?_, ?_, fun _ => ?_⟩
  · have hspells := spells_exponent negative (List.cons_ne_nil d [])
      (fun c hc => hds c (List.mem_singleton.mp hc ▸ List.mem_cons_self))
      (fun c hc => hds c (List.mem_cons_of_mem d hc)) hsign leading.natAbs
    rw [hexponent] at hspells
    rwa [htext]
  · rw [Numeral.magnitude]
    rfl
  · simp [Numeral.isFloat]

omit hds

/-- **The text of a decimal spells a numeral of the same value.** -/
theorem exists_spells_magnitude (d : Decimal) :
    ∃ n, SpellsValue negative layout (layout.magnitude d) d.value n := by
  have hne : Nat.toDigits 10 d.digits ≠ [] := Nat.toDigits_ne_nil
  have hds := isDigit_toDigits d.digits
  rw [Layout.magnitude, Decimal.value]
  split
  · have hspells := exists_spells_positional negative layout hds hne d.exponent
    rwa [Nat.ofDigitChars_ten_toDigits] at hspells
  · have hspells := exists_spells_scientific negative layout hds hne
      (d.exponent + (Nat.toDigits 10 d.digits).length - 1)
    have hlength := List.length_pos_iff.mpr hne
    have hexponent : d.exponent + (Nat.toDigits 10 d.digits).length - 1 -
        ((Nat.toDigits 10 d.digits).length - 1 : Nat) = d.exponent := by
      omega
    rwa [Nat.ofDigitChars_ten_toDigits, hexponent] at hspells

end Layout

/-! ## Numbers -/

theorem startsWithDigit_append {cs : List Char} (h : StartsWithDigit cs) (rest : List Char) :
    StartsWithDigit (cs ++ rest) := by
  obtain ⟨c, hc, hdigit⟩ := h
  refine ⟨c, ?_, hdigit⟩
  cases cs with
  | nil => cases hc
  | cons d cs => exact hc

theorem readNumeral_of_digit {cs : List Char} (h : StartsWithDigit cs) :
    readNumeral cs = readMagnitude false cs := by
  obtain ⟨c, hc, hdigit⟩ := h
  cases cs with
  | nil => cases hc
  | cons d cs =>
      obtain rfl : d = c := Option.some.inj hc
      rw [readNumeral]
      rintro tail h
      cases h
      cases hdigit

theorem startsWithDigit_toDigits (n : Nat) : StartsWithDigit (Nat.toDigits 10 n) := by
  obtain ⟨c, cs, hcs⟩ := List.exists_cons_of_ne_nil (Nat.toDigits_ne_nil (b := 10) (n := n))
  exact ⟨c, by rw [hcs]; rfl, isDigit_toDigits n c (hcs ▸ List.mem_cons_self)⟩

/-- A text that begins with a minus or a digit and reads as a numeral, whatever closes it. -/
structure Writes (cs : List Char) (n : Numeral) : Prop where
  starts : ∃ c ∈ cs.head?, c = '-' ∨ c.isDigit = true
  reads : ∀ rest, Closes rest → readNumeral (cs ++ rest) = some (n, rest)

theorem writes_signed {cs : List Char} {n : Numeral} (hdigit : StartsWithDigit cs)
    (h : Spells cs n) : Writes ((if n.negative then ['-'] else []) ++ cs) n := by
  cases hsign : n.negative
  · refine ⟨?_, fun rest hrest => ?_⟩
    · obtain ⟨c, hc, hdigit⟩ := hdigit
      exact ⟨c, hc, .inr hdigit⟩
    · have hread := h rest hrest
      rw [hsign] at hread
      exact (readNumeral_of_digit (startsWithDigit_append hdigit rest)).trans hread
  · refine ⟨⟨'-', rfl, .inl rfl⟩, fun rest hrest => ?_⟩
    have hread := h rest hrest
    rw [hsign] at hread
    exact hread

theorem exists_writes_int (i : Int) :
    ∃ n : Numeral, Writes (toString i).toList n ∧ n.isFloat = false ∧ n.integer = i ∧
      (n.negative = true ↔ i < 0) := by
  have htext : (toString i).toList =
      (if decide (i < 0) = true then ['-'] else []) ++ Nat.toDigits 10 i.natAbs := by
    change i.repr.toList = _
    rw [Int.repr_eq_if]
    rcases lt_or_ge i 0 with hnegative | hnonneg
    · have hsize : (-i).toNat = i.natAbs := by omega
      rw [if_neg (not_le.mpr hnegative), if_pos (decide_eq_true hnegative), hsize,
        String.toList_append, Nat.toList_repr]
      rfl
    · have hsize : i.toNat = i.natAbs := by omega
      rw [if_pos hnonneg, if_neg (by simpa using hnonneg), hsize, Nat.toList_repr]
      rfl
  have hspells : Spells (Nat.toDigits 10 i.natAbs)
      ⟨decide (i < 0), Nat.toDigits 10 i.natAbs, [], none⟩ := by
    have hpoint := spells_point (decide (i < 0)) (Nat.toDigits_ne_nil (b := 10) (n := i.natAbs))
      (isDigit_toDigits i.natAbs) (List.forall_mem_nil _)
    rwa [point, List.isEmpty_nil, if_pos rfl, List.append_nil] at hpoint
  refine ⟨_, htext ▸ writes_signed (startsWithDigit_toDigits _) hspells, rfl, ?_,
    decide_eq_true_iff⟩
  rw [Numeral.integer]
  simp only [Nat.ofDigitChars_ten_toDigits, decide_eq_true_eq]
  split <;> omega

theorem startsWithDigit_of_spells {cs : List Char} {n : Numeral} (h : Spells cs n) :
    StartsWithDigit cs := by
  have hread := h [] nofun
  rw [List.append_nil, readMagnitude] at hread
  split at hread
  · cases hread
  · rename_i hdigits
    cases cs with
    | nil => exact absurd rfl hdigits
    | cons c cs =>
        refine ⟨c, rfl, ?_⟩
        by_contra hdigit
        exact hdigits (by rw [digits, List.takeWhile_cons_of_neg hdigit]; rfl)

/-- **The text of a finite value is that of a floating-point literal that rounds to it.** -/
theorem exists_writes_float {layout : Layout} (hpoint : layout.pointZero = true) {x : Float}
    (hfinite : x.isFinite = true) :
    ∃ n : Numeral, Writes (layout.write x).toList n ∧ n.isFloat = true ∧
      Binary64.Rounds n.negative n.magnitude x := by
  obtain ⟨n, hsign, hspells, hvalue, hfloat⟩ := exists_spells_magnitude (Binary64.isNegative x)
    layout (Decimal.shortest layout.tie x)
  have htext : (layout.write x).toList =
      (if n.negative then ['-'] else []) ++
        layout.magnitude (Decimal.shortest layout.tie x) := by
    rw [Layout.write, String.toList_ofList, hsign, Binary64.isNegative]
    simp only [decide_eq_true_eq]
  refine ⟨n, htext ▸ writes_signed (startsWithDigit_of_spells hspells) hspells, hfloat hpoint, ?_⟩
  rw [hsign, hvalue]
  exact Decimal.rounds_shortest layout.tie hfinite

end SchemaCompiler.Source
