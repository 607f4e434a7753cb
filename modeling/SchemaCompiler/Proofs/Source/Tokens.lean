import Mathlib.Data.Rat.Cast.Order
import SchemaCompiler.Proofs.Text.Quoted

/-!
# Tokens of the generated language

String literals and numerals are read from the front of a text, and what stands behind them is
handed back.  A string literal may use every escape that stands for a character, of which quoting
needs some only: a quoted text reads back as the text (`readString_quoted`).  A numeral is read
from its digits before and behind a point and its exponent (`readMagnitude_append`).
-/

namespace SchemaCompiler.Source

/-! ## String literals -/

/-- A character below 128 by two hexadecimal digits. -/
def readByte : List Char → Option (Char × List Char)
  | high :: low :: rest =>
    (Text.hexNumber? [high, low]).bind fun code =>
      if code < 0x80 then some (Char.ofNat code, rest) else none
  | _ => none

/-- The character an escape stands for, from behind its backslash. -/
def readEscape : List Char → Option (Char × List Char)
  | 'u' :: rest => Text.readCodePoint rest
  | 'x' :: rest => readByte rest
  | '\'' :: rest => some ('\'', rest)
  | c :: rest => (Text.escaped? c).map (·, rest)
  | [] => none

/-- One character of a string literal.  A carriage return has to be escaped. -/
def readChar : List Char → Option (Char × List Char)
  | c :: rest =>
    if c = '\\' then readEscape rest
    else if c = '"' ∨ c = '\r' then none
    else some (c, rest)
  | [] => none

theorem length_lt_of_readChar {cs rest : List Char} {c : Char}
    (h : readChar cs = some (c, rest)) : rest.length < cs.length := by
  have hbyte {cs rest : List Char} {c : Char} (h : readByte cs = some (c, rest)) :
      rest.length < cs.length := by
    rw [readByte.eq_def] at h
    split at h
    · obtain ⟨code, -, hcode⟩ := Option.bind_eq_some_iff.mp h
      split at hcode
      · cases hcode
        exact (Nat.lt_succ_self _).trans (Nat.lt_succ_self _)
      · cases hcode
    · cases h
  have hescape {cs rest : List Char} {c : Char} (h : readEscape cs = some (c, rest)) :
      rest.length < cs.length := by
    rw [readEscape.eq_def] at h
    split at h
    · exact (Text.length_lt_of_readCodePoint h).trans (Nat.lt_succ_self _)
    · exact (hbyte h).trans (Nat.lt_succ_self _)
    · cases h
      exact Nat.lt_succ_self _
    · obtain ⟨_, -, hpair⟩ := Option.map_eq_some_iff.mp h
      cases hpair
      exact Nat.lt_succ_self _
    · cases h
  rw [readChar.eq_def] at h
  split at h
  · split at h
    · exact (hescape h).trans (Nat.lt_succ_self _)
    · split at h
      · cases h
      · cases h
        exact Nat.lt_succ_self _
  · cases h

/-- A string literal, from behind its opening quote. -/
def readString (cs : List Char) : Option (List Char × List Char) :=
  match cs with
  | '"' :: rest => some ([], rest)
  | cs =>
    match _hread : readChar cs with
    | some (c, rest) => (readString rest).map fun (text, rest) => (c :: text, rest)
    | none => none
termination_by cs.length
decreasing_by exact length_lt_of_readChar _hread

/-! ## Numerals -/

/-- The minus in front of a numeral, its digits before and behind the point, and its exponent. -/
structure Numeral where
  negative : Bool
  whole : List Char
  fraction : List Char
  exponent : Option Int
deriving Repr, DecidableEq

namespace Numeral

/-- A numeral with a point or an exponent is a floating-point literal. -/
def isFloat (n : Numeral) : Bool :=
  !n.fraction.isEmpty || n.exponent.isSome

/-- The integer that a numeral without point and exponent stands for. -/
def integer (n : Numeral) : Int :=
  let size : Int := Nat.ofDigitChars 10 n.whole 0
  if n.negative then -size else size

/-- The number that a numeral stands for, without its sign. -/
def magnitude (n : Numeral) : ℚ :=
  Nat.ofDigitChars 10 (n.whole ++ n.fraction) 0 *
    10 ^ (n.exponent.getD 0 - (n.fraction.length : Int))

end Numeral

/-- The digits that a text begins with. -/
def digits (cs : List Char) : List Char :=
  cs.takeWhile Char.isDigit

/-- The digits behind a point; there is no fraction without any. -/
def readFraction : List Char → List Char × List Char
  | '.' :: rest =>
    if (digits rest).isEmpty then ([], '.' :: rest)
    else (digits rest, rest.drop (digits rest).length)
  | cs => ([], cs)

/-- A sign, and what stands behind it. -/
def readSign : List Char → Bool × List Char
  | '-' :: rest => (true, rest)
  | '+' :: rest => (false, rest)
  | cs => (false, cs)

def readExponent : List Char → Option Int × List Char
  | 'e' :: cs =>
    let (negative, rest) := readSign cs
    if (digits rest).isEmpty then (none, 'e' :: cs)
    else
      let size : Int := Nat.ofDigitChars 10 (digits rest) 0
      (some (if negative then -size else size), rest.drop (digits rest).length)
  | cs => (none, cs)

/-- A numeral, from behind its minus. -/
def readMagnitude (negative : Bool) (cs : List Char) : Option (Numeral × List Char) :=
  if (digits cs).isEmpty then none
  else
    let (fraction, rest) := readFraction (cs.drop (digits cs).length)
    let (exponent, rest) := readExponent rest
    some (⟨negative, digits cs, fraction, exponent⟩, rest)

def readNumeral : List Char → Option (Numeral × List Char)
  | '-' :: cs => readMagnitude true cs
  | cs => readMagnitude false cs

/-! ## Reading quoted text -/

theorem readString_cons {cs rest : List Char} {c : Char} (h : readChar cs = some (c, rest)) :
    readString cs = (readString rest).map fun (text, rest) => (c :: text, rest) := by
  rw [readString.eq_def]
  split
  · cases h
  · split
    · rename_i found after hfound
      rw [h] at hfound
      cases hfound
      rfl
    · rename_i hnone
      rw [h] at hnone
      cases hnone

theorem readString_eq_none {cs : List Char} (h : readChar cs = none)
    (hquote : cs.head? ≠ some '"') :
    readString cs = none := by
  rw [readString.eq_def]
  split
  · exact absurd rfl hquote
  · split
    · rename_i hfound
      rw [h] at hfound
      cases hfound
    · rfl

/-- What a quoted text is read with is read here as well. -/
theorem readChar_of_text {cs rest : List Char} {c : Char} (h : Text.readChar cs = some (c, rest))
    (hreturn : cs.head? ≠ some '\r') : readChar cs = some (c, rest) := by
  cases cs with
  | nil => cases h
  | cons d cs =>
      rw [Text.readChar.eq_def] at h
      dsimp only at h
      rw [readChar]
      split
      · rename_i hbackslash
        rw [if_pos hbackslash] at h
        split at h
        · cases h
        · rename_i e cs
          split at h
          · rename_i hcode
            subst hcode
            exact h
          · rename_i hcode
            rw [readEscape]
            · exact h
            · exact hcode
            · rintro rfl
              cases h
            · rintro rfl
              cases h
      · rename_i hbackslash
        rw [if_neg hbackslash] at h
        split at h
        · cases h
        · rename_i hquote
          rw [if_neg (not_or.mpr ⟨hquote, fun heq => hreturn (congrArg some heq)⟩)]
          exact h

theorem head?_quoteChar_append (c : Char) (rest : List Char) :
    (Text.quoteChar c ++ rest).head? ≠ some '\r' := by
  by_cases hreturn : c = '\r'
  · subst hreturn
    exact fun h => absurd (Option.some.inj h) (by decide)
  · have hquoted : Text.quoteChar c = [c] ∨ ∃ tail, Text.quoteChar c = '\\' :: tail := by
      unfold Text.quoteChar
      split_ifs <;> first | exact .inl rfl | exact .inr ⟨_, rfl⟩
    rcases hquoted with heq | ⟨tail, heq⟩
    · rw [heq]
      exact fun h => hreturn (Option.some.inj h)
    · rw [heq]
      exact fun h => absurd (Option.some.inj h) (by decide)

theorem readString_quoted (text rest : List Char) :
    readString (text.flatMap Text.quoteChar ++ '"' :: rest) = some (text, rest) := by
  induction text with
  | nil =>
      rw [List.flatMap_nil, List.nil_append, readString]
  | cons c text ih =>
      have hreturn := head?_quoteChar_append c (text.flatMap Text.quoteChar ++ '"' :: rest)
      rw [List.flatMap_cons, List.append_assoc,
        readString_cons (readChar_of_text (Text.readChar_quoteChar c _) hreturn), ih]
      rfl

/-! ## Reading digits -/

def StartsWithDigit (cs : List Char) : Prop :=
  ∃ c ∈ cs.head?, c.isDigit = true

theorem digits_append {ds rest : List Char} (hds : ∀ c ∈ ds, c.isDigit = true)
    (hrest : ¬StartsWithDigit rest) : digits (ds ++ rest) = ds := by
  have hnone : rest.takeWhile Char.isDigit = [] := by
    cases rest with
    | nil => rfl
    | cons c rest => exact List.takeWhile_cons_of_neg fun h => hrest ⟨c, rfl, h⟩
  rw [digits, List.takeWhile_append_of_pos hds, hnone, List.append_nil]

/-- A fraction behind its point, if there is one. -/
def point (fraction : List Char) : List Char :=
  if fraction.isEmpty then [] else '.' :: fraction

variable {ds fs rest : List Char}

theorem readFraction_of_ne (h : rest.head? ≠ some '.') : readFraction rest = ([], rest) := by
  rw [readFraction.eq_def]
  split
  · exact absurd rfl h
  · rfl

theorem readFraction_point (hfs : ∀ c ∈ fs, c.isDigit = true) (hrest : ¬StartsWithDigit rest)
    (hpoint : rest.head? ≠ some '.') : readFraction (point fs ++ rest) = (fs, rest) := by
  cases fs with
  | nil => exact readFraction_of_ne hpoint
  | cons f fs =>
      change readFraction ('.' :: (f :: fs ++ rest)) = _
      rw [readFraction, digits_append hfs hrest, List.drop_left]
      rfl

theorem readExponent_of_ne (h : rest.head? ≠ some 'e') : readExponent rest = (none, rest) := by
  rw [readExponent.eq_def]
  split
  · exact absurd rfl h
  · rfl

theorem readMagnitude_append (negative : Bool) {tail : List Char} {exponent : Option Int}
    (hne : ds ≠ [])
    (hds : ∀ c ∈ ds, c.isDigit = true) (hfs : ∀ c ∈ fs, c.isDigit = true)
    (hdigit : ¬StartsWithDigit tail) (hpoint : tail.head? ≠ some '.')
    (hexponent : readExponent tail = (exponent, rest)) :
    readMagnitude negative (ds ++ (point fs ++ tail)) =
      some (⟨negative, ds, fs, exponent⟩, rest) := by
  have hbehind : ¬StartsWithDigit (point fs ++ tail) := by
    cases fs with
    | nil => exact hdigit
    | cons f fs =>
        rintro ⟨c, hc, hdot⟩
        obtain rfl : '.' = c := Option.some.inj hc
        cases hdot
  rw [readMagnitude, digits_append hds hbehind, if_neg (by simpa using hne), List.drop_left,
    readFraction_point hfs hdigit hpoint]
  dsimp only
  rw [hexponent]

theorem isDigit_toDigits (n : Nat) : ∀ c ∈ Nat.toDigits 10 n, c.isDigit = true :=
  fun _ hc => Nat.isDigit_of_mem_toDigits (by decide) (by decide) hc

theorem readExponent_append {sign : List Char} (hsign : sign ∈ [[], ['-'], ['+']]) (n : Nat)
    (hrest : ¬StartsWithDigit rest) :
    readExponent ('e' :: (sign ++ Nat.toDigits 10 n ++ rest)) =
      (some (if sign = ['-'] then -(n : Int) else n), rest) := by
  have hdigits : digits (Nat.toDigits 10 n ++ rest) = Nat.toDigits 10 n :=
    digits_append (isDigit_toDigits n) hrest
  have hread : readSign (sign ++ Nat.toDigits 10 n ++ rest) =
      (decide (sign = ['-']), Nat.toDigits 10 n ++ rest) := by
    simp only [List.mem_cons, List.not_mem_nil, or_false] at hsign
    rcases hsign with rfl | rfl | rfl
    · obtain ⟨c, cs, hcs⟩ := List.exists_cons_of_ne_nil (Nat.toDigits_ne_nil (b := 10) (n := n))
      have hdigit : c.isDigit = true := isDigit_toDigits n c (hcs ▸ List.mem_cons_self)
      rw [List.nil_append, hcs, List.cons_append, readSign]
      · rfl
      · intro tail h
        cases h
        cases hdigit
      · intro tail h
        cases h
        cases hdigit
    · rfl
    · rfl
  have hne : (Nat.toDigits 10 n).isEmpty = false :=
    List.isEmpty_eq_false_iff.mpr Nat.toDigits_ne_nil
  rw [readExponent, hread]
  simp only [hdigits, hne, Nat.ofDigitChars_ten_toDigits, List.drop_left, decide_eq_true_eq]
  simp

end SchemaCompiler.Source
