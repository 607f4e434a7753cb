import Mathlib.Data.List.Basic
import SchemaCompiler.Text.Quoted

/-!
# Reading quoted text

A string literal is read character by character: an escape stands for one character, an escape by
number for the character with that code point, and any other character but the quote for itself.
What `quote` writes is a literal that stands for the text it was given (`unquote?_quote`).
-/

namespace SchemaCompiler.Text

/-! ## Hexadecimal digits -/

def hexValue? (c : Char) : Option Nat :=
  if '0' ≤ c ∧ c ≤ '9' then some (c.toNat - '0'.toNat)
  else if 'a' ≤ c ∧ c ≤ 'f' then some (c.toNat - 'a'.toNat + 10)
  else if 'A' ≤ c ∧ c ≤ 'F' then some (c.toNat - 'A'.toNat + 10)
  else none

def hexNumber? (digits : List Char) : Option Nat :=
  digits.foldlM (fun n c => (hexValue? c).map (16 * n + ·)) 0

theorem hexValue?_digitChar {d : Nat} (h : d < 16) : hexValue? d.digitChar = some d := by
  have hall : ∀ d < 16, hexValue? (Nat.digitChar d) = some d := by decide
  exact hall d h

/-- Reading hexadecimal digits undoes writing them. -/
theorem hexNumber?_hexDigits (n : Nat) : hexNumber? (hexDigits n) = some n := by
  induction n using Nat.strongRecOn with
  | _ n ih =>
      by_cases hsmall : n < 16
      · rw [hexDigits, Nat.toDigits_of_lt_base hsmall, hexNumber?, List.foldlM_cons,
          hexValue?_digitChar hsmall]
        simp
      · have hquotient : hexNumber? (hexDigits (n / 16)) = some (n / 16) := ih (n / 16) (by omega)
        rw [hexNumber?] at hquotient ⊢
        rw [hexDigits, Nat.toDigits_of_base_le (by decide) (by omega), List.foldlM_append,
          ← hexDigits, hquotient, Option.bind_eq_bind, Option.bind_some, List.foldlM_cons,
          hexValue?_digitChar (Nat.mod_lt n (by decide))]
        simp [Nat.div_add_mod]

theorem brace_notMem_of_hexNumber? {digits : List Char} {n : Nat}
    (h : hexNumber? digits = some n) : '\x7d' ∉ digits := by
  intro hmem
  obtain ⟨front, back, rfl⟩ := List.append_of_mem hmem
  have hbrace : hexValue? '\x7d' = none := by decide
  rw [hexNumber?, List.foldlM_append] at h
  obtain ⟨code, -, h⟩ := Option.bind_eq_some_iff.mp h
  rw [List.foldlM_cons, hbrace] at h
  cases h

/-! ## Literals -/

/-- The character with the code point between two braces, and what follows. -/
def readCodePoint : List Char → Option (Char × List Char)
  | '\x7b' :: cs =>
    let digits := cs.takeWhile (· ≠ '\x7d')
    match hexNumber? digits, cs.drop digits.length with
    | some code, _ :: rest =>
      if digits.length ∈ List.range' 1 6 ∧ code.isValidChar then some (Char.ofNat code, rest)
      else none
    | _, _ => none
  | _ => none

/-- What a letter behind a backslash stands for. -/
def escaped? : Char → Option Char
  | '0' => some '\x00'
  | 't' => some '\t'
  | 'r' => some '\r'
  | 'n' => some '\n'
  | '\\' => some '\\'
  | '"' => some '"'
  | _ => none

/-- The first character of a literal, and what follows; none at the closing quote. -/
def readChar : List Char → Option (Char × List Char)
  | [] => none
  | c :: rest =>
    if c = '\\' then
      match rest with
      | [] => none
      | d :: rest => if d = 'u' then readCodePoint rest else (escaped? d).map (·, rest)
    else if c = '"' then none
    else some (c, rest)

theorem length_lt_of_readCodePoint {cs rest : List Char} {c : Char}
    (h : readCodePoint cs = some (c, rest)) : rest.length < cs.length := by
  rw [readCodePoint.eq_def] at h
  split at h
  · rename_i tail
    dsimp only at h
    split at h
    · rename_i code closing found hcode hdrop
      split at h
      · obtain ⟨-, rfl⟩ := Prod.mk.inj (Option.some.inj h)
        have hlength := congrArg List.length hdrop
        rw [List.length_drop, List.length_cons] at hlength
        rw [List.length_cons]
        omega
      · cases h
    · cases h
  · cases h

theorem length_lt_of_readChar {cs rest : List Char} {c : Char}
    (h : readChar cs = some (c, rest)) : rest.length < cs.length := by
  rw [readChar.eq_def] at h
  split at h
  · cases h
  · split at h
    · split at h
      · cases h
      · rw [List.length_cons, List.length_cons]
        split at h
        · have hlt := length_lt_of_readCodePoint h
          omega
        · obtain ⟨_, -, hpair⟩ := Option.map_eq_some_iff.mp h
          obtain ⟨-, rfl⟩ := Prod.mk.inj hpair
          omega
    · split at h
      · cases h
      · obtain ⟨-, rfl⟩ := Prod.mk.inj (Option.some.inj h)
        exact Nat.lt_succ_self _

/-- The characters up to the closing quote, which ends the literal. -/
def readText (cs : List Char) : Option (List Char) :=
  if cs = ['"'] then some []
  else
    match _hread : readChar cs with
    | some (c, rest) => (readText rest).map (c :: ·)
    | none => none
termination_by cs.length
decreasing_by exact length_lt_of_readChar _hread

/-- The text that a literal stands for. -/
def unquote? (literal : String) : Option String :=
  match literal.toList with
  | '"' :: cs => (readText cs).map String.ofList
  | _ => none

theorem readText_cons {cs rest : List Char} {c : Char} (h : readChar cs = some (c, rest)) :
    readText cs = (readText rest).map (c :: ·) := by
  have hopen : cs ≠ ['"'] := by
    rintro rfl
    cases h
  rw [readText, if_neg hopen]
  split
  · rename_i found after hfound
    rw [h] at hfound
    cases hfound
    rfl
  · rename_i hnone
    rw [h] at hnone
    cases hnone

/-! ## Quoting and reading back -/

theorem readCodePoint_append (c : Char) (rest : List Char) :
    readCodePoint ('\x7b' :: hexDigits c.toNat ++ '\x7d' :: rest) = some (c, rest) := by
  have hnumber := hexNumber?_hexDigits c.toNat
  have hbrace := brace_notMem_of_hexNumber? hnumber
  have htake : (hexDigits c.toNat ++ '\x7d' :: rest).takeWhile (· ≠ '\x7d') =
      hexDigits c.toNat := by
    rw [List.takeWhile_append_of_pos fun d hd => decide_eq_true (ne_of_mem_of_not_mem hd hbrace)]
    simp
  have hlength : (hexDigits c.toNat).length ∈ List.range' 1 6 := by
    have hsmall : c.toNat < 16 ^ 6 := by
      have hvalid : c.toNat.isValidChar := c.valid
      rcases hvalid with h | ⟨-, h⟩ <;> omega
    have hle : (hexDigits c.toNat).length ≤ 6 :=
      (Nat.length_toDigits_le_iff (by decide) (by decide)).mpr hsmall
    have hpos : 0 < (hexDigits c.toNat).length := Nat.length_toDigits_pos
    rw [List.mem_range'_1]
    omega
  have hvalid : c.toNat.isValidChar := c.valid
  rw [List.cons_append, readCodePoint, htake, hnumber, List.drop_left]
  dsimp only
  rw [if_pos ⟨hlength, hvalid⟩, Char.ofNat_toNat]

/-- A character is read back from what it is written as. -/
theorem readChar_quoteChar (c : Char) (rest : List Char) :
    readChar (quoteChar c ++ rest) = some (c, rest) := by
  by_cases hspecial : c ∈ ['\x00', '\t', '\r', '\n', '\\', '"']
  · simp only [List.mem_cons, List.not_mem_nil, or_false] at hspecial
    rcases hspecial with rfl | rfl | rfl | rfl | rfl | rfl <;> rfl
  · simp only [List.mem_cons, List.not_mem_nil, or_false, not_or] at hspecial
    obtain ⟨hnull, htab, hreturn, hnewline, hbackslash, hquote⟩ := hspecial
    have hplain : readChar ([c] ++ rest) = some (c, rest) := by
      rw [List.singleton_append, readChar.eq_def]
      dsimp only
      rw [if_neg hbackslash, if_neg hquote]
    rw [quoteChar, if_neg hnull, if_neg htab, if_neg hreturn, if_neg hnewline, if_neg hbackslash,
      if_neg hquote]
    split
    · exact hplain
    · split
      · rw [codePointEscape, List.append_assoc, List.append_assoc]
        exact readCodePoint_append c rest
      · exact hplain

theorem readText_flatMap_quoteChar (cs : List Char) :
    readText (cs.flatMap quoteChar ++ ['"']) = some cs := by
  induction cs with
  | nil =>
      rw [List.flatMap_nil, List.nil_append, readText, if_pos rfl]
  | cons c cs ih =>
      rw [List.flatMap_cons, List.append_assoc, readText_cons (readChar_quoteChar c _), ih,
        Option.map_some]

/-- **A quoted text stands for the text.** -/
theorem unquote?_quote (s : String) : unquote? (quote s) = some s := by
  rw [unquote?, quote, String.toList_ofList]
  show Option.map String.ofList (readText (s.toList.flatMap quoteChar ++ ['"'])) = some s
  rw [readText_flatMap_quoteChar, Option.map_some, String.ofList_toList]

end SchemaCompiler.Text
