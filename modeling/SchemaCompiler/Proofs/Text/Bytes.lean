import Mathlib.Data.String.Basic

/-!
# Byte order

Texts are compared character by character.  The encoding in bytes keeps that order
(`bytes_lt_iff`), so the order of texts is the order of their bytes.
-/

namespace SchemaCompiler.Text

/-- The bytes in which a text is stored. -/
def bytes (text : String) : List UInt8 :=
  text.toUTF8.data.toList

theorem bytes_eq_flatMap (text : String) :
    bytes text = text.toList.flatMap String.utf8EncodeChar := by
  rw [← String.ofList_toList (s := text), bytes, String.toUTF8_eq_toByteArray,
    String.toByteArray_ofList, String.toList_ofList, List.utf8Encode, List.data_toByteArray]

/-- Of two characters the smaller one has the smaller bytes, whatever comes behind. -/
theorem utf8EncodeChar_append_lt {c d : Char} (h : c < d) (u v : List UInt8) :
    String.utf8EncodeChar c ++ u < String.utf8EncodeChar d ++ v := by
  have hlt : c.val.toNat < d.val.toNat := h
  have hmax : d.val.toNat < 1114112 := by
    have hvalid := d.valid
    simp only [UInt32.isValidChar, Nat.isValidChar] at hvalid
    omega
  unfold String.utf8EncodeChar
  dsimp only
  generalize c.val.toNat = m at *
  generalize d.val.toNat = n at *
  split_ifs <;> simp only [List.cons_append, List.nil_append, List.cons_lt_cons_iff,
    UInt8.lt_iff_toNat_lt, ← UInt8.toNat_inj, UInt8.toNat_ofNat']
  -- the leading byte tells, up to characters of four bytes
  all_goals try omega
  -- there the first digit to base 64 that is not the same decides
  obtain hfirst | hfirst : m / 262144 < n / 262144 ∨ m / 262144 = n / 262144 := by omega
  · omega
  obtain hsecond | hsecond : m / 4096 < n / 4096 ∨ m / 4096 = n / 4096 := by omega
  · omega
  obtain hthird | hthird : m / 64 < n / 64 ∨ m / 64 = n / 64 := by omega
  · omega
  · omega

theorem flatMap_utf8EncodeChar_lt {cs ds : List Char} (h : cs < ds) :
    cs.flatMap String.utf8EncodeChar < ds.flatMap String.utf8EncodeChar := by
  induction cs generalizing ds with
  | nil =>
      cases ds with
      | nil => exact absurd h (List.lt_irrefl _)
      | cons d ds =>
          have hbytes : String.utf8EncodeChar d ≠ [] := String.utf8EncodeChar_ne_nil
          obtain ⟨byte, rest, hbytes⟩ := List.exists_cons_of_ne_nil hbytes
          rw [List.flatMap_cons, hbytes]
          exact List.nil_lt_cons _ _
  | cons c cs ih =>
      cases ds with
      | nil => exact absurd h (List.not_lt_nil _)
      | cons d ds =>
          rw [List.flatMap_cons, List.flatMap_cons]
          rcases List.cons_lt_cons_iff.mp h with hlt | ⟨rfl, hrest⟩
          · exact utf8EncodeChar_append_lt hlt _ _
          · exact List.append_left_lt (ih hrest)

theorem bytes_lt_of_lt {a b : String} (h : a < b) : bytes a < bytes b := by
  rw [bytes_eq_flatMap, bytes_eq_flatMap]
  exact flatMap_utf8EncodeChar_lt (String.lt_iff_toList_lt.mp h)

/-- The order of texts is the order of their bytes. -/
theorem bytes_lt_iff {a b : String} : bytes a < bytes b ↔ a < b := by
  refine ⟨fun h => ?_, bytes_lt_of_lt⟩
  by_contra hnot
  rcases eq_or_ne a b with rfl | hne
  · exact List.lt_irrefl _ h
  · have hlt : b < a := Std.lt_of_le_of_ne (String.not_lt.mp hnot) hne.symm
    exact List.lt_asymm h (bytes_lt_of_lt hlt)

theorem bytes_le_iff {a b : String} : bytes a ≤ bytes b ↔ a ≤ b := by
  rw [← List.not_lt, ← String.not_lt, bytes_lt_iff]

end SchemaCompiler.Text
