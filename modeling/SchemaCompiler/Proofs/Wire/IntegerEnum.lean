import Mathlib.Data.List.Nodup
import SchemaCompiler.Proofs.Wire.RoundTrip

/-!
# Codecs of integer enumerations

A codec reads an integer as the member that has it, or else as the open case, which holds it.  If
no two members share a name or a number, every member is read from its own number and from no
other, and every case is written as the number it was read from (`IntegerEnum.codes`).
-/

namespace SchemaCompiler.Wire

open Fallible

/-- A value of an integer enumeration: a member, or the open case with its integer. -/
inductive IntegerCase where
  | member (name : String)
  | other (value : Int)
deriving DecidableEq

namespace IntegerEnum

/-- The case that an integer is matched to; the first member with it wins. -/
def case? (e : IntegerEnum) (value : Int) : Option IntegerCase :=
  match e.members.find? (·.2 = value) with
  | some (name, _) => some (.member name)
  | none => if e.isOpen then some (.other value) else none

/-- The integer that stands for a case. -/
def number? (e : IntegerEnum) : IntegerCase → Option Int
  | .member name => Entries.get? e.members name
  | .other value => if e.isOpen then some value else none

def decodeCase (e : IntegerEnum) (value : Json) : Except DecodeError IntegerCase := do
  let raw ← Shape.decodeInteger e.width value
  match e.case? raw with
  | some case => pure case
  | none => throw (.codec (.unknownMember e.name raw))

def encodeCase (e : IntegerEnum) (case : IntegerCase) : Option Json :=
  (e.number? case).map fun number => .number (.int number)

/-- Members whose names and numbers are distinct, the numbers all within the width. -/
structure WellFormed (e : IntegerEnum) : Prop where
  names_nodup : (e.members.map (·.1)).Nodup
  numbers_nodup : (e.members.map (·.2)).Nodup
  holds : ∀ member ∈ e.members, e.width.holds member.2 = true

/-- What a codec does with the numbers it is given. -/
structure Codes (e : IntegerEnum) : Prop where
  reads_member : ∀ name number, (name, number) ∈ e.members →
    e.decodeCase (.number (.int number)) = .ok (.member name)
  reads_other : e.isOpen = true → ∀ number, e.width.holds number = true →
    number ∉ e.members.map (·.2) → e.decodeCase (.number (.int number)) = .ok (.other number)
  refuses_unknown : e.isOpen = false → ∀ number, e.width.holds number = true →
    number ∉ e.members.map (·.2) →
    e.decodeCase (.number (.int number)) = .error (.codec (.unknownMember e.name number))
  refuses_outside : ∀ number : Number, e.width.accepts number = false →
    ∃ error, e.decodeCase (.number number) = .error error
  writes_back : ∀ value case, e.decodeCase value = .ok case → e.encodeCase case = some value
  /-- The shape reads and writes the same integers as data. -/
  decode_iff : ∀ value number, Shape.decode (.integerEnum e) value = .ok (.integer number) ↔
    ∃ case, e.decodeCase value = .ok case ∧ e.number? case = some number
  encode_eq : ∀ case number, e.number? case = some number →
    Shape.encode (.integerEnum e) (.integer number) = e.encodeCase case

variable {e : IntegerEnum}

/-! ## Cases and numbers -/

theorem case?_of_mem (h : (e.members.map (·.2)).Nodup) {name : String} {number : Int}
    (hmember : (name, number) ∈ e.members) : e.case? number = some (.member name) := by
  rw [case?]
  cases hfound : e.members.find? (·.2 = number) with
  | none => exact absurd (decide_eq_true rfl) (List.find?_eq_none.mp hfound _ hmember)
  | some found =>
      have hsame : found.2 = number := by simpa using List.find?_some hfound
      rw [List.inj_on_of_nodup_map h (List.mem_of_find?_eq_some hfound) hmember hsame]

theorem case?_of_notMem {number : Int} (h : number ∉ e.members.map (·.2)) :
    e.case? number = if e.isOpen then some (.other number) else none := by
  have hnone : e.members.find? (·.2 = number) = none :=
    List.find?_eq_none.mpr fun member hmember => by
      simpa using fun hsame : member.2 = number => h (hsame ▸ List.mem_map_of_mem hmember)
  rw [case?, hnone]

/-- The integer of a case is the one that it was found for. -/
theorem number?_of_case? (h : (e.members.map (·.1)).Nodup) {number : Int} {case : IntegerCase}
    (hcase : e.case? number = some case) : e.number? case = some number := by
  rw [case?] at hcase
  split at hcase
  · rename_i name found hfound
    obtain rfl := Option.some.inj hcase
    have hsame : found = number := by simpa using List.find?_some hfound
    have hmem := List.mem_of_find?_eq_some hfound
    exact (Entries.Distinct.get?_eq_some_iff h).mpr (hsame ▸ hmem)
  · split at hcase
    · rename_i hopen
      obtain rfl := Option.some.inj hcase
      rw [number?, if_pos hopen]
    · cases hcase

theorem isSome_case? (e : IntegerEnum) (number : Int) :
    (e.case? number).isSome = (e.memberName? number).isSome := by
  rw [case?, memberName?, isOpen]
  cases e.members.find? (·.2 = number) with
  | some member => rfl
  | none => cases e.other <;> rfl

/-! ## Decoding -/

theorem decodeCase_of_holds {number : Int} (h : e.width.holds number = true) :
    e.decodeCase (.number (.int number)) =
      match e.case? number with
      | some case => .ok case
      | none => .error (.codec (.unknownMember e.name number)) := by
  rw [decodeCase, Shape.decodeInteger, if_pos h]
  rfl

theorem decodeCase_eq_ok_iff {value : Json} {case : IntegerCase} :
    e.decodeCase value = .ok case ↔
      ∃ number, Shape.decodeInteger e.width value = .ok number ∧ e.case? number = some case := by
  rw [decodeCase, bind_eq_ok_iff]
  refine exists_congr fun number => and_congr_right fun _ => ?_
  cases e.case? number with
  | none =>
      constructor
      · intro h
        cases h
      · intro h
        cases h
  | some found =>
      exact ⟨fun h => congrArg some (Except.ok.inj h),
        fun h => congrArg Except.ok (Option.some.inj h)⟩

theorem exists_error_of_not_accepts {number : Number} (h : e.width.accepts number = false) :
    ∃ error, e.decodeCase (.number number) = .error error := by
  cases number with
  | float value => exact ⟨_, rfl⟩
  | int value =>
      have hholds : ¬e.width.holds value = true := by
        rw [show e.width.holds value = false from h]
        exact Bool.false_ne_true
      refine ⟨.outOfRange value e.width.label, ?_⟩
      rw [decodeCase, Shape.decodeInteger, if_neg hholds]
      rfl

theorem decode_eq_ok_iff {value : Json} {number : Int} :
    Shape.decode (.integerEnum e) value = .ok (.integer number) ↔
      Shape.decodeInteger e.width value = .ok number ∧ (e.case? number).isSome = true := by
  rw [Shape.decode, bind_eq_ok_iff]
  constructor
  · rintro ⟨raw, hraw, h⟩
    obtain ⟨found, hfound, h⟩ := bind_eq_ok_iff.mp h
    cases h
    rw [IntegerEnum.decode] at hfound
    split at hfound
    · rename_i hsome
      cases hfound
      exact ⟨hraw, (e.isSome_case? _).trans hsome⟩
    · cases hfound
  · rintro ⟨hraw, hsome⟩
    refine ⟨number, hraw, ?_⟩
    rw [IntegerEnum.decode, if_pos ((e.isSome_case? number).symm.trans hsome)]
    rfl

/-- **Distinct members make a codec.** -/
theorem WellFormed.codes (h : e.WellFormed) : e.Codes where
  reads_member := by
    intro name number hmember
    rw [decodeCase_of_holds (h.holds _ hmember), case?_of_mem h.numbers_nodup hmember]
  reads_other := by
    intro hopen number hholds hfree
    rw [decodeCase_of_holds hholds, case?_of_notMem hfree, if_pos hopen]
  refuses_unknown := by
    intro hclosed number hholds hfree
    rw [decodeCase_of_holds hholds, case?_of_notMem hfree, if_neg (by simp [hclosed])]
  refuses_outside := fun number hnumber => exists_error_of_not_accepts hnumber
  writes_back := by
    intro value case hcase
    obtain ⟨number, hnumber, hfound⟩ := decodeCase_eq_ok_iff.mp hcase
    rw [encodeCase, number?_of_case? h.names_nodup hfound, Shape.eq_of_decodeInteger hnumber]
    rfl
  decode_iff := by
    intro value number
    rw [decode_eq_ok_iff]
    constructor
    · rintro ⟨hraw, hsome⟩
      obtain ⟨case, hcase⟩ := Option.isSome_iff_exists.mp hsome
      exact ⟨case, decodeCase_eq_ok_iff.mpr ⟨number, hraw, hcase⟩,
        number?_of_case? h.names_nodup hcase⟩
    · rintro ⟨case, hcase, hnumber⟩
      obtain ⟨raw, hraw, hfound⟩ := decodeCase_eq_ok_iff.mp hcase
      obtain rfl : raw = number :=
        Option.some.inj ((number?_of_case? h.names_nodup hfound).symm.trans hnumber)
      exact ⟨hraw, by rw [hfound]; rfl⟩
  encode_eq := by
    intro case number hnumber
    rw [Shape.encode, encodeCase, hnumber]
    rfl

end IntegerEnum

end SchemaCompiler.Wire
