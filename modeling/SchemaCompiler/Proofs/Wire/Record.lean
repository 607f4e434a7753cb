import Mathlib.Data.List.Basic
import Mathlib.Data.List.Forall2
import SchemaCompiler.Proofs.Fallible
import SchemaCompiler.Wire.Decode
import SchemaCompiler.Wire.Encode

/-!
# Records on the wire

A record is read from an object or an array, and either way every field ends up with a datum that
its shape decoded, or with none if it is optional (`forall₂_of_decode_record`).  It is written as
an object in the order of its fields, and reading that object finds the same data
(`decode_record_of_written`).
-/

namespace SchemaCompiler.Wire.Shape

open Fallible

/-- A field with a key of its own, and without a default. -/
def isPlain (field : FieldHead × Shape) : Bool :=
  match field.1.presence with
  | .required | .optional => true
  | _ => false

/-- Fields with keys of their own, no key twice. -/
structure Plain (fields : List (FieldHead × Shape)) : Prop where
  isPlain : ∀ field ∈ fields, isPlain field = true
  names_nodup : (fields.map (·.1.name)).Nodup

/-- The datum of a field that is there; null stands for an optional one that is not. -/
def decodePresent (head : FieldHead) (shape : Shape) (value : Json) : Except DecodeError Datum :=
  match head.presence, value with
  | .optional, .null => .ok .absent
  | _, _ => decode shape value

theorem decodePresent_of_ne_null {head : FieldHead} {shape : Shape} {value : Json}
    (h : head.presence = .optional → value ≠ .null) :
    decodePresent head shape value = decode shape value := by
  rw [decodePresent.eq_def]
  split
  · rename_i hoptional
    exact absurd rfl (h hoptional)
  · rfl

/-- Where the datum of a field comes from. -/
inductive FieldRead : FieldHead × Shape → Datum → Prop where
  | absent {head : FieldHead} {shape : Shape} (h : head.presence = .optional) :
      FieldRead (head, shape) .absent
  | present {head : FieldHead} {shape : Shape} {value : Json} {datum : Datum}
      (hdecode : decode shape value = .ok datum)
      (hnull : head.presence = .optional → value ≠ .null) : FieldRead (head, shape) datum

/-! ## Plain fields -/

section Plain

variable {field : FieldHead × Shape} {fields : List (FieldHead × Shape)}

theorem Plain.tail (h : Plain (field :: fields)) : Plain fields where
  isPlain := fun other hother => h.isPlain other (List.mem_cons_of_mem _ hother)
  names_nodup := (List.nodup_cons.mp h.names_nodup).2

theorem isFlattened_of_isPlain (h : isPlain field = true) : isFlattened field = false := by
  obtain ⟨⟨name, presence⟩, shape⟩ := field
  cases presence with
  | required => rfl
  | optional => rfl
  | defaulted value => cases h
  | flattened => cases h

theorem Plain.any_isFlattened (h : Plain fields) : fields.any isFlattened = false := by
  rw [List.any_eq_false]
  intro field hfield
  rw [isFlattened_of_isPlain (h.isPlain field hfield)]
  exact Bool.false_ne_true

theorem decodeFlattened_of_plain (h : Plain fields) (unclaimed : Json) (values : List Datum) :
    decodeFlattened fields unclaimed values = .ok values := by
  induction fields generalizing values with
  | nil => simp only [decodeFlattened]
  | cons field fields ih =>
      obtain ⟨head, shape⟩ := field
      cases values with
      | nil => simp only [decodeFlattened]
      | cons value values =>
          have hnot := isFlattened_of_isPlain (h.isPlain _ List.mem_cons_self)
          rw [decodeFlattened, hnot, ih h.tail]
          rfl

theorem decodeField_cons (head : FieldHead) (shape : Shape) (key : String) (value : Json) :
    decodeField ((head, shape) :: fields) key value =
      if !isFlattened (head, shape) && head.name = key then some (decodePresent head shape value)
      else decodeField fields key value := by
  obtain ⟨name, presence⟩ := head
  cases presence <;> cases value <;> rfl

theorem decodeField_of_mem (h : Plain fields) {head : FieldHead} {shape : Shape}
    (hmem : (head, shape) ∈ fields) (value : Json) :
    decodeField fields head.name value = some (decodePresent head shape value) := by
  induction fields with
  | nil => exact absurd hmem List.not_mem_nil
  | cons first fields ih =>
      obtain ⟨firstHead, firstShape⟩ := first
      rw [decodeField_cons, isFlattened_of_isPlain (h.isPlain _ List.mem_cons_self)]
      rcases List.mem_cons.mp hmem with heq | hrest
      · cases heq
        simp
      · have hne : firstHead.name ≠ head.name := by
          intro hname
          have hnames := (List.nodup_cons.mp h.names_nodup).1
          exact hnames (List.mem_map.mpr ⟨_, hrest, hname.symm⟩)
        rw [ih h.tail hrest]
        simp [hne]

theorem decodeField_eq_none (h : Plain fields) {key : String}
    (hkey : key ∉ fields.map (·.1.name)) (value : Json) : decodeField fields key value = none := by
  induction fields with
  | nil => rfl
  | cons first fields ih =>
      obtain ⟨head, shape⟩ := first
      rw [List.map_cons, List.mem_cons, not_or] at hkey
      rw [decodeField_cons, ih h.tail hkey.2]
      simp [Ne.symm hkey.1]

end Plain

/-! ## Collecting data -/

/-- The datum that a field finds among the decoded members. -/
def Collected (decoded : Entries Datum) (field : FieldHead × Shape) (datum : Datum) : Prop :=
  decoded.get? field.1.name = some datum ∨
    decoded.get? field.1.name = none ∧ field.1.presence = .optional ∧ datum = .absent

variable {fields : List (FieldHead × Shape)}

theorem collected_iff {decoded : Entries Datum} {field : FieldHead × Shape}
    (h : isPlain field = true) {datum : Datum} :
    Collected decoded field datum ↔
      ((decoded.get? field.1.name).elim (missing field.1) .ok) = .ok datum := by
  obtain ⟨⟨name, presence⟩, shape⟩ := field
  rw [Collected]
  cases decoded.get? name with
  | some value => simp
  | none =>
      cases presence with
      | required => simp [missing]
      | optional => simp [missing, eq_comm]
      | defaulted value => cases h
      | flattened => cases h

theorem collect_cons {decoded : Entries Datum} {field : FieldHead × Shape}
    (h : isPlain field = true) :
    collect decoded (field :: fields) = (do
      let value ← (decoded.get? field.1.name).elim (missing field.1) .ok
      let values ← collect decoded fields
      pure (value :: values)) := by
  rw [collect, isFlattened_of_isPlain h, Entries.get?]
  cases decoded.lookup field.1.name <;> rfl

theorem collect_eq_ok_iff (h : Plain fields) {decoded : Entries Datum} {values : List Datum} :
    collect decoded fields = .ok values ↔ List.Forall₂ (Collected decoded) fields values := by
  induction fields generalizing values with
  | nil =>
      rw [collect, List.forall₂_nil_left_iff]
      exact ⟨fun h => (Except.ok.inj h).symm, fun h => congrArg Except.ok h.symm⟩
  | cons field fields ih =>
      have hplain := h.isPlain field List.mem_cons_self
      rw [collect_cons hplain, bind_eq_ok_iff, List.forall₂_cons_left_iff]
      constructor
      · rintro ⟨datum, hdatum, hvalues⟩
        obtain ⟨rest, hrest, heq⟩ := bind_eq_ok_iff.mp hvalues
        cases heq
        exact ⟨datum, rest, (collected_iff hplain).mpr hdatum, (ih h.tail).mp hrest, rfl⟩
      · rintro ⟨datum, rest, hdatum, hrest, rfl⟩
        exact ⟨datum, (collected_iff hplain).mp hdatum,
          bind_eq_ok_iff.mpr ⟨rest, (ih h.tail).mpr hrest, rfl⟩⟩

/-- The members that some field takes, decoded. -/
def decodeMembers (fields : List (FieldHead × Shape)) (members : List (String × Json)) :
    Except DecodeError (List (String × Datum)) :=
  members.filterMapM fun (key, value) => do
    match decodeField fields key value with
    | none => pure none
    | some result =>
      let datum ← result
      pure (some (key, datum))

theorem decodeMembers_cons_of_none {key : String} {value : Json}
    (h : decodeField fields key value = none) (members : List (String × Json)) :
    decodeMembers fields ((key, value) :: members) = decodeMembers fields members := by
  rw [decodeMembers, List.filterMapM_cons]
  dsimp only
  rw [h]
  rfl

theorem decodeMembers_cons_of_some {key : String} {value : Json}
    {result : Except DecodeError Datum} (h : decodeField fields key value = some result)
    {members : List (String × Json)} {decoded : List (String × Datum)} :
    decodeMembers fields ((key, value) :: members) = .ok decoded ↔
      ∃ datum rest, result = .ok datum ∧ decodeMembers fields members = .ok rest ∧
        decoded = (key, datum) :: rest := by
  rw [decodeMembers, List.filterMapM_cons]
  dsimp only
  rw [h]
  cases result with
  | error error =>
      constructor
      · intro h
        cases h
      · rintro ⟨datum, rest, h, -⟩
        cases h
  | ok datum =>
      show (decodeMembers fields members >>= fun rest => pure ((key, datum) :: rest)) =
        .ok decoded ↔ _
      constructor
      · intro h
        obtain ⟨rest, hrest, heq⟩ := bind_eq_ok_iff.mp h
        cases heq
        exact ⟨datum, rest, rfl, hrest, rfl⟩
      · rintro ⟨datum', rest, h, hrest, rfl⟩
        cases h
        exact bind_eq_ok_iff.mpr ⟨rest, hrest, rfl⟩

/-- What was decoded under a key was a member under that key. -/
theorem exists_member_of_decodeMembers {members : List (String × Json)} {decoded : Entries Datum}
    (h : decodeMembers fields members = .ok decoded) {key : String} {datum : Datum}
    (hget : decoded.get? key = some datum) :
    ∃ value, (key, value) ∈ members ∧ decodeField fields key value = some (.ok datum) := by
  induction members generalizing decoded with
  | nil =>
      cases h
      cases hget
  | cons member members ih =>
      obtain ⟨first, value⟩ := member
      cases hfield : decodeField fields first value with
      | none =>
          rw [decodeMembers_cons_of_none hfield] at h
          obtain ⟨other, hother, hdecode⟩ := ih h hget
          exact ⟨other, List.mem_cons_of_mem _ hother, hdecode⟩
      | some result =>
          obtain ⟨head, rest, rfl, hrest, rfl⟩ := (decodeMembers_cons_of_some hfield).mp h
          rw [Entries.get?_cons] at hget
          by_cases hkey : first = key
          · subst hkey
            rw [if_pos rfl] at hget
            cases hget
            exact ⟨value, List.mem_cons_self, hfield⟩
          · rw [if_neg hkey] at hget
            obtain ⟨other, hother, hdecode⟩ := ih hrest hget
            exact ⟨other, List.mem_cons_of_mem _ hother, hdecode⟩

theorem decode_record_object (h : Plain fields) {name : String} {members : List (String × Json)}
    {datum : Datum} :
    decode (.record name fields) (.object members) = .ok datum ↔
      ∃ decoded values, decodeMembers fields members = .ok decoded ∧
        List.Forall₂ (Collected decoded) fields values ∧ datum = .record values := by
  rw [decode]
  constructor
  · intro hdecode
    obtain ⟨decoded, hdecoded, hdecode⟩ := bind_eq_ok_iff.mp hdecode
    obtain ⟨values, hvalues, hdecode⟩ := bind_eq_ok_iff.mp hdecode
    dsimp only at hdecode
    rw [decodeFlattened_of_plain h] at hdecode
    cases hdecode
    exact ⟨decoded, values, hdecoded, (collect_eq_ok_iff h).mp hvalues, rfl⟩
  · rintro ⟨decoded, values, hdecoded, hvalues, rfl⟩
    refine bind_eq_ok_iff.mpr ⟨decoded, hdecoded, bind_eq_ok_iff.mpr ⟨values,
      (collect_eq_ok_iff h).mpr hvalues, ?_⟩⟩
    dsimp only
    rw [decodeFlattened_of_plain h]
    rfl

/-! ## Reading a record -/

theorem fieldRead_of_decodePresent {head : FieldHead} {shape : Shape} {value : Json}
    {datum : Datum} (h : decodePresent head shape value = .ok datum) :
    FieldRead (head, shape) datum := by
  rw [decodePresent.eq_def] at h
  split at h
  · rename_i hoptional
    cases h
    exact .absent hoptional
  · rename_i hother
    exact .present h fun hoptional hnull => hother hoptional hnull

theorem fieldRead_of_missing {field : FieldHead × Shape} (h : isPlain field = true)
    {datum : Datum} (hmissing : missing field.1 = .ok datum) : FieldRead field datum := by
  obtain ⟨⟨name, presence⟩, shape⟩ := field
  cases presence with
  | required => cases hmissing
  | optional =>
      cases hmissing
      exact .absent rfl
  | defaulted value => cases h
  | flattened => cases h

theorem fieldRead_of_collected (h : Plain fields) {members : List (String × Json)}
    {decoded : Entries Datum} (hdecoded : decodeMembers fields members = .ok decoded)
    {field : FieldHead × Shape} (hfield : field ∈ fields) {datum : Datum}
    (hdatum : Collected decoded field datum) : FieldRead field datum := by
  rcases hdatum with hget | ⟨-, hoptional, rfl⟩
  · obtain ⟨value, -, hdecode⟩ := exists_member_of_decodeMembers hdecoded hget
    rw [decodeField_of_mem h hfield] at hdecode
    exact fieldRead_of_decodePresent (Option.some.inj hdecode)
  · exact .absent hoptional

theorem decodeInOrder_cons_cons (expected : String) (index : Nat) (head : FieldHead)
    (shape : Shape) (item : Json) (items : List Json) :
    decodeInOrder expected index ((head, shape) :: fields) (item :: items) = (do
      let value ← decodePresent head shape item
      let values ← decodeInOrder expected (index + 1) fields items
      pure (value :: values)) := by
  obtain ⟨name, presence⟩ := head
  cases presence <;> cases item <;> rfl

theorem forall₂_of_decodeInOrder (h : Plain fields) {expected : String} {index : Nat}
    {items : List Json} {values : List Datum}
    (hdecode : decodeInOrder expected index fields items = .ok values) :
    List.Forall₂ FieldRead fields values := by
  induction fields generalizing index items values with
  | nil =>
      rw [decodeInOrder] at hdecode
      cases hdecode
      exact List.Forall₂.nil
  | cons field fields ih =>
      obtain ⟨head, shape⟩ := field
      cases items with
      | nil =>
          rw [decodeInOrder] at hdecode
          obtain ⟨datum, hdatum, hvalues⟩ := bind_eq_ok_iff.mp hdecode
          obtain ⟨rest, hrest, heq⟩ := bind_eq_ok_iff.mp hvalues
          cases heq
          have hmissing : missing head = .ok datum := by
            cases hresult : missing head with
            | error error =>
                rw [hresult] at hdatum
                cases hdatum
            | ok other =>
                rw [hresult] at hdatum
                exact hdatum
          exact .cons (fieldRead_of_missing (h.isPlain _ List.mem_cons_self) hmissing)
            (ih h.tail hrest)
      | cons item items =>
          rw [decodeInOrder_cons_cons] at hdecode
          obtain ⟨datum, hdatum, hvalues⟩ := bind_eq_ok_iff.mp hdecode
          obtain ⟨rest, hrest, heq⟩ := bind_eq_ok_iff.mp hvalues
          cases heq
          exact .cons (fieldRead_of_decodePresent hdatum) (ih h.tail hrest)

/-- **Object or array**: every field has a datum that its shape decoded, or none if it is
optional. -/
theorem forall₂_of_decode_record (h : Plain fields) {name : String} {value : Json}
    {datum : Datum} (hdecode : decode (.record name fields) value = .ok datum) :
    ∃ values, datum = .record values ∧ List.Forall₂ FieldRead fields values := by
  cases value with
  | object members =>
      obtain ⟨decoded, values, hdecoded, hvalues, rfl⟩ := (decode_record_object h).mp hdecode
      have hmem := (List.forall₂_and_left (p := (· ∈ fields)) fields values).mpr
        ⟨fun _ hfield => hfield, hvalues⟩
      refine ⟨values, rfl, hmem.imp fun field datum => ?_⟩
      rintro ⟨hfield, hdatum⟩
      exact fieldRead_of_collected h hdecoded hfield hdatum
  | array items =>
      rw [decode, h.any_isFlattened] at hdecode
      obtain ⟨values, hvalues, hdecode⟩ := bind_eq_ok_iff.mp hdecode
      split at hdecode
      · cases hdecode
        exact ⟨values, rfl, forall₂_of_decodeInOrder h hvalues⟩
      · cases hdecode
  | _ => cases hdecode

/-! ## Writing a record -/

/-- The members that stand for the data of some fields, in the order of the fields. -/
inductive Written : List (FieldHead × Shape) → List Datum → List (String × Json) → Prop where
  | nil : Written [] [] []
  | skip {head : FieldHead} {shape : Shape} {fields : List (FieldHead × Shape)}
      {values : List Datum} {members : List (String × Json)}
      (hoptional : head.presence = .optional) (hrest : Written fields values members) :
      Written ((head, shape) :: fields) (.absent :: values) members
  | write {head : FieldHead} {shape : Shape} {fields : List (FieldHead × Shape)} {datum : Datum}
      {encoded : Json} {values : List Datum} {members : List (String × Json)}
      (hdecode : decodePresent head shape encoded = .ok datum)
      (hrest : Written fields values members) :
      Written ((head, shape) :: fields) (datum :: values) ((head.name, encoded) :: members)

theorem Written.names_subset {values : List Datum} {members : List (String × Json)}
    (h : Written fields values members) : members.map (·.1) ⊆ fields.map (·.1.name) := by
  induction h with
  | nil => exact List.Subset.refl _
  | skip _ _ ih => exact List.Subset.trans ih (List.subset_cons_self _ _)
  | write _ _ ih => exact List.cons_subset_cons _ ih

theorem decodeMembers_of_written {all : List (FieldHead × Shape)} (hall : Plain all)
    (hsubset : fields ⊆ all) (h : Plain fields) {values : List Datum}
    {members : List (String × Json)} (hwritten : Written fields values members) :
    ∃ decoded : Entries Datum, decodeMembers all members = .ok decoded ∧
      decoded.keys = members.map (·.1) ∧ List.Forall₂ (Collected decoded) fields values := by
  -- by induction on what is written for the last fields; `all` takes their members
  induction hwritten with
  | nil => exact ⟨[], rfl, rfl, List.Forall₂.nil⟩
  | @skip head shape fields values members hoptional hrest ih =>
      obtain ⟨decoded, hdecoded, hkeys, hvalues⟩ :=
        ih (List.Subset.trans (List.subset_cons_self _ _) hsubset) h.tail
      refine ⟨decoded, hdecoded, hkeys, .cons (Or.inr ⟨?_, hoptional, rfl⟩) hvalues⟩
      -- only later fields were written, and they have other names
      refine Entries.get?_eq_none_iff.mpr fun hname => ?_
      rw [hkeys] at hname
      exact (List.nodup_cons.mp h.names_nodup).1 (hrest.names_subset hname)
  | @write head shape fields datum encoded values members hdecode hrest ih =>
      obtain ⟨decoded, hdecoded, hkeys, hvalues⟩ :=
        ih (List.Subset.trans (List.subset_cons_self _ _) hsubset) h.tail
      have hfield := decodeField_of_mem hall (hsubset List.mem_cons_self) encoded
      rw [hdecode] at hfield
      refine ⟨(head.name, datum) :: decoded,
        (decodeMembers_cons_of_some hfield).mpr ⟨datum, decoded, rfl, hdecoded, rfl⟩,
        congrArg (List.cons head.name) hkeys, .cons (Or.inl ?_) ?_⟩
      · rw [Entries.get?_cons, if_pos rfl]
      · -- no later field has the name of this one
        have hmem := (List.forall₂_and_left (p := (· ∈ fields)) fields values).mpr
          ⟨fun _ hfield => hfield, hvalues⟩
        refine hmem.imp fun field datum => ?_
        rintro ⟨hfield, hdatum⟩
        have hne : head.name ≠ field.1.name := fun hname =>
          (List.nodup_cons.mp h.names_nodup).1 (List.mem_map.mpr ⟨field, hfield, hname.symm⟩)
        rw [Collected, Entries.get?_cons, if_neg hne]
        exact hdatum

/-- **Reading what was written** finds the same data. -/
theorem decode_record_of_written (h : Plain fields) {name : String} {values : List Datum}
    {members : List (String × Json)} (hwritten : Written fields values members) :
    decode (.record name fields) (.object members) = .ok (.record values) := by
  obtain ⟨decoded, hdecoded, -, hvalues⟩ :=
    decodeMembers_of_written h (List.Subset.refl _) h hwritten
  exact (decode_record_object h).mpr ⟨decoded, values, hdecoded, hvalues, rfl⟩

/-- A member that no field takes is passed over. -/
theorem decode_record_cons (h : Plain fields) {name key : String}
    (hkey : key ∉ fields.map (·.1.name)) (value : Json) (members : List (String × Json))
    {datum : Datum} :
    decode (.record name fields) (.object ((key, value) :: members)) = .ok datum ↔
      decode (.record name fields) (.object members) = .ok datum := by
  rw [decode_record_object h, decode_record_object h,
    decodeMembers_cons_of_none (decodeField_eq_none h hkey value)]

/-- A required field must be among the members. -/
theorem mem_of_decode_record (h : Plain fields) {name : String} {members : List (String × Json)}
    {datum : Datum} (hdecode : decode (.record name fields) (.object members) = .ok datum)
    {field : FieldHead × Shape} (hfield : field ∈ fields)
    (hrequired : field.1.presence = .required) : field.1.name ∈ members.map (·.1) := by
  obtain ⟨decoded, values, hdecoded, hvalues, -⟩ := (decode_record_object h).mp hdecode
  obtain ⟨i, hi, rfl⟩ := List.getElem_of_mem hfield
  obtain ⟨hlength, hget⟩ := List.forall₂_iff_get.mp hvalues
  rcases hget i hi (hlength ▸ hi) with hdatum | ⟨-, hoptional, -⟩
  · obtain ⟨value, hvalue, -⟩ := exists_member_of_decodeMembers hdecoded hdatum
    exact List.mem_map.mpr ⟨_, hvalue, rfl⟩
  · rw [List.get_eq_getElem, hrequired] at hoptional
    cases hoptional

end SchemaCompiler.Wire.Shape
