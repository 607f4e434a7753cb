import SchemaCompiler.Proofs.Wire.Record
import SchemaCompiler.Proofs.Wire.Union
import SchemaCompiler.Wire.Protocol

/-!
# Reading back what was read

What a shape decodes, it can encode, and the encoding decodes to the same datum.  This needs
records with plain fields, cases of tagged types that do not use the tag for themselves, and
untagged cases each of which demands a field that no later one writes: otherwise an earlier case
could take what a later one wrote.  `isReversible` checks all this along the shape, and every
protocol type passes (`Protocol.types_read_back`).
-/

namespace SchemaCompiler.Wire

namespace Shape

open Fallible

/-! ## The condition -/

theorem plain_iff {fields : List (FieldHead × Shape)} :
    Plain fields ↔ (∀ field ∈ fields, isPlain field = true) ∧ (fields.map (·.1.name)).Nodup :=
  ⟨fun h => ⟨h.isPlain, h.names_nodup⟩, fun h => ⟨h.1, h.2⟩⟩

instance (fields : List (FieldHead × Shape)) : Decidable (Plain fields) :=
  decidable_of_iff _ plain_iff.symm

/-- The names under which a record writes its fields; another shape writes none. -/
def writtenNames : Shape → List String
  | .record _ fields => fields.map (·.1.name)
  | _ => []

def isRecord : Shape → Bool
  | .record _ _ => true
  | _ => false

/-- The names of the fields that must be there. -/
def requiredNames : Shape → List String
  | .record _ fields =>
    fields.filterMap fun field =>
      match field.1.presence with
      | .required => some field.1.name
      | _ => none
  | _ => []

/-- Two untagged cases with names of their own, the first of which does not take what the second
writes. -/
def areApart (first second : String × Shape) : Bool :=
  first.1 ≠ second.1 && first.2.requiredNames.any (!second.2.writtenNames.contains ·)

mutual

def isReversible : Shape → Bool
  | .list item => isReversible item
  | .dictionary item => isReversible item
  | .record _ fields => decide (Plain fields) && fieldsReversible fields
  | .tagged _ property cases =>
    cases.all (fun case => case.2.isRecord && !case.2.writtenNames.contains property) &&
      casesReversible cases
  | .untagged _ cases =>
    cases.all (·.2.isRecord) && decide (cases.Pairwise fun a b => areApart a b = true) &&
      casesReversible cases
  | _ => true

def fieldsReversible : List (FieldHead × Shape) → Bool
  | [] => true
  | (_, shape) :: rest => isReversible shape && fieldsReversible rest

def casesReversible : List (String × Shape) → Bool
  | [] => true
  | (_, shape) :: rest => isReversible shape && casesReversible rest

end

theorem isReversible_of_mem_cases {cases : List (String × Shape)} (h : casesReversible cases = true)
    {case : String × Shape} (hcase : case ∈ cases) : isReversible case.2 = true := by
  induction cases with
  | nil => exact absurd hcase List.not_mem_nil
  | cons first rest ih =>
      rw [casesReversible, Bool.and_eq_true] at h
      rcases List.mem_cons.mp hcase with rfl | hcase
      · exact h.1
      · exact ih h.2 hcase

theorem exists_plain_of_isRecord {shape : Shape} (hrecord : shape.isRecord = true)
    (h : isReversible shape = true) : ∃ name fields, shape = .record name fields ∧ Plain fields := by
  cases shape with
  | record name fields =>
      rw [isReversible, Bool.and_eq_true, decide_eq_true_eq] at h
      exact ⟨name, fields, rfl, h.1⟩
  | _ => cases hrecord

/-- Whatever the shape decodes, it encodes, and decodes again from the encoding. -/
structure Reverses (shape : Shape) : Prop where
  ne_absent : ∀ value datum, decode shape value = .ok datum → datum ≠ .absent
  decode_of_encode : ∀ value datum, decode shape value = .ok datum →
    ∃ encoded, encode shape datum = some encoded ∧ decode shape encoded = .ok datum ∧
      (encoded = .null → value = .null)

/-! ## Single values -/

theorem reverses_of_encode_eq {shape : Shape}
    (h : ∀ value datum, decode shape value = .ok datum →
      datum ≠ .absent ∧ encode shape datum = some value) : Reverses shape where
  ne_absent := fun value datum hdecode => (h value datum hdecode).1
  decode_of_encode := fun value datum hdecode =>
    ⟨value, (h value datum hdecode).2, hdecode, fun hnull => hnull⟩

theorem reverses_text : Reverses .text := by
  refine reverses_of_encode_eq fun value datum h => ?_
  cases value <;> cases h
  exact ⟨fun h => Datum.noConfusion h, rfl⟩

theorem reverses_path : Reverses .path := by
  refine reverses_of_encode_eq fun value datum h => ?_
  cases value <;> cases h
  exact ⟨fun h => Datum.noConfusion h, rfl⟩

theorem reverses_flag : Reverses .flag := by
  refine reverses_of_encode_eq fun value datum h => ?_
  cases value <;> cases h
  exact ⟨fun h => Datum.noConfusion h, rfl⟩

theorem reverses_any : Reverses .any := by
  refine reverses_of_encode_eq fun value datum h => ?_
  cases h
  exact ⟨fun h => Datum.noConfusion h, rfl⟩

theorem eq_of_decodeInteger {width : IntWidth} {value : Json} {n : Int}
    (h : decodeInteger width value = .ok n) : value = .number (.int n) := by
  rw [decodeInteger.eq_def] at h
  split at h
  · split at h <;> cases h
    rfl
  · cases h

theorem reverses_integer (width : IntWidth) : Reverses (.integer width) := by
  refine reverses_of_encode_eq fun value datum h => ?_
  rw [decode] at h
  obtain ⟨n, hn, rfl⟩ := map_eq_ok_iff.mp h
  rw [eq_of_decodeInteger hn]
  exact ⟨fun h => Datum.noConfusion h, rfl⟩

theorem reverses_integerEnum (members : IntegerEnum) : Reverses (.integerEnum members) := by
  refine reverses_of_encode_eq fun value datum h => ?_
  rw [decode] at h
  obtain ⟨n, hn, h⟩ := bind_eq_ok_iff.mp h
  obtain ⟨member, hmember, h⟩ := bind_eq_ok_iff.mp h
  cases h
  rw [IntegerEnum.decode] at hmember
  split at hmember
  · cases hmember
    rw [eq_of_decodeInteger hn]
    exact ⟨fun h => Datum.noConfusion h, rfl⟩
  · cases hmember

/-- Only the first reading may lose how a number was written. -/
theorem reverses_float : Reverses .float where
  ne_absent := by
    intro value datum h
    cases value <;> cases h
    exact fun h => Datum.noConfusion h
  decode_of_encode := by
    intro value datum h
    cases value with
    | number number =>
        cases h
        exact ⟨.number (.float number.toFloat), rfl, rfl, fun h => Json.noConfusion h⟩
    | _ => cases h

theorem decodeName_eq_ok_iff {choices : Choices} {name : String} {datum : Datum} :
    decodeName choices name = .ok datum ↔
      choices.names.any (·.1 = name) = true ∧ datum = .choice name := by
  rw [decodeName]
  split
  · rename_i hany
    exact ⟨fun h => ⟨hany, (Except.ok.inj h).symm⟩, fun h => congrArg Except.ok h.2.symm⟩
  · rename_i hnone
    constructor
    · intro h
      cases h
    · rintro ⟨h, -⟩
      exact absurd h hnone

theorem exists_name_of_decodeChoice {choices : Choices} {value : Json} {datum : Datum}
    (h : decodeChoice choices value = .ok datum) : ∃ name, decodeName choices name = .ok datum := by
  rw [decodeChoice.eq_def] at h
  split at h
  · exact ⟨_, h⟩
  · obtain ⟨case, hcase, h⟩ := bind_eq_ok_iff.mp h
    split at h
    · cases h
      exact ⟨_, hcase⟩
    · cases h
  · cases h
  · cases h

theorem reverses_choice (choices : Choices) : Reverses (.choice choices) where
  ne_absent := by
    intro value datum h
    rw [decode] at h
    obtain ⟨name, hname⟩ := exists_name_of_decodeChoice h
    obtain ⟨-, rfl⟩ := decodeName_eq_ok_iff.mp hname
    exact fun h => Datum.noConfusion h
  decode_of_encode := by
    intro value datum h
    rw [decode] at h
    obtain ⟨name, hname⟩ := exists_name_of_decodeChoice h
    obtain ⟨hany, rfl⟩ := decodeName_eq_ok_iff.mp hname
    refine ⟨.string name, rfl, ?_, fun h => Json.noConfusion h⟩
    rw [decode]
    exact decodeName_eq_ok_iff.mpr ⟨hany, rfl⟩

theorem decode_union_eq_ok_iff {alternatives : Union} {value : Json} {datum : Datum} :
    decode (.union alternatives) value = .ok datum ↔
      ∃ payload, alternatives.decode value = .ok payload ∧ datum = .union payload := by
  rw [decode]
  cases alternatives.decode value with
  | ok payload =>
      constructor
      · intro h
        cases h
        exact ⟨payload, rfl, rfl⟩
      · rintro ⟨other, h, rfl⟩
        cases h
        rfl
  | error error =>
      constructor
      · intro h
        cases h
      · rintro ⟨payload, h, -⟩
        cases h

theorem reverses_union (alternatives : Union) : Reverses (.union alternatives) where
  ne_absent := by
    intro value datum h
    obtain ⟨payload, -, rfl⟩ := decode_union_eq_ok_iff.mp h
    exact fun h => Datum.noConfusion h
  decode_of_encode := by
    intro value datum h
    obtain ⟨payload, hpayload, rfl⟩ := decode_union_eq_ok_iff.mp h
    exact ⟨Union.encode payload, rfl,
      decode_union_eq_ok_iff.mpr ⟨payload, Union.decode_encode hpayload, rfl⟩,
      fun hnull => Union.eq_null_of_encode_eq_null hpayload hnull⟩

/-! ## Lists and dictionaries -/

theorem reverses_list {item : Shape} (h : Reverses item) : Reverses (.list item) where
  ne_absent := by
    intro value datum hdecode
    cases value with
    | array items =>
        rw [decode] at hdecode
        obtain ⟨decoded, -, heq⟩ := bind_eq_ok_iff.mp hdecode
        cases heq
        exact fun h => Datum.noConfusion h
    | _ => cases hdecode
  decode_of_encode := by
    intro value datum hdecode
    cases value with
    | array items =>
        rw [decode] at hdecode
        obtain ⟨decoded, hdecoded, heq⟩ := bind_eq_ok_iff.mp hdecode
        cases heq
        have hstep (value : Json) (datum : Datum) (hvalue : decode item value = .ok datum) :
            ∃ encoded, encode item datum = some encoded ∧ decode item encoded = .ok datum := by
          obtain ⟨encoded, hencoded, hback, -⟩ := h.decode_of_encode value datum hvalue
          exact ⟨encoded, hencoded, hback⟩
        obtain ⟨encoded, hencoded, hback⟩ := exists_undone_of_mapM hstep hdecoded
        refine ⟨.array encoded, ?_, ?_, fun h => Json.noConfusion h⟩
        · rw [encode_list, hencoded]
          rfl
        · rw [decode]
          exact bind_eq_ok_iff.mpr ⟨decoded, hback, rfl⟩
    | _ => cases hdecode

theorem reverses_dictionary {item : Shape} (h : Reverses item) : Reverses (.dictionary item) where
  ne_absent := by
    intro value datum hdecode
    cases value with
    | object members =>
        rw [decode] at hdecode
        obtain ⟨decoded, -, heq⟩ := bind_eq_ok_iff.mp hdecode
        cases heq
        exact fun h => Datum.noConfusion h
    | _ => cases hdecode
  decode_of_encode := by
    intro value datum hdecode
    cases value with
    | object members =>
        rw [decode] at hdecode
        obtain ⟨decoded, hdecoded, heq⟩ := bind_eq_ok_iff.mp hdecode
        cases heq
        have hundone := exists_undone_of_mapM (g := fun (entry : String × Datum) => do
          let value ← encode item entry.2
          some (entry.1, value)) ?_ hdecoded
        · obtain ⟨encoded, hencoded, hback⟩ := hundone
          refine ⟨.object encoded, ?_, ?_, fun h => Json.noConfusion h⟩
          · rw [encode_dictionary, hencoded]
            rfl
          · rw [decode]
            exact bind_eq_ok_iff.mpr ⟨decoded, hback, rfl⟩
        · rintro ⟨key, value⟩ entry hentry
          obtain ⟨datum, hdatum, heq⟩ := bind_eq_ok_iff.mp hentry
          cases heq
          obtain ⟨encoded, hencoded, hback, -⟩ := h.decode_of_encode value datum hdatum
          exact ⟨(key, encoded), by rw [hencoded]; rfl, bind_eq_ok_iff.mpr ⟨datum, hback, rfl⟩⟩
    | _ => cases hdecode

/-! ## Records -/

variable {fields : List (FieldHead × Shape)}

theorem encodeFields_absent {head : FieldHead} (shape : Shape) (h : head.presence = .optional)
    (values : List Datum) :
    encodeFields ((head, shape) :: fields) (.absent :: values) = encodeFields fields values := by
  obtain ⟨name, presence⟩ := head
  obtain rfl : presence = .optional := h
  rw [encodeFields_cons]
  cases encodeFields fields values <;> rfl

theorem encodeFields_present {head : FieldHead} {shape : Shape} (h : isPlain (head, shape) = true)
    {datum : Datum} (hdatum : datum ≠ .absent) {encoded : Json}
    (hencoded : encode shape datum = some encoded) (values : List Datum) :
    encodeFields ((head, shape) :: fields) (datum :: values) =
      (encodeFields fields values).map ((head.name, encoded) :: ·) := by
  obtain ⟨name, presence⟩ := head
  cases presence with
  | required =>
      rw [encodeFields_cons]
      cases encodeFields fields values with
      | none => rfl
      | some members => simp [hencoded]
  | optional =>
      rw [encodeFields_cons]
      cases encodeFields fields values with
      | none => rfl
      | some members => cases datum <;> first | exact absurd rfl hdatum | simp [hencoded]
  | defaulted value => cases h
  | flattened => cases h

/-- Fields that were read are written. -/
theorem exists_written (hplain : ∀ field ∈ fields, isPlain field = true)
    (hreverses : ∀ field ∈ fields, Reverses field.2) {values : List Datum}
    (h : List.Forall₂ FieldRead fields values) :
    ∃ members, encodeFields fields values = some members ∧ Written fields values members := by
  induction h with
  | nil => exact ⟨[], rfl, .nil⟩
  | @cons field datum fields values hread _ ih =>
      obtain ⟨members, hmembers, hwritten⟩ :=
        ih (fun other hother => hplain other (List.mem_cons_of_mem _ hother))
          (fun other hother => hreverses other (List.mem_cons_of_mem _ hother))
      have hfield := hplain field List.mem_cons_self
      have hreverse := hreverses field List.mem_cons_self
      cases hread with
      | absent hoptional =>
          refine ⟨members, ?_, .skip hoptional hwritten⟩
          rw [encodeFields_absent _ hoptional, hmembers]
      | @present head shape value datum hdecode hnull =>
          obtain ⟨encoded, hencoded, hback, hencodedNull⟩ :=
            hreverse.decode_of_encode value datum hdecode
          -- the encoding is null only if the value was, so it is read as present again
          refine ⟨(head.name, encoded) :: members, ?_, .write ?_ hwritten⟩
          · rw [encodeFields_present hfield (hreverse.ne_absent value datum hdecode) hencoded,
              hmembers]
            rfl
          · rw [decodePresent_of_ne_null fun hoptional hnone =>
              hnull hoptional (hencodedNull hnone)]
            exact hback

theorem encodeFields_cons_eq_some {head : FieldHead} {shape : Shape}
    (h : isFlattened (head, shape) = false) {datum : Datum} {values : List Datum}
    {members : List (String × Json)}
    (hencode : encodeFields ((head, shape) :: fields) (datum :: values) = some members) :
    ∃ rest, encodeFields fields values = some rest ∧
      (members = rest ∨ ∃ encoded, members = (head.name, encoded) :: rest) := by
  rw [encodeFields_cons] at hencode
  obtain ⟨rest, hrest, hencode⟩ := Option.bind_eq_some_iff.mp hencode
  refine ⟨rest, hrest, ?_⟩
  split at hencode
  · exact Or.inl (Option.some.inj hencode).symm
  · rename_i hflattened _
    rw [isFlattened, hflattened] at h
    cases h
  · obtain ⟨encoded, -, hmembers⟩ := Option.bind_eq_some_iff.mp hencode
    exact Or.inr ⟨encoded, (Option.some.inj hmembers).symm⟩

theorem keys_subset_of_encodeFields (hfields : ∀ field ∈ fields, isFlattened field = false)
    {values : List Datum} {members : Entries Json}
    (h : encodeFields fields values = some members) :
    members.keys ⊆ fields.map (·.1.name) := by
  induction fields generalizing values members with
  | nil =>
      cases values with
      | nil =>
          cases h
          exact List.Subset.refl _
      | cons datum values => cases h
  | cons field fields ih =>
      cases values with
      | nil => cases h
      | cons datum values =>
          obtain ⟨rest, hrest, hmembers⟩ :=
            encodeFields_cons_eq_some (hfields field List.mem_cons_self) h
          have hsubset :=
            ih (fun other hother => hfields other (List.mem_cons_of_mem _ hother)) hrest
          rcases hmembers with rfl | ⟨encoded, rfl⟩
          · exact List.Subset.trans hsubset (List.subset_cons_self _ _)
          · exact List.cons_subset_cons _ hsubset

/-- A record is written as an object under the names of its fields. -/
theorem exists_members_of_encode_record (hplain : Plain fields) {name : String} {datum : Datum}
    {encoded : Json} (h : encode (.record name fields) datum = some encoded) :
    ∃ members : Entries Json, encoded = .object members ∧
      members.keys ⊆ fields.map (·.1.name) := by
  cases datum with
  | record values =>
      rw [encode_record] at h
      obtain ⟨members, hmembers, heq⟩ := Option.bind_eq_some_iff.mp h
      cases heq
      exact ⟨members, rfl, keys_subset_of_encodeFields
        (fun field hfield => isFlattened_of_isPlain (hplain.isPlain field hfield)) hmembers⟩
  | _ => cases h

theorem reverses_record (hplain : Plain fields) (hreverses : ∀ field ∈ fields, Reverses field.2)
    (name : String) : Reverses (.record name fields) where
  ne_absent := by
    intro value datum h
    obtain ⟨values, rfl, -⟩ := forall₂_of_decode_record hplain h
    exact fun h => Datum.noConfusion h
  decode_of_encode := by
    intro value datum h
    obtain ⟨values, rfl, hread⟩ := forall₂_of_decode_record hplain h
    obtain ⟨members, hmembers, hwritten⟩ := exists_written hplain.isPlain hreverses hread
    refine ⟨.object members, ?_, decode_record_of_written hplain hwritten,
      fun h => Json.noConfusion h⟩
    rw [encode_record, hmembers]
    rfl

/-! ## Tagged types -/

variable {cases : List (String × Shape)}

theorem encodeCase_eq (name : String) (datum : Datum) :
    encodeCase cases name datum = (Entries.get? cases name).bind (encode · datum) := by
  induction cases with
  | nil => rfl
  | cons case rest ih =>
      obtain ⟨first, shape⟩ := case
      rw [encodeCase_cons, Entries.get?_cons, ih]
      split <;> rfl

theorem decodeCase_eq_ok_iff {base property tag : String} {value : Json} {datum : Datum} :
    decodeCase base property cases tag value = .ok datum ↔
      ∃ shape inner, Entries.get? cases tag = some shape ∧ decode shape value = .ok inner ∧
        datum = .tagged tag inner := by
  induction cases with
  | nil =>
      constructor
      · intro h
        cases h
      · rintro ⟨shape, inner, h, -⟩
        cases h
  | cons case rest ih =>
      obtain ⟨first, shape⟩ := case
      rw [decodeCase, Entries.get?_cons]
      by_cases hfirst : first = tag
      · rw [if_pos hfirst, if_pos hfirst]
        cases hdecode : decode shape value with
        | ok inner =>
            constructor
            · intro h
              cases h
              exact ⟨shape, inner, rfl, hdecode, rfl⟩
            · rintro ⟨other, inner', hother, hinner, rfl⟩
              cases hother
              rw [hdecode] at hinner
              cases hinner
              rfl
        | error error =>
            constructor
            · intro h
              cases h
            · rintro ⟨other, inner', hother, hinner, -⟩
              cases hother
              rw [hdecode] at hinner
              cases hinner
      · rw [if_neg hfirst, if_neg hfirst]
        exact ih

theorem decode_tagged_eq_ok_iff {base property : String} {value : Json} {datum : Datum} :
    decode (.tagged base property cases) value = .ok datum ↔
      ∃ tag shape inner, readTag base property value = .ok tag ∧
        Entries.get? cases tag = some shape ∧ decode shape value = .ok inner ∧
        datum = .tagged tag inner := by
  rw [decode]
  cases readTag base property value with
  | error error =>
      constructor
      · intro h
        cases h
      · rintro ⟨tag, shape, inner, h, -⟩
        cases h
  | ok tag =>
      have hcase : ((decodeCase base property cases tag value).mapError DecodeError.codec =
          .ok datum) ↔ decodeCase base property cases tag value = .ok datum := by
        cases decodeCase base property cases tag value <;> simp [Except.mapError]
      rw [hcase, decodeCase_eq_ok_iff]
      constructor
      · rintro ⟨shape, inner, hrest⟩
        exact ⟨tag, shape, inner, rfl, hrest⟩
      · rintro ⟨other, shape, inner, h, hrest⟩
        cases h
        exact ⟨shape, inner, hrest⟩

/-- The tag is written first, and the record of the case passes over it. -/
theorem reverses_tagged {base property : String}
    (hrecords : ∀ case ∈ cases, ∃ name fields, case.2 = .record name fields ∧ Plain fields ∧
      property ∉ fields.map (·.1.name))
    (hreverses : ∀ case ∈ cases, Reverses case.2) : Reverses (.tagged base property cases) where
  ne_absent := by
    intro value datum h
    rw [decode_tagged_eq_ok_iff] at h
    obtain ⟨tag, shape, inner, -, -, -, rfl⟩ := h
    exact fun h => Datum.noConfusion h
  decode_of_encode := by
    intro value datum h
    rw [decode_tagged_eq_ok_iff] at h
    obtain ⟨tag, shape, inner, -, hshape, hinner, rfl⟩ := h
    have hmem := Entries.mem_of_get?_eq_some hshape
    obtain ⟨name, fields, rfl, hplain, hproperty⟩ := hrecords _ hmem
    obtain ⟨encoded, hencoded, hback, -⟩ := (hreverses _ hmem).decode_of_encode value inner hinner
    obtain ⟨members, rfl, hkeys⟩ := exists_members_of_encode_record hplain hencoded
    -- the case wrote nothing under the tag that `writeTag` could drop
    have herase : Entries.erase members property = members :=
      Entries.erase_eq_self fun hkey => hproperty (hkeys hkey)
    refine ⟨.object ((property, .string tag) :: members), ?_, ?_, fun h => Json.noConfusion h⟩
    · rw [encode_tagged, encodeCase_eq, hshape]
      show (encode (.record name fields) inner).bind _ = _
      rw [hencoded, Option.bind_some, writeTag, herase]
      rfl
    · have htag : readTag base property (.object ((property, .string tag) :: members)) =
          .ok tag := by
        rw [readTag, Entries.get?_cons, if_pos rfl]
        rfl
      rw [decode_tagged_eq_ok_iff]
      exact ⟨tag, _, inner, htag, hshape, (decode_record_cons hplain hproperty _ _).mpr hback, rfl⟩

/-! ## Untagged types -/

theorem decode_untagged_eq_ok_iff {name : String} {value : Json} {datum : Datum} :
    decode (.untagged name cases) value = .ok datum ↔ decodeFirst cases value = some datum := by
  rw [decode]
  cases decodeFirst cases value <;> simp

theorem exists_case_of_decodeFirst {value : Json} {datum : Datum}
    (h : decodeFirst cases value = some datum) :
    ∃ front name shape back inner, cases = front ++ (name, shape) :: back ∧
      decode shape value = .ok inner ∧ datum = .variant name inner := by
  induction cases with
  | nil => cases h
  | cons case rest ih =>
      obtain ⟨name, shape⟩ := case
      rw [decodeFirst_cons] at h
      split at h
      · rename_i inner hinner
        cases h
        exact ⟨[], name, shape, rest, inner, rfl, hinner, rfl⟩
      · obtain ⟨front, other, found, back, inner, rfl, hinner, rfl⟩ := ih h
        exact ⟨(name, shape) :: front, other, found, back, inner, rfl, hinner, rfl⟩

theorem decodeFirst_append {front : List (String × Shape)} {value : Json}
    (h : ∀ case ∈ front, ∀ datum, decode case.2 value ≠ .ok datum)
    (back : List (String × Shape)) : decodeFirst (front ++ back) value = decodeFirst back value := by
  induction front with
  | nil => rfl
  | cons case front ih =>
      obtain ⟨name, shape⟩ := case
      rw [List.cons_append, decodeFirst_cons]
      split
      · rename_i datum hdatum
        exact absurd hdatum (h _ List.mem_cons_self datum)
      · exact ih fun other hother => h other (List.mem_cons_of_mem _ hother)

theorem get?_append_of_areApart {front back : List (String × Shape)} {name : String}
    {shape : Shape} (h : ∀ case ∈ front, areApart case (name, shape) = true) :
    Entries.get? (front ++ (name, shape) :: back) name = some shape := by
  induction front with
  | nil => rw [List.nil_append, Entries.get?_cons, if_pos rfl]
  | cons case front ih =>
      obtain ⟨first, other⟩ := case
      have hapart := h _ List.mem_cons_self
      rw [areApart, Bool.and_eq_true, decide_eq_true_eq] at hapart
      rw [List.cons_append, Entries.get?_cons, if_neg hapart.1]
      exact ih fun other hother => h other (List.mem_cons_of_mem _ hother)

theorem mem_requiredNames_iff {record name : String} :
    name ∈ requiredNames (.record record fields) ↔
      ∃ field ∈ fields, field.1.presence = .required ∧ field.1.name = name := by
  rw [requiredNames, List.mem_filterMap]
  refine exists_congr fun field => and_congr_right fun _ => ?_
  obtain ⟨⟨other, presence⟩, shape⟩ := field
  cases presence <;> simp

/-- An earlier case misses a field in what a later one wrote. -/
theorem decode_ne_ok_of_areApart {first second : String × Shape}
    (hapart : areApart first second = true) (hrecord : first.2.isRecord = true)
    (hreversible : isReversible first.2 = true) {members : Entries Json}
    (hkeys : members.keys ⊆ second.2.writtenNames) (datum : Datum) :
    decode first.2 (.object members) ≠ .ok datum := by
  intro hdecode
  obtain ⟨record, fields, hshape, hplain⟩ := exists_plain_of_isRecord hrecord hreversible
  rw [areApart, Bool.and_eq_true, List.any_eq_true] at hapart
  obtain ⟨-, name, hname, hfree⟩ := hapart
  rw [hshape] at hdecode hname
  rw [mem_requiredNames_iff] at hname
  obtain ⟨field, hfield, hrequired, rfl⟩ := hname
  have hmem := hkeys (mem_of_decode_record hplain hdecode hfield hrequired)
  rw [List.contains_iff_mem.mpr hmem] at hfree
  cases hfree

theorem reverses_untagged {name : String} (hrecords : ∀ case ∈ cases, case.2.isRecord = true)
    (hapart : cases.Pairwise fun a b => areApart a b = true)
    (hreversible : casesReversible cases = true)
    (hreverses : ∀ case ∈ cases, Reverses case.2) : Reverses (.untagged name cases) where
  ne_absent := by
    intro value datum h
    rw [decode_untagged_eq_ok_iff] at h
    obtain ⟨front, case, shape, back, inner, -, -, rfl⟩ := exists_case_of_decodeFirst h
    exact fun h => Datum.noConfusion h
  decode_of_encode := by
    intro value datum h
    rw [decode_untagged_eq_ok_iff] at h
    obtain ⟨front, case, shape, back, inner, rfl, hinner, rfl⟩ := exists_case_of_decodeFirst h
    have hmem : (case, shape) ∈ front ++ (case, shape) :: back :=
      List.mem_append_right _ List.mem_cons_self
    obtain ⟨record, fields, hshape, hplain⟩ :=
      exists_plain_of_isRecord (hrecords _ hmem) (isReversible_of_mem_cases hreversible hmem)
    obtain ⟨encoded, hencoded, hback, -⟩ := (hreverses _ hmem).decode_of_encode value inner hinner
    obtain rfl : shape = .record record fields := hshape
    obtain ⟨members, rfl, hkeys⟩ := exists_members_of_encode_record hplain hencoded
    -- every case in front of this one refuses what it writes
    have hfront : ∀ other ∈ front, areApart other (case, .record record fields) = true :=
      fun other hother => (List.pairwise_append.mp hapart).2.2 other hother _ List.mem_cons_self
    refine ⟨.object members, ?_, ?_, fun h => Json.noConfusion h⟩
    · rw [encode_untagged, encodeCase_eq, get?_append_of_areApart hfront]
      exact hencoded
    · rw [decode_untagged_eq_ok_iff, decodeFirst_append, decodeFirst_cons]
      · rw [show decode (.record record fields) (.object members) = .ok inner from hback]
      · intro other hother
        have hother' := List.mem_append_left ((case, .record record fields) :: back) hother
        exact decode_ne_ok_of_areApart (hfront other hother) (hrecords other hother')
          (isReversible_of_mem_cases hreversible hother') hkeys

/-! ## All shapes -/

mutual

/-- By recursion on the shape, one lemma for each form. -/
theorem reverses_of_isReversible (shape : Shape) (h : isReversible shape = true) :
    Reverses shape := by
  cases shape with
  | text => exact reverses_text
  | path => exact reverses_path
  | flag => exact reverses_flag
  | float => exact reverses_float
  | integer width => exact reverses_integer width
  | any => exact reverses_any
  | list item =>
      rw [isReversible] at h
      exact reverses_list (reverses_of_isReversible item h)
  | dictionary item =>
      rw [isReversible] at h
      exact reverses_dictionary (reverses_of_isReversible item h)
  | record name fields =>
      rw [isReversible, Bool.and_eq_true, decide_eq_true_eq] at h
      exact reverses_record h.1 (reverses_of_fieldsReversible fields h.2) name
  | choice choices => exact reverses_choice choices
  | integerEnum members => exact reverses_integerEnum members
  | union alternatives => exact reverses_union alternatives
  | tagged base property cases =>
      rw [isReversible, Bool.and_eq_true, List.all_eq_true] at h
      refine reverses_tagged (fun case hcase => ?_) (reverses_of_casesReversible cases h.2)
      have hrecord := h.1 case hcase
      rw [Bool.and_eq_true] at hrecord
      obtain ⟨name, fields, hshape, hplain⟩ :=
        exists_plain_of_isRecord hrecord.1 (isReversible_of_mem_cases h.2 hcase)
      refine ⟨name, fields, hshape, hplain, ?_⟩
      simpa [hshape, writtenNames] using hrecord.2
  | untagged name cases =>
      rw [isReversible, Bool.and_eq_true, Bool.and_eq_true, List.all_eq_true,
        decide_eq_true_eq] at h
      exact reverses_untagged h.1.1 h.1.2 h.2 (reverses_of_casesReversible cases h.2)

theorem reverses_of_fieldsReversible (fields : List (FieldHead × Shape))
    (h : fieldsReversible fields = true) : ∀ field ∈ fields, Reverses field.2 := by
  cases fields with
  | nil => exact fun field hfield => absurd hfield List.not_mem_nil
  | cons field rest =>
      obtain ⟨head, shape⟩ := field
      rw [fieldsReversible, Bool.and_eq_true] at h
      intro other hother
      rcases List.mem_cons.mp hother with rfl | hother
      · exact reverses_of_isReversible shape h.1
      · exact reverses_of_fieldsReversible rest h.2 other hother

theorem reverses_of_casesReversible (cases : List (String × Shape))
    (h : casesReversible cases = true) : ∀ case ∈ cases, Reverses case.2 := by
  cases cases with
  | nil => exact fun case hcase => absurd hcase List.not_mem_nil
  | cons case rest =>
      obtain ⟨name, shape⟩ := case
      rw [casesReversible, Bool.and_eq_true] at h
      intro other hother
      rcases List.mem_cons.mp hother with rfl | hother
      · exact reverses_of_isReversible shape h.1
      · exact reverses_of_casesReversible rest h.2 other hother

end

end Shape

/-! ## Protocol types -/

namespace Protocol

/-- **Every protocol type reads back what it read.** -/
theorem types_read_back {name : String} {shape : Shape} (hmem : (name, shape) ∈ types)
    {value : Json} {datum : Datum} (h : shape.decode value = .ok datum) :
    ∃ encoded, shape.encode datum = some encoded ∧ shape.decode encoded = .ok datum := by
  have hall : ∀ entry ∈ types, entry.2.isReversible = true := by decide
  have hreverses := Shape.reverses_of_isReversible shape (hall _ hmem)
  obtain ⟨encoded, hencoded, hback, -⟩ := hreverses.decode_of_encode value datum h
  exact ⟨encoded, hencoded, hback⟩

/-- A blob in array form, beside a null and an unknown member. -/
def blobBlock : Json :=
  .object
    [("_meta", .null), ("type", .string "resource"), ("unknown", .bool true),
      ("resource", .array [.null, .string "Zg==", .null, .string "file:///f"])]

def blobDatum : Datum :=
  .tagged "resource" <| .record
    [.absent, .absent,
      .variant "BlobResourceContents"
        (.record [.absent, .text "Zg==", .absent, .text "file:///f"])]

theorem types_read_back_blob :
    contentBlock.decode blobBlock = .ok blobDatum ∧
      ∃ encoded, contentBlock.encode blobDatum = some encoded ∧
        contentBlock.decode encoded = .ok blobDatum := by
  have hmem : ("ContentBlock", contentBlock) ∈ types := List.get_mem types ⟨11, by decide⟩
  have hdecode : contentBlock.decode blobBlock = .ok blobDatum := rfl
  exact ⟨hdecode, types_read_back hmem hdecode⟩

end Protocol

end SchemaCompiler.Wire
