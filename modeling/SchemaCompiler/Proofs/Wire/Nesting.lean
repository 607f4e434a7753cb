import SchemaCompiler.Proofs.Wire.Discriminator
import SchemaCompiler.Proofs.Wire.RoundTrip

/-!
# Nested tags

A case of a tagged type may hold another tagged type whole: the record of the case ends with a
flattened field, and both types share one object.  The record reads its own keys and leaves the
other members to the flattened field, and it writes its own members before those of the flattened
field.

A `Layer` is what one tagged type contributes to such an object.  As long as no inner tag is an
outer tag or a key of an outer record (`TagsApart`), every layer finds its tag in the members that
the outer ones leave over, and no layer drops the tag of an inner one when it writes its own
(`sharesObject_of_tagsApart`).
-/

namespace SchemaCompiler

namespace Wire

open Fallible

/-- What one tagged type contributes to an object: its name, its tag, the case it is in, and the
keys that the record of the case has for itself. -/
structure Layer where
  base : String
  property : String
  value : String
  keys : List String
deriving DecidableEq, Repr

/-- No inner tag is an outer tag or a key of an outer record. -/
def TagsApart (layers : List Layer) : Prop :=
  layers.Pairwise fun outer inner =>
    inner.property ≠ outer.property ∧ inner.property ∉ outer.keys

instance (layers : List Layer) : Decidable (TagsApart layers) :=
  inferInstanceAs (Decidable (layers.Pairwise _))

theorem TagsApart.properties_nodup {layers : List Layer} (h : TagsApart layers) :
    (layers.map (·.property)).Nodup := by
  refine List.pairwise_map.mpr (h.imp ?_)
  intro outer inner hapart
  exact Ne.symm hapart.1

/-- The object carries the tag of a layer. -/
def Layer.TaggedIn (layer : Layer) (value : Json) : Prop :=
  readTag layer.base layer.property value = .ok layer.value

/-! ## Records that end with a flattened field -/

namespace Shape

variable {fields : List (FieldHead × Shape)} {head : FieldHead} {inner : Shape}

theorem hasField_snoc (hfields : ∀ field ∈ fields, isFlattened field = false)
    (hhead : isFlattened (head, inner) = true) (key : String) :
    hasField (fields ++ [(head, inner)]) key = true ↔ key ∈ fields.map (·.1.name) := by
  rw [hasField, List.any_append, List.any_cons, hhead, List.any_nil]
  simp only [Bool.not_true, Bool.false_and, Bool.or_false, List.any_eq_true, Bool.and_eq_true,
    Bool.not_eq_true', decide_eq_true_eq, List.mem_map]
  constructor
  · rintro ⟨field, hfield, -, hname⟩
    exact ⟨field, hfield, hname⟩
  · rintro ⟨field, hfield, hname⟩
    exact ⟨field, hfield, hfields field hfield, hname⟩

/-- Whatever a field finds, the other fields go on from there. -/
theorem exists_collect_cons (decoded : List (String × Datum)) (field : FieldHead × Shape) :
    ∃ first, collect decoded (field :: fields) = (do
      let value ← first
      let values ← collect decoded fields
      pure (value :: values)) := by
  rw [collect]
  cases isFlattened field with
  | true => exact ⟨pure .absent, rfl⟩
  | false =>
      cases decoded.lookup field.1.name with
      | some value => exact ⟨pure value, rfl⟩
      | none => exact ⟨missing field.1, rfl⟩

theorem length_of_collect {decoded : List (String × Datum)} {values : List Datum}
    (h : collect decoded fields = .ok values) : values.length = fields.length := by
  induction fields generalizing values with
  | nil =>
      rw [collect] at h
      cases h
      rfl
  | cons field fields ih =>
      obtain ⟨first, hfirst⟩ := exists_collect_cons decoded field
      rw [hfirst] at h
      obtain ⟨value, -, h⟩ := bind_eq_ok_iff.mp h
      obtain ⟨rest, hrest, h⟩ := bind_eq_ok_iff.mp h
      cases h
      rw [List.length_cons, List.length_cons, ih hrest]

/-- The flattened field decodes what the others leave over, and its datum comes last. -/
theorem decodeFlattened_snoc (hfields : ∀ field ∈ fields, isFlattened field = false)
    (hhead : isFlattened (head, inner) = true) {unclaimed : Json} {values decoded : List Datum}
    (hlength : values.length = fields.length + 1)
    (h : decodeFlattened (fields ++ [(head, inner)]) unclaimed values = .ok decoded) :
    ∃ front nested, decoded = front ++ [nested] ∧ decode inner unclaimed = .ok nested := by
  induction fields generalizing values decoded with
  | nil =>
      obtain ⟨value, rfl⟩ := List.length_eq_one_iff.mp hlength
      rw [List.nil_append, decodeFlattened, hhead, if_pos rfl] at h
      obtain ⟨nested, hnested, h⟩ := bind_eq_ok_iff.mp h
      obtain ⟨rest, hrest, h⟩ := bind_eq_ok_iff.mp h
      cases hrest
      cases h
      exact ⟨[], nested, rfl, hnested⟩
  | cons field fields ih =>
      obtain ⟨fieldHead, shape⟩ := field
      cases values with
      | nil => cases hlength
      | cons value values =>
          rw [List.cons_append, decodeFlattened, hfields _ List.mem_cons_self,
            if_neg Bool.false_ne_true] at h
          obtain ⟨own, -, h⟩ := bind_eq_ok_iff.mp h
          obtain ⟨rest, hrest, h⟩ := bind_eq_ok_iff.mp h
          cases h
          obtain ⟨front, nested, rfl, hnested⟩ :=
            ih (fun other hother => hfields other (List.mem_cons_of_mem _ hother))
              (Nat.succ.inj hlength) hrest
          exact ⟨own :: front, nested, rfl, hnested⟩

theorem decode_record_snoc (hfields : ∀ field ∈ fields, isFlattened field = false)
    (hhead : isFlattened (head, inner) = true) {name : String} {members : List (String × Json)}
    {datum : Datum}
    (h : decode (.record name (fields ++ [(head, inner)])) (.object members) = .ok datum) :
    ∃ front nested, datum = .record (front ++ [nested]) ∧
      decode inner (.object (members.filter fun (key, _) =>
        !hasField (fields ++ [(head, inner)]) key)) = .ok nested := by
  rw [decode] at h
  obtain ⟨decoded, -, h⟩ := bind_eq_ok_iff.mp h
  obtain ⟨values, hvalues, h⟩ := bind_eq_ok_iff.mp h
  obtain ⟨filled, hfilled, h⟩ := bind_eq_ok_iff.mp h
  cases h
  have hlength := length_of_collect hvalues
  rw [List.length_append] at hlength
  obtain ⟨front, nested, rfl, hnested⟩ := decodeFlattened_snoc hfields hhead hlength hfilled
  exact ⟨front, nested, rfl, hnested⟩

/-- The members of the flattened field are written behind those of the others. -/
theorem encodeFields_snoc (hfields : ∀ field ∈ fields, isFlattened field = false)
    (hhead : head.presence = .flattened) {front : List Datum} {nested : Datum}
    {members : List (String × Json)}
    (h : encodeFields (fields ++ [(head, inner)]) (front ++ [nested]) = some members) :
    ∃ own shared, members = own ++ shared ∧ Entries.keys own ⊆ fields.map (·.1.name) ∧
      encode inner nested = some (.object shared) := by
  induction fields generalizing front members with
  | nil =>
      cases front with
      | nil =>
          rw [List.nil_append, List.nil_append, encodeFields_cons] at h
          obtain ⟨rest, hrest, h⟩ := Option.bind_eq_some_iff.mp h
          cases hrest
          rw [hhead] at h
          obtain ⟨written, hwritten, h⟩ := Option.bind_eq_some_iff.mp h
          obtain ⟨shared, hshared, h⟩ := Option.bind_eq_some_iff.mp h
          cases written with
          | object found =>
              obtain rfl : found = shared := Option.some.inj hshared
              cases h
              exact ⟨[], found, by rw [List.append_nil, List.nil_append],
                List.Subset.refl _, hwritten⟩
          | _ => cases hshared
      | cons value front =>
          rw [List.nil_append, List.cons_append, encodeFields_cons] at h
          obtain ⟨rest, hrest, h⟩ := Option.bind_eq_some_iff.mp h
          cases front <;> cases hrest
  | cons field fields ih =>
      obtain ⟨fieldHead, shape⟩ := field
      cases front with
      | nil =>
          rw [List.cons_append, List.nil_append] at h
          obtain ⟨rest, hrest, -⟩ :=
            encodeFields_cons_eq_some (hfields _ List.mem_cons_self) h
          cases fields <;> cases hrest
      | cons value front =>
          rw [List.cons_append, List.cons_append] at h
          obtain ⟨rest, hrest, hmembers⟩ :=
            encodeFields_cons_eq_some (hfields _ List.mem_cons_self) h
          obtain ⟨own, shared, rfl, hkeys, hinner⟩ :=
            ih (fun other hother => hfields other (List.mem_cons_of_mem _ hother)) hrest
          rcases hmembers with rfl | ⟨encoded, rfl⟩
          · exact ⟨own, shared, rfl, List.Subset.trans hkeys (List.subset_cons_self _ _), hinner⟩
          · exact ⟨(fieldHead.name, encoded) :: own, shared, rfl, List.cons_subset_cons _ hkeys,
              hinner⟩

/-- The tag is written before the members of the case. -/
theorem exists_members_of_encode_tagged {base property tag : String}
    {cases : List (String × Shape)} {datum : Datum} {written : Json}
    (h : encode (.tagged base property cases) (.tagged tag datum) = some written) :
    ∃ shape members, Entries.get? cases tag = some shape ∧
      encode shape datum = some (.object members) ∧
      written = .object ((property, .string tag) :: Entries.erase members property) := by
  rw [encode_tagged, encodeCase_eq] at h
  obtain ⟨encoded, hencoded, h⟩ := Option.bind_eq_some_iff.mp h
  obtain ⟨shape, hshape, hencoded⟩ := Option.bind_eq_some_iff.mp hencoded
  obtain ⟨members, hmembers, h⟩ := Option.bind_eq_some_iff.mp h
  cases encoded with
  | object found =>
      cases hmembers
      exact ⟨shape, found, hshape, hencoded, (Option.some.inj h).symm⟩
  | _ => cases hmembers

end Shape

/-! ## Shapes and data with layers -/

/-- A shape with a type for every layer, each but the last holding the next one whole. -/
inductive Layered : List Layer → Shape → Prop where
  | last {layer : Layer} {cases : List (String × Shape)} {name : String}
      {fields : List (FieldHead × Shape)}
      (hcase : Entries.get? cases layer.value = some (.record name fields)) :
      Layered [layer] (.tagged layer.base layer.property cases)
  | nested {layer : Layer} {rest : List Layer} {cases : List (String × Shape)} {name : String}
      {fields : List (FieldHead × Shape)} {head : FieldHead} {inner : Shape}
      (hcase : Entries.get? cases layer.value = some (.record name (fields ++ [(head, inner)])))
      (hfields : ∀ field ∈ fields, Shape.isFlattened field = false)
      (hkeys : fields.map (·.1.name) = layer.keys) (hhead : head.presence = .flattened)
      (hinner : Layered rest inner) :
      Layered (layer :: rest) (.tagged layer.base layer.property cases)

/-- A datum that is in the case of every layer. -/
inductive Takes : List Layer → Datum → Prop where
  | last (layer : Layer) (datum : Datum) : Takes [layer] (.tagged layer.value datum)
  | nested {rest : List Layer} {inner : Datum} (layer : Layer) (front : List Datum)
      (hinner : Takes rest inner) :
      Takes (layer :: rest) (.tagged layer.value (.record (front ++ [inner])))

theorem Takes.exists_tagged {layer : Layer} {rest : List Layer} {datum : Datum}
    (h : Takes (layer :: rest) datum) : ∃ inner, datum = .tagged layer.value inner := by
  cases h with
  | last _ inner => exact ⟨inner, rfl⟩
  | nested _ front _ => exact ⟨_, rfl⟩

/-- A datum in the case of the first layer goes on as its last field does. -/
theorem takes_nested_iff {layer : Layer} {rest : List Layer} {front : List Datum} {inner : Datum}
    (hrest : rest ≠ []) :
    Takes (layer :: rest) (.tagged layer.value (.record (front ++ [inner]))) ↔
      Takes rest inner := by
  constructor
  · intro h
    generalize hdatum : Datum.tagged layer.value (.record (front ++ [inner])) = datum at h
    cases h with
    | last => exact absurd rfl hrest
    | nested layer front' hinner =>
        obtain ⟨-, hrecord⟩ := Datum.tagged.inj hdatum
        obtain ⟨-, hlast⟩ := List.append_inj' (Datum.record.inj hrecord) rfl
        obtain rfl := List.singleton_inj.mp hlast
        exact hinner
  · intro h
    exact .nested layer front h

/-- Layers that can share one object: it is read along the layers exactly if it carries all of
their tags, and whatever is along the layers is written with all of their tags. -/
structure SharesObject (layers : List Layer) : Prop where
  reads {shape : Shape} (hshape : Layered layers shape) {members : List (String × Json)}
    {datum : Datum} (h : shape.decode (.object members) = .ok datum) :
    Takes layers datum ↔ ∀ layer ∈ layers, layer.TaggedIn (.object members)
  writes {shape : Shape} (hshape : Layered layers shape) {datum : Datum}
    (hdatum : Takes layers datum) {written : Json} (h : shape.encode datum = some written) :
    ∃ members, written = .object members ∧
      ∀ layer ∈ layers, Entries.get? members layer.property = some (.string layer.value)

theorem Layered.ne_nil {layers : List Layer} {shape : Shape} (h : Layered layers shape) :
    layers ≠ [] := by
  cases h <;> exact List.cons_ne_nil _ _

theorem Layer.taggedIn_filter {layer : Layer} {keep : String × Json → Bool}
    (h : ∀ value, keep (layer.property, value) = true) {members : List (String × Json)} :
    layer.TaggedIn (.object (members.filter keep)) ↔ layer.TaggedIn (.object members) := by
  rw [TaggedIn, TaggedIn, readTag_congr (Entries.get?_filter h)]

/-- The tag of a layer tells whether the datum is in its case. -/
theorem Layer.taggedIn_iff_of_decode {layer : Layer} {cases : List (String × Shape)} {value : Json}
    {datum : Datum} (h : (Shape.tagged layer.base layer.property cases).decode value = .ok datum) :
    layer.TaggedIn value ↔ ∃ inner, datum = .tagged layer.value inner := by
  obtain ⟨tag, found, inner, htag, -, -, rfl⟩ := Shape.decode_tagged_eq_ok_iff.mp h
  rw [TaggedIn, htag]
  constructor
  · intro heq
    obtain rfl := Except.ok.inj heq
    exact ⟨inner, rfl⟩
  · rintro ⟨inner', heq⟩
    exact congrArg Except.ok (Datum.tagged.inj heq).1

/-- In the case of a layer that holds another type, that type reads what the record leaves over. -/
theorem Layer.exists_nested_of_decode {layer : Layer} {cases : List (String × Shape)}
    {name : String} {fields : List (FieldHead × Shape)} {head : FieldHead} {inner : Shape}
    (hcase : Entries.get? cases layer.value = some (.record name (fields ++ [(head, inner)])))
    (hfields : ∀ field ∈ fields, Shape.isFlattened field = false)
    (hhead : Shape.isFlattened (head, inner) = true) {members : List (String × Json)}
    {datum : Datum}
    (h : (Shape.tagged layer.base layer.property cases).decode (.object members) = .ok datum)
    (htag : layer.TaggedIn (.object members)) :
    ∃ front nested, datum = .tagged layer.value (.record (front ++ [nested])) ∧
      inner.decode (.object (members.filter fun (key, _) =>
        !Shape.hasField (fields ++ [(head, inner)]) key)) = .ok nested := by
  obtain ⟨tag, found, datum, hread, hfound, hdecode, rfl⟩ := Shape.decode_tagged_eq_ok_iff.mp h
  obtain rfl : tag = layer.value := Except.ok.inj (hread.symm.trans htag)
  obtain rfl := Option.some.inj (hcase.symm.trans hfound)
  obtain ⟨front, nested, rfl, hnested⟩ := Shape.decode_record_snoc hfields hhead hdecode
  exact ⟨front, nested, rfl, hnested⟩

/-- Every layer reads its own tag from the members that the outer ones leave over. -/
theorem takes_iff_of_decode {layers : List Layer} {shape : Shape} (hshape : Layered layers shape)
    (hapart : TagsApart layers) {members : List (String × Json)} {datum : Datum}
    (h : shape.decode (.object members) = .ok datum) :
    Takes layers datum ↔ ∀ layer ∈ layers, layer.TaggedIn (.object members) := by
  induction hshape generalizing members datum with
  | @last layer cases name fields hcase =>
      rw [List.forall_mem_singleton, Layer.taggedIn_iff_of_decode h]
      constructor
      · exact Takes.exists_tagged
      · rintro ⟨inner, rfl⟩
        exact .last layer inner
  | @nested layer rest cases name fields head inner hcase hfields hkeys hhead hinner ih =>
      obtain ⟨hlayer, hrest⟩ := List.pairwise_cons.mp hapart
      have hflattened : Shape.isFlattened (head, inner) = true := by
        rw [Shape.isFlattened, hhead]
      rw [List.forall_mem_cons]
      by_cases htag : layer.TaggedIn (.object members)
      · obtain ⟨front, nested, rfl, hnested⟩ :=
          Layer.exists_nested_of_decode hcase hfields hflattened h htag
        -- the record of the layer leaves the inner tags over
        have hleft : ∀ other ∈ rest, other.TaggedIn (.object (members.filter fun (key, _) =>
            !Shape.hasField (fields ++ [(head, inner)]) key)) ↔ other.TaggedIn (.object members) := by
          intro other hother
          refine Layer.taggedIn_filter fun value => ?_
          have hkey := (hlayer other hother).2
          rw [← hkeys, ← Shape.hasField_snoc hfields hflattened] at hkey
          simpa using hkey
        rw [takes_nested_iff hinner.ne_nil, ih hrest hnested, forall₂_congr hleft]
        exact (and_iff_right htag).symm
      · constructor
        · intro htakes
          exact absurd ((Layer.taggedIn_iff_of_decode h).mpr htakes.exists_tagged) htag
        · rintro ⟨hread, -⟩
          exact absurd hread htag

/-- In the case of a layer that holds another type, what that type writes comes last, without the
tag of the layer. -/
theorem Layer.exists_shared_of_encode {layer : Layer} {cases : List (String × Shape)}
    {name : String} {fields : List (FieldHead × Shape)} {head : FieldHead} {inner : Shape}
    (hcase : Entries.get? cases layer.value = some (.record name (fields ++ [(head, inner)])))
    (hfields : ∀ field ∈ fields, Shape.isFlattened field = false)
    (hhead : head.presence = .flattened) {front : List Datum} {nested : Datum} {written : Json}
    (h : (Shape.tagged layer.base layer.property cases).encode
      (.tagged layer.value (.record (front ++ [nested]))) = some written) :
    ∃ own shared, written = .object ((layer.property, .string layer.value) ::
        Entries.erase (own ++ shared) layer.property) ∧
      Entries.keys own ⊆ fields.map (·.1.name) ∧ inner.encode nested = some (.object shared) := by
  obtain ⟨shape, members, hshape, hencode, rfl⟩ := Shape.exists_members_of_encode_tagged h
  obtain rfl := Option.some.inj (hcase.symm.trans hshape)
  rw [Shape.encode_record] at hencode
  obtain ⟨found, hfound, hobject⟩ := Option.bind_eq_some_iff.mp hencode
  obtain rfl : found = members := Json.object.inj (Option.some.inj hobject)
  obtain ⟨own, shared, rfl, hown, hshared⟩ := Shape.encodeFields_snoc hfields hhead hfound
  exact ⟨own, shared, rfl, hown, hshared⟩

/-- No layer drops the tag of an inner one. -/
theorem tags_of_encode {layers : List Layer} {shape : Shape} (hshape : Layered layers shape)
    (hapart : TagsApart layers) {datum : Datum} (hdatum : Takes layers datum) {written : Json}
    (h : shape.encode datum = some written) :
    ∃ members, written = .object members ∧
      ∀ layer ∈ layers, Entries.get? members layer.property = some (.string layer.value) := by
  induction hshape generalizing datum written with
  | @last layer cases name fields hcase =>
      obtain ⟨inner, rfl⟩ := hdatum.exists_tagged
      obtain ⟨shape, members, -, -, rfl⟩ := Shape.exists_members_of_encode_tagged h
      refine ⟨_, rfl, List.forall_mem_singleton.mpr ?_⟩
      rw [Entries.get?_cons, if_pos rfl]
  | @nested layer rest cases name fields head inner hcase hfields hkeys hhead hinner ih =>
      obtain ⟨hlayer, hrest⟩ := List.pairwise_cons.mp hapart
      cases hdatum with
      | last => exact absurd rfl hinner.ne_nil
      | nested _ front hnested =>
          obtain ⟨own, shared, rfl, hown, hshared⟩ :=
            Layer.exists_shared_of_encode hcase hfields hhead h
          obtain ⟨inside, hinside, htags⟩ := ih hrest hnested hshared
          obtain rfl := Json.object.inj hinside
          refine ⟨_, rfl, List.forall_mem_cons.mpr ⟨?_, fun other hother => ?_⟩⟩
          · rw [Entries.get?_cons, if_pos rfl]
          · -- the tag of an inner layer passes the outer tag and the outer keys
            obtain ⟨hproperty, hkey⟩ := hlayer other hother
            have herase : Entries.get? (Entries.erase (own ++ shared) layer.property)
                other.property = Entries.get? (own ++ shared) other.property :=
              Entries.get?_filter fun value => decide_eq_true hproperty
            rw [Entries.get?_cons, if_neg (Ne.symm hproperty), herase,
              Entries.get?_append_of_notMem fun hmem => hkey (hkeys ▸ hown hmem)]
            exact htags other hother

theorem sharesObject_of_tagsApart {layers : List Layer} (h : TagsApart layers) :
    SharesObject layers where
  reads := by
    intro shape hshape members datum hdecode
    exact takes_iff_of_decode hshape h hdecode
  writes := by
    intro shape hshape datum hdatum written hencode
    exact tags_of_encode hshape h hdatum hencode

end Wire

end SchemaCompiler
