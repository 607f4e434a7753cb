import SchemaCompiler.Proofs.Model.Nesting
import SchemaCompiler.Proofs.Naming.Identifier
import SchemaCompiler.Proofs.Render.WireName

/-!
# Identifiers of fields

The field of a property gets a number if its identifier is in use, and identifiers are compared as
they are written, escapes included.  The field that holds a nested sum type is compared by its bare
identifier instead.  So fields with keys are always written apart, and a flattened field is written
like one of them exactly if the type name of its definition gives the escaped form of a reserved
word that the other one has for its identifier (`Model.written_identifiers`).  A definition `Self`
that is nested beside a property `self` does that (`pivot_writes_twice`).
-/

namespace SchemaCompiler

open Fallible

/-- The identifier of a field as it stands in a rendered record. -/
def Field.written (field : Field) : String :=
  Profile.standard.escape field.identifier

/-- Fields with keys, whose identifiers are plain and written apart. -/
structure OfProperties (fields : List Field) : Prop where
  presence_ne : ∀ field ∈ fields, field.presence ≠ .flattened
  isPlain : ∀ field ∈ fields, Naming.IsPlain field.identifier.toList
  nodup : (fields.map Field.written).Nodup

/-- A flattened field is named after the type that it holds, with a number behind the name if other
fields have the identifier. -/
structure Embeds (others : List Field) (field : Field) (target : String) : Prop where
  presence_eq : field.presence = .flattened
  descriptor_eq : field.descriptor = .reference target
  member_eq : field.member =
    Naming.freshBy Naming.snakeCase (others.map (·.identifier)) (Naming.typeName target)

/-- What the fields of a type are made of. -/
inductive Composed : List Field → Prop where
  | properties {fields : List Field} (hfields : OfProperties fields) : Composed fields
  | embedding {fields : List Field} (hfields : OfProperties fields) {field : Field}
      {target : String} (hfield : Embeds fields field target) : Composed (fields ++ [field])

/-- A flattened field gets the identifier that the one of another field is escaped to. -/
def TakesEscaped (fields : List Field) : Prop :=
  ∃ field ∈ fields, ∃ target, field.presence = .flattened ∧ field.descriptor = .reference target ∧
    ∃ other ∈ fields, other.presence ≠ .flattened ∧ Naming.IsReserved other.identifier ∧
      Naming.snakeCase (Naming.typeName target) = Naming.escape other.identifier

/-! ## Fields of properties -/

theorem ofProperties_nil : OfProperties [] where
  presence_ne := fun _ hfield => absurd hfield List.not_mem_nil
  isPlain := fun _ hfield => absurd hfield List.not_mem_nil
  nodup := List.nodup_nil

namespace Build

variable {document : Document} {origin typeName : String}

theorem isPlain_distinguish {field : Field} (h : Naming.IsPlain field.member.toList)
    (used : List String) : Naming.IsPlain (distinguish origin used field).1.member.toList := by
  unfold distinguish
  split
  · exact Naming.isPlain_freshBy h writtenIdentifier used
  · exact h

theorem written_distinguish_notMem (used : List String) (field : Field) :
    (distinguish origin used field).1.written ∉ used := by
  unfold distinguish
  split
  · exact Naming.written_freshBy_notMem used field.member
  · rename_i hfree
    exact fun hused => hfree (List.contains_iff_mem.mpr hused)

theorem fieldsFrom_cons (document : Document) (origin typeName : String) (used : List String)
    (wireName : String) (property : Property) (rest : PropertySet) :
    ∃ field : Field, Naming.IsPlain field.identifier.toList ∧ field.written ∉ used ∧
      (fieldsFrom document origin typeName used ((wireName, property) :: rest)).1 =
        field :: (fieldsFrom document origin typeName (field.written :: used) rest).1 := by
  have hplain : Naming.IsPlain (fieldOf document origin typeName wireName property).1.member.toList :=
    Naming.isPlain_memberName typeName wireName
  exact ⟨_, Naming.isPlain_snakeCase (isPlain_distinguish hplain used),
    written_distinguish_notMem used _, rfl⟩

/-- What one field is written as is in use for all that follow it. -/
theorem written_fieldsFrom (set : PropertySet) (used : List String) :
    (∀ field ∈ (fieldsFrom document origin typeName used set).1,
        Naming.IsPlain field.identifier.toList ∧ field.written ∉ used) ∧
      ((fieldsFrom document origin typeName used set).1.map Field.written).Nodup := by
  induction set generalizing used with
  | nil => exact ⟨fun _ hfield => absurd hfield List.not_mem_nil, List.nodup_nil⟩
  | cons head rest ih =>
      obtain ⟨wireName, property⟩ := head
      obtain ⟨field, hplain, hfree, hcons⟩ :=
        fieldsFrom_cons document origin typeName used wireName property rest
      obtain ⟨hrest, hnodup⟩ := ih (field.written :: used)
      rw [hcons]
      refine ⟨List.forall_mem_cons.mpr ⟨⟨hplain, hfree⟩, fun other hother => ?_⟩,
        List.nodup_cons.mpr ⟨?_, hnodup⟩⟩
      · obtain ⟨hother, hfree⟩ := hrest other hother
        exact ⟨hother, fun hused => hfree (List.mem_cons_of_mem _ hused)⟩
      · intro hmem
        obtain ⟨other, hother, hsame⟩ := List.mem_map.mp hmem
        exact (hrest other hother).2 (hsame ▸ List.mem_cons_self)

theorem ofProperties_fields (set : PropertySet) :
    OfProperties (fields document origin typeName set).1 where
  presence_ne := fun _ hfield => presence_ne_flattened_of_mem_fields hfield
  isPlain := fun field hfield => ((written_fieldsFrom set.sorted []).1 field hfield).1
  nodup := (written_fieldsFrom set.sorted []).2

theorem composed_wrapper (document : Document) (definition : Definition) (base : Base)
    (branch : Branch) : Composed (wrapper document definition base branch).1.fields := by
  cases hsource : branch.source with
  | nested target =>
      rw [fields_wrapper_of_nested hsource]
      exact .embedding (ofProperties_fields _) ⟨rfl, rfl, rfl⟩
  | _ =>
      unfold wrapper
      simp only [hsource]
      exact .properties (ofProperties_fields _)

theorem Declares.composed {source : Source} {definition : Definition}
    {result : List TypeDecl × List Notice} (h : Declares source definition result)
    {type : TypeDecl} (htype : type ∈ result.1) : Composed type.fields := by
  cases h.declaresType htype with
  | promoted _ => exact .properties (ofProperties_fields _)
  | tagged _ _ _ _ => exact .properties ofProperties_nil
  | wrapper _ _ _ => exact composed_wrapper _ _ _ _
  | @independent body hbody =>
      cases body with
      | record found =>
          obtain ⟨-, rfl⟩ := h.of_record htype rfl
          exact .properties (ofProperties_fields _)
      | variant base value found => exact hbody.elim
      | _ => exact .properties ofProperties_nil

end Build

/-! ## Emitted fields -/

/-- A field that stays as it is but for being boxed. -/
def Reboxes (f : Field → Field) : Prop :=
  ∀ field, ∃ boxed, f field = { field with boxed }

section Reboxed

variable {f : Field → Field} (hf : Reboxes f)
include hf

theorem Reboxes.keeps (field : Field) :
    (f field).presence = field.presence ∧ (f field).descriptor = field.descriptor ∧
      (f field).member = field.member := by
  obtain ⟨boxed, hboxed⟩ := hf field
  rw [hboxed]
  exact ⟨rfl, rfl, rfl⟩

theorem Reboxes.identifier_eq (field : Field) : (f field).identifier = field.identifier :=
  congrArg Naming.snakeCase (hf.keeps field).2.2

theorem Reboxes.map_identifier (fields : List Field) :
    (fields.map f).map (·.identifier) = fields.map (·.identifier) := by
  rw [List.map_map]
  exact List.map_congr_left fun field _ => hf.identifier_eq field

theorem Reboxes.map_written (fields : List Field) :
    (fields.map f).map Field.written = fields.map Field.written := by
  rw [List.map_map]
  refine List.map_congr_left fun field _ => ?_
  rw [Function.comp_apply, Field.written, hf.identifier_eq, Field.written]

theorem OfProperties.map {fields : List Field} (h : OfProperties fields) :
    OfProperties (fields.map f) where
  presence_ne := List.forall_mem_map.mpr fun field hfield => by
    rw [(hf.keeps field).1]
    exact h.presence_ne field hfield
  isPlain := List.forall_mem_map.mpr fun field hfield => by
    rw [hf.identifier_eq]
    exact h.isPlain field hfield
  nodup := by
    rw [hf.map_written]
    exact h.nodup

theorem Embeds.map {others : List Field} {field : Field} {target : String}
    (h : Embeds others field target) : Embeds (others.map f) (f field) target where
  presence_eq := (hf.keeps field).1.trans h.presence_eq
  descriptor_eq := (hf.keeps field).2.1.trans h.descriptor_eq
  member_eq := by
    rw [hf.map_identifier]
    exact (hf.keeps field).2.2.trans h.member_eq

theorem Composed.map {fields : List Field} (h : Composed fields) : Composed (fields.map f) := by
  cases h with
  | properties hfields => exact .properties (hfields.map hf)
  | embedding hfields hfield =>
      rw [List.map_append]
      exact .embedding (hfields.map hf) (hfield.map hf)

end Reboxed

theorem Build.reboxes_boxField (edges : Containment) (type : TypeDecl) :
    Reboxes fun field => (boxField edges type field).1 := by
  intro field
  show ∃ boxed, (boxField edges type field).1 = { field with boxed }
  unfold boxField
  split
  · exact ⟨field.boxed, rfl⟩
  · split
    · exact ⟨true, rfl⟩
    · exact ⟨field.boxed, rfl⟩

namespace Compilation

variable {document : Document} (run : Compilation document)

theorem composed_emitted {type : TypeDecl} (htype : type ∈ run.model.types) :
    Composed type.fields := by
  obtain ⟨type, hdeclared, rfl⟩ := run.mem_model_types_iff.mp htype
  obtain ⟨definition, hdefinition, hmem⟩ := run.mem_types_iff.mp hdeclared
  obtain ⟨notices, hdeclares⟩ := run.declares hdefinition
  rw [run.fields_emitted]
  exact (hdeclares.composed hmem).map (Build.reboxes_boxField run.containment type)

end Compilation

/-! ## What is written twice -/

theorem Composed.isPlain {fields : List Field} (h : Composed fields) {field : Field}
    (hfield : field ∈ fields) (hpresence : field.presence ≠ .flattened) :
    Naming.IsPlain field.identifier.toList := by
  cases h with
  | properties hfields => exact hfields.isPlain field hfield
  | embedding hfields hembeds =>
      rcases List.mem_append.mp hfield with hown | hlast
      · exact hfields.isPlain field hown
      · obtain rfl := List.mem_singleton.mp hlast
        exact absurd hembeds.presence_eq hpresence

theorem OfProperties.filter_key? {fields : List Field} (h : OfProperties fields) :
    fields.filter (·.key?.isSome) = fields := by
  refine List.filter_eq_self.mpr fun field hfield => ?_
  rw [Build.key?_of_ne_flattened (h.presence_ne field hfield)]
  rfl

theorem Composed.nodup_written_filter {fields : List Field} (h : Composed fields) :
    ((fields.filter (·.key?.isSome)).map Field.written).Nodup := by
  cases h with
  | properties hfields =>
      rw [hfields.filter_key?]
      exact hfields.nodup
  | @embedding fields hfields field target hembeds =>
      have hnone : field.key? = none := by
        rw [Field.key?, FieldFacts.key?, Field.facts, hembeds.presence_eq]
      rw [List.filter_append, hfields.filter_key?]
      simp only [List.filter_cons, List.filter_nil, hnone]
      simpa using hfields.nodup

namespace Embeds

variable {others : List Field} {field : Field} {target : String}

theorem identifier_notMem (h : Embeds others field target) :
    field.identifier ∉ others.map (·.identifier) := by
  rw [Field.identifier, h.member_eq]
  exact Naming.snakeCase_freshBy_notMem _ _

/-- A flattened field has the identifier of its type or one that ends in a number. -/
theorem identifier_cases (h : Embeds others field target) :
    field.identifier = Naming.snakeCase (Naming.typeName target) ∨
      ∃ n : Nat, field.identifier = Naming.snakeCase (Naming.typeName target) ++ toString n := by
  rw [Field.identifier, h.member_eq]
  rcases Naming.mem_candidates.mp (Naming.freshBy_mem_candidates Naming.snakeCase
    (others.map (·.identifier)) (Naming.typeName target)) with hsame | ⟨n, -, hnumber⟩
  · exact Or.inl (congrArg Naming.snakeCase hsame)
  · refine Or.inr ⟨n + 2, ?_⟩
    rw [hnumber, Naming.snakeCase_append_toString]

/-- It is written like a field of a property exactly if it has what that one is escaped to. -/
theorem written_eq_iff (h : Embeds others field target) (hothers : OfProperties others)
    {other : Field} (hother : other ∈ others) :
    other.written = field.written ↔ Naming.IsReserved other.identifier ∧
      Naming.snakeCase (Naming.typeName target) = Naming.escape other.identifier := by
  have hne : other.identifier ≠ field.identifier := fun hsame =>
    h.identifier_notMem (hsame ▸ List.mem_map_of_mem hother)
  constructor
  · intro hwritten
    rcases Naming.escape_eq_escape_iff.mp hwritten with hsame | hescaped | hescapes
    · exact absurd hsame hne
    · have hreserved : Naming.IsReserved other.identifier := by
        by_contra hfree
        exact hne ((Naming.escape_of_not_isReserved hfree).symm.trans hescaped)
      refine ⟨hreserved, ?_⟩
      rcases h.identifier_cases with hname | ⟨n, hnumber⟩
      · exact (hescaped.trans hname).symm
      · exact absurd (hescaped.trans hnumber)
          (Naming.ne_append_toString_of_isReserved hreserved _ n).2
    · by_cases hreserved : Naming.IsReserved field.identifier
      · exact absurd hescapes (Naming.ne_escape_of_isPlain (hothers.isPlain other hother) hreserved)
      · exact absurd (hescapes.trans (Naming.escape_of_not_isReserved hreserved)) hne
  · rintro ⟨hreserved, hname⟩
    -- no plain identifier is an escaped word, so the name was free
    have hfree : Naming.snakeCase (Naming.typeName target) ∉ others.map (·.identifier) := by
      intro hused
      obtain ⟨user, huser, hsame⟩ := List.mem_map.mp hused
      exact Naming.ne_escape_of_isPlain (hothers.isPlain user huser) hreserved (hsame.trans hname)
    have hidentifier : field.identifier = Naming.escape other.identifier := by
      rw [Field.identifier, h.member_eq, Naming.freshBy_of_notMem hfree]
      exact hname
    exact Naming.escape_eq_escape_iff.mpr (Or.inr (Or.inl hidentifier.symm))

end Embeds

theorem OfProperties.not_takesEscaped {fields : List Field} (h : OfProperties fields) :
    ¬TakesEscaped fields := by
  rintro ⟨field, hfield, target, hpresence, -⟩
  exact h.presence_ne field hfield hpresence

theorem Composed.nodup_written_iff {fields : List Field} (h : Composed fields) :
    (fields.map Field.written).Nodup ↔ ¬TakesEscaped fields := by
  cases h with
  | properties hfields => exact iff_of_true hfields.nodup hfields.not_takesEscaped
  | @embedding fields hfields field target hembeds =>
      rw [List.map_append, List.map_singleton, ← List.concat_eq_append, List.nodup_concat,
        and_iff_left hfields.nodup, not_iff_not, List.mem_map]
      constructor
      · rintro ⟨other, hother, hwritten⟩
        obtain ⟨hreserved, hname⟩ := (hembeds.written_eq_iff hfields hother).mp hwritten
        exact ⟨field, List.mem_append_right _ (List.mem_singleton_self _), target,
          hembeds.presence_eq, hembeds.descriptor_eq, other, List.mem_append_left _ hother,
          hfields.presence_ne other hother, hreserved, hname⟩
      · rintro ⟨flattened, hflattened, held, hpresence, hdescriptor, other, hother, hkey,
          hreserved, hname⟩
        -- only the last field is flattened
        have hown : other ∈ fields := by
          rcases List.mem_append.mp hother with hown | hlast
          · exact hown
          · exact absurd (List.mem_singleton.mp hlast ▸ hembeds.presence_eq) hkey
        rcases List.mem_append.mp hflattened with hinside | hlast
        · exact absurd hpresence (hfields.presence_ne flattened hinside)
        · obtain rfl := List.mem_singleton.mp hlast
          obtain rfl : held = target :=
            Descriptor.reference.inj (hdescriptor.symm.trans hembeds.descriptor_eq)
          exact ⟨other, hown, (hembeds.written_eq_iff hfields hown).mpr ⟨hreserved, hname⟩⟩

/-- **When identifiers are written apart.**  The fields of an emitted type are rendered under their
written identifiers.  Those of the fields with keys are distinct, and those of all fields are
exactly if no flattened one takes what the identifier of another one is escaped to. -/
theorem Model.written_identifiers {document : Document} {model : Model}
    (h : Model.build document = .ok model) {type : TypeDecl} (htype : type ∈ model.types) :
    (∀ options, ∀ field ∈ type.fields,
      Render.step ++ "pub " ++ field.written ++ ": " ++
        Render.fieldType ⟨options, .standard⟩ field ++ "," ∈
          Render.declaration ⟨options, .standard⟩ type) ∧
      ((type.fields.filter (·.key?.isSome)).map Field.written).Nodup ∧
      ((type.fields.map Field.written).Nodup ↔ ¬TakesEscaped type.fields) := by
  obtain ⟨run, rfl⟩ := Model.build_eq_ok_iff.mp h
  have hcomposed := run.composed_emitted htype
  exact ⟨fun options field hfield => Render.line_mem_declaration ⟨options, .standard⟩ hfield,
    hcomposed.nodup_written_filter, hcomposed.nodup_written_iff⟩

/-! ## A sum type beside properties -/

/-- A base with properties, whose one branch holds a sum type. -/
def pivotAround (definition : String) (properties : List String) : Json :=
  .object
    [("properties", .object (properties.map fun property =>
        (property, .object [("type", .string "string")]))),
      ("discriminator", .object [("propertyName", .string "pivot")]),
      ("oneOf", .array [.object
        [("$ref", .string ("#/$defs/" ++ definition)),
          ("properties", .object [("pivot", .object [("const", .string "held")])])]])]

/-- Both properties and the sum type would be `type`, which is a keyword. -/
def typeDocument : Document where
  definitions :=
    [("Pivot", pivotAround "Type" ["Type", "type"]), ("Type", kindBase [kindRecord "circle"])]
  revision := none
  distinct := by decide

theorem written_identifiers_type :
    ∃ model, Model.build typeDocument = .ok model ∧ ∃ type ∈ model.types,
      type.fields.map Field.written = ["r#type", "type2", "type3"] ∧
        ((type.fields.filter (·.key?.isSome)).map Field.written).Nodup ∧
        ¬TakesEscaped type.fields := by
  have hshown : ((Model.build typeDocument).toOption.map fun model =>
      (model.type? "PivotHeld").map fun type => type.fields.map Field.written) =
      some (some ["r#type", "type2", "type3"]) := by
    decide
  obtain ⟨model, hbuild, hshown⟩ := exists_of_toOption_map_eq_some hshown
  obtain ⟨type, hfound, hwritten⟩ := Option.map_eq_some_iff.mp hshown
  have htype := (of_find?_name_eq_some hfound).1
  obtain ⟨-, hkeyed, hiff⟩ := Model.written_identifiers hbuild htype
  exact ⟨model, hbuild, type, htype, hwritten, hkeyed, hiff.mp (by rw [hwritten]; decide)⟩

/-- The type of `Self` is `Self_`, so its field is `self_`, and so is the escaped `self`. -/
def selfDocument : Document where
  definitions := [("Pivot", pivotAround "Self" ["self"]), ("Self", kindBase [kindRecord "circle"])]
  revision := none
  distinct := by decide

theorem pivot_writes_twice :
    ∃ model, Model.build selfDocument = .ok model ∧ ∃ type ∈ model.types,
      (∃ fields, type.body = .variant "Pivot" "held" fields) ∧
        type.fields.map Field.written = ["self_", "self_"] ∧
        ¬(type.fields.map Field.written).Nodup := by
  have hshown : ((Model.build selfDocument).toOption.map fun model =>
      (model.type? "PivotHeld").map fun type =>
        (type.body.variant?, type.fields.map Field.written)) =
      some (some (some ("Pivot", "held"), ["self_", "self_"])) := by
    decide
  obtain ⟨model, hbuild, hshown⟩ := exists_of_toOption_map_eq_some hshown
  obtain ⟨type, hfound, hshown⟩ := Option.map_eq_some_iff.mp hshown
  obtain ⟨hvariant, hwritten⟩ := Prod.mk.inj hshown
  refine ⟨model, hbuild, type, (of_find?_name_eq_some hfound).1,
    ⟨_, TypeBody.eq_of_variant? hvariant⟩, hwritten, ?_⟩
  rw [hwritten]
  decide

end SchemaCompiler
