import SchemaCompiler.Proofs.Model.WireNames

/-!
# Required fields

A field is required if the node that declares its property lists it in `required`.  A branch has
properties of its base and of its own node, and its own win: with the property, it takes over what
that node says about its presence.  So a property that the base requires is no longer required
where the branch declares it again without listing it (`open_loses_requirement`), and in all other
cases the lists are kept (`Model.required_fields`).
-/

namespace SchemaCompiler

open Fallible

/-- A node lists a property as required. -/
def Node.Requires (node : Node) (key : String) : Prop :=
  ∃ names, node.array? "required" = some names ∧ Json.string key ∈ names

/-! ## Property sets -/

namespace PropertySet

variable {node : Node} {key : String} {property : Property}

theorem mem_requiredNames_iff : key ∈ requiredNames node ↔ node.Requires key := by
  rw [requiredNames, Node.Requires, List.mem_filterMap]
  simp only [Json.string?_eq_some_iff]
  cases node.array? "required" <;> simp

theorem required_iff_of_mem_ofNode (h : (key, property) ∈ ofNode node) :
    property.required = true ↔ node.Requires key := by
  obtain ⟨⟨name, schema⟩, -, heq⟩ := List.mem_map.mp h
  cases heq
  rw [← mem_requiredNames_iff]
  exact List.contains_iff_mem

/-- A property of a record is required if the node declares and lists it, wherever its schema
comes from. -/
theorem required_iff_of_mem_ofRecord (h : (key, property) ∈ ofRecord node) :
    property.required = true ↔ node.HasProperty key ∧ node.Requires key := by
  rw [ofRecord] at h
  rcases mem_overlay h with hown | hnested
  · have hproperty : node.HasProperty key := mem_keys_ofNode.mp (List.mem_map_of_mem hown)
    rw [required_iff_of_mem_ofNode hown, and_iff_right hproperty]
  · obtain ⟨branch, -, hentry⟩ := List.mem_flatMap.mp hnested
    obtain ⟨⟨name, schema⟩, -, heq⟩ := List.mem_map.mp hentry
    cases heq
    simp only [List.any_eq_true, Bool.and_eq_true, decide_eq_true_eq]
    constructor
    · rintro ⟨⟨own, declared⟩, hown, rfl, hrequired⟩
      exact ⟨mem_keys_ofNode.mp (List.mem_map_of_mem hown),
        (required_iff_of_mem_ofNode hown).mp hrequired⟩
    · rintro ⟨hproperty, hrequires⟩
      obtain ⟨⟨own, declared⟩, hown, rfl⟩ := List.mem_map.mp (mem_keys_ofNode.mpr hproperty)
      exact ⟨_, hown, rfl, (required_iff_of_mem_ofNode hown).mpr hrequires⟩

end PropertySet

/-! ## What makes a field required -/

/-- The field of a record keeps what its node says about the property. -/
structure KeepsRequired (node : Node) (field : FieldFacts) : Prop where
  required : node.HasProperty field.wireName → node.Requires field.wireName →
    field.presence = .required
  listed : field.presence = .required → node.Requires field.wireName

/-- The field of a branch keeps what the node of the branch says about its own properties, and
what the base says about those that the node does not declare. -/
structure KeepsBranchRequired (base : Node) (own : Option Node) (field : FieldFacts) : Prop where
  required : ∀ node, own = some node → node.HasProperty field.wireName →
    node.Requires field.wireName → field.presence = .required
  inherited : (∀ node, own = some node → ¬node.HasRecordProperty field.wireName) →
    base.Requires field.wireName → field.presence = .required
  listed : field.presence = .required → base.Requires field.wireName ∨
    ∃ node, own = some node ∧ node.Requires field.wireName

/-- The fields of a type are required where a list of required properties says so. -/
structure RequiresFields (document : Document) (hierarchy : Hierarchy) (type : TypeDecl) :
    Prop where
  record : ∀ fields, type.body = .record fields →
    ∃ definition, document.get? type.definition = some definition ∧
      ∀ field ∈ fields, field.presence ≠ .flattened → KeepsRequired definition.node field.facts
  variant : ∀ name value fields, type.body = .variant name value fields →
    ∃ base ∈ hierarchy.bases, name = base.typeName ∧
      ∃ owner, document.get? base.definition = some owner ∧
        ∃ branch ∈ base.branches, branch.value = value ∧ branch.typeName = type.name ∧
          ∀ field ∈ fields, field.presence ≠ .flattened →
            KeepsBranchRequired owner.node (Build.branchNode? document branch.source) field.facts

namespace Build

variable {document : Document} {origin typeName : String} {field : Field}

theorem presenceOf_eq_required_iff {descriptor : Descriptor} {required : Bool}
    {default : Option Json} :
    (presenceOf descriptor required default).1 = .required ↔ required = true := by
  unfold presenceOf
  cases required with
  | true => simp
  | false =>
      cases default with
      | none => simp
      | some value => by_cases hfits : literalFits descriptor value <;> simp [hfits]

/-- A field stands for a property of the set, and is required if that is. -/
theorem exists_property_of_field {set : PropertySet}
    (h : field ∈ (fields document origin typeName set).1) :
    ∃ property, (field.wireName, property) ∈ set ∧
      (field.presence = .required ↔ property.required = true) := by
  have hfacts := List.mem_map_of_mem (f := Field.facts) h
  rw [facts_fields] at hfacts
  obtain ⟨⟨wireName, property⟩, hmem, heq⟩ := List.mem_map.mp hfacts
  obtain rfl : wireName = field.wireName := congrArg FieldFacts.wireName heq
  refine ⟨property, (sortBy_perm _ _).mem_iff.mp hmem, ?_⟩
  rw [show field.presence = field.facts.presence from rfl, ← heq]
  exact presenceOf_eq_required_iff

theorem keepsRequired_of_mem_fields {node : Node}
    (h : field ∈ (fields document origin typeName (PropertySet.ofRecord node)).1) :
    KeepsRequired node field.facts := by
  obtain ⟨property, hmem, hpresence⟩ := exists_property_of_field h
  have hrequired := hpresence.trans (PropertySet.required_iff_of_mem_ofRecord hmem)
  exact ⟨fun hproperty hrequires => hrequired.mpr ⟨hproperty, hrequires⟩,
    fun hfield => (hrequired.mp hfield).2⟩

theorem keepsBranchRequired_of_mem_branchFields {base : Node}
    (hbase : (Json.object base).DistinctKeys) {own : Option Node} {property : String}
    (h : field ∈ (branchFields document origin typeName own (some base) property).1) :
    KeepsBranchRequired base own field.facts := by
  obtain ⟨declared, hmem, hpresence⟩ := exists_property_of_field h
  have hoverlay := (PropertySet.distinct_ofNode hbase).mem_foldl_insert (List.mem_filter.mp hmem).1
  rcases hoverlay with hown | ⟨hshared, hnot⟩
  · -- the property comes from the node of the branch
    cases own with
    | none => exact absurd hown List.not_mem_nil
    | some node =>
        have hrequired := hpresence.trans (PropertySet.required_iff_of_mem_ofRecord hown)
        have hdeclares : node.HasRecordProperty field.wireName :=
          PropertySet.mem_keys_ofRecord.mp (List.mem_map_of_mem hown)
        refine ⟨?_, fun hnone => absurd hdeclares (hnone node rfl), fun hfield =>
          Or.inr ⟨node, rfl, (hrequired.mp hfield).2⟩⟩
        rintro _ ⟨⟩ hproperty hrequires
        exact hrequired.mpr ⟨hproperty, hrequires⟩
  · -- the property comes from the base, and the node of the branch does not declare it
    have hrequired := hpresence.trans (PropertySet.required_iff_of_mem_ofNode hshared)
    refine ⟨?_, fun _ hrequires => hrequired.mpr hrequires, fun hfield =>
      Or.inl (hrequired.mp hfield)⟩
    rintro node rfl hproperty -
    exact absurd (PropertySet.mem_keys_ofRecord.mpr (Or.inl hproperty)) hnot

end Build

/-! ## Emitted types -/

namespace Compilation

variable {document : Document} (run : Compilation document)

/-- Boxing leaves the facts of a field alone. -/
theorem exists_declared_field {type : TypeDecl} {fields declared : List Field}
    (hfields : (run.emitted type).fields = fields) (hdeclared : type.fields = declared)
    {field : Field} (hfield : field ∈ fields) : ∃ own ∈ declared, own.facts = field.facts := by
  have hfacts : field.facts ∈ (run.emitted type).fields.map Field.facts := by
    rw [hfields]
    exact List.mem_map_of_mem hfield
  rw [run.facts_emitted, hdeclared] at hfacts
  exact List.mem_map.mp hfacts

theorem requiresFields_emitted (hdistinct : (Json.object document.definitions).DistinctKeys)
    {type : TypeDecl} (htype : type ∈ run.model.types) :
    RequiresFields document run.analysis.hierarchy type := by
  obtain ⟨type, hdeclared, rfl⟩ := run.mem_model_types_iff.mp htype
  refine ⟨fun fields hbody => ?_, fun name value fields hbody => ?_⟩
  · obtain ⟨declared, hrecord⟩ := run.exists_record_of_emitted hbody
    obtain ⟨definition, hdefinition, hmem⟩ := run.mem_types_iff.mp hdeclared
    obtain ⟨notices, hdeclares⟩ := run.declares hdefinition
    obtain ⟨hname, rfl⟩ := hdeclares.of_record hmem hrecord
    refine ⟨definition, ?_, fun field hfield _ => ?_⟩
    · show document.get? type.definition = _
      rw [hname, Document.get?_of_mem_sorted hdefinition]
    · obtain ⟨own, hown, hfacts⟩ := run.exists_declared_field (congrArg TypeBody.fields hbody)
        (congrArg TypeBody.fields hrecord) hfield
      exact hfacts ▸ Build.keepsRequired_of_mem_fields hown
  · obtain ⟨declared, hvariant⟩ := run.exists_fields_of_emitted hbody
    obtain ⟨base, hbase, hname, owner, hlookup, branch, hbranch, hvalue, htypeName, origin,
      typeName, extra, rfl, hextra⟩ := run.exists_branchFields_of_variant hdeclared hvariant
    refine ⟨base, hbase, hname, owner, hlookup, branch, hbranch, hvalue, htypeName,
      fun field hfield hpresence => ?_⟩
    obtain ⟨own, hown, hfacts⟩ := run.exists_declared_field (congrArg TypeBody.fields hbody)
      (congrArg TypeBody.fields hvariant) hfield
    rcases List.mem_append.mp hown with hown | hflattened
    · exact hfacts ▸ Build.keepsBranchRequired_of_mem_branchFields
        (Document.distinctKeys_of_get? hdistinct hlookup) hown
    · have hsame : own.presence = field.presence := congrArg FieldFacts.presence hfacts
      exact absurd (hsame.symm.trans (hextra own hflattened)) hpresence

end Compilation

/-- **Required fields stay required.**  In every emitted record and variant, a field is required if
the node it is built from has the property itself and lists it, or if the base of a variant lists
it and that node does not declare it; and only if one of the two lists it. -/
theorem Model.required_fields {document : Document} {model : Model}
    (hdistinct : (Json.object document.definitions).DistinctKeys)
    (h : Model.build document = .ok model) :
    ∃ hierarchy notices, Hierarchy.analyze document = .ok (hierarchy, notices) ∧
      ∀ type ∈ model.types, RequiresFields document hierarchy type := by
  obtain ⟨run, rfl⟩ := Model.build_eq_ok_iff.mp h
  exact ⟨run.analysis.hierarchy, run.analysis.notices,
    Hierarchy.analyze_eq_ok_iff.mpr ⟨run.analysis, rfl, rfl⟩,
    fun type htype => run.requiresFields_emitted hdistinct htype⟩

/-! ## A base that requires -/

def event : Definition where
  name := "Event"
  node :=
    [("discriminator", .object [("propertyName", .string "kind")]),
      ("required", .array [.string "at", .string "by"]),
      ("properties", .object [("at", .object [("type", .string "string")]),
        ("by", .object [("type", .string "string")])]),
      ("oneOf", .array
        [.object [("properties", .object [("kind", .object [("const", .string "open")]),
            ("at", .object [("type", .string "integer")])])],
          .object [("required", .array [.string "subject"]),
            ("properties", .object [("kind", .object [("const", .string "close")]),
              ("subject", .object [("type", .string "string")]),
              ("reason", .object [("type", .string "string")])])]])]

/-- An event requires two properties.  One branch declares the first of them again, and the other
has properties of its own. -/
def requiringDocument : Document where
  definitions := [(event.name, .object event.node)]
  revision := none
  distinct := by decide

/-- The key of a field, with whether it is required. -/
def Field.requirement (field : Field) : Option String × Bool :=
  (field.key?, match field.presence with | .required => true | _ => false)

theorem Field.presence_ne_required {field : Field} {key : Option String}
    (h : field.requirement = (key, false)) : field.key? = key ∧ field.presence ≠ .required := by
  obtain ⟨hkey, hpresence⟩ := Prod.mk.inj h
  refine ⟨hkey, fun hrequired => ?_⟩
  rw [hrequired] at hpresence
  cases hpresence

theorem distinctKeys_requiring : (Json.object requiringDocument.definitions).DistinctKeys := by
  simp only [requiringDocument, event, Json.DistinctKeys, Json.DistinctKeysMembers,
    Json.DistinctKeysAll]
  decide

theorem required_fields_event :
    ∃ model hierarchy, Model.build requiringDocument = .ok model ∧ ∃ type ∈ model.types,
      RequiresFields requiringDocument hierarchy type ∧
        type.body.variant? = some ("Event", "close") ∧
        type.fields.map Field.requirement =
          [(some "at", true), (some "by", true), (some "reason", false), (some "subject", true)] := by
  have hshown : ((Model.build requiringDocument).toOption.map fun model =>
      (model.type? "EventClose").map fun type =>
        (type.body.variant?, type.fields.map Field.requirement)) =
      some (some (some ("Event", "close"),
        [(some "at", true), (some "by", true), (some "reason", false), (some "subject", true)])) := by
    decide
  obtain ⟨model, hbuild, hshown⟩ := exists_of_toOption_map_eq_some hshown
  obtain ⟨type, hfound, hshown⟩ := Option.map_eq_some_iff.mp hshown
  obtain ⟨hvariant, hfields⟩ := Prod.mk.inj hshown
  have htype := (of_find?_name_eq_some hfound).1
  obtain ⟨hierarchy, notices, -, hrequires⟩ :=
    Model.required_fields distinctKeys_requiring hbuild
  exact ⟨model, hierarchy, hbuild, type, htype, hrequires type htype, hvariant, hfields⟩

/-- The property that the branch declares again is not required there, although the base lists
it. -/
theorem open_loses_requirement :
    requiringDocument.get? "Event" = some event ∧ event.node.Requires "at" ∧
      ∃ model, Model.build requiringDocument = .ok model ∧ ∃ type ∈ model.types,
        type.body.variant? = some ("Event", "open") ∧
          ∃ field ∈ type.fields, field.key? = some "at" ∧ field.presence ≠ .required := by
  refine ⟨rfl, ⟨_, rfl, List.mem_cons_self⟩, ?_⟩
  have hshown : ((Model.build requiringDocument).toOption.map fun model =>
      (model.type? "EventOpen").map fun type =>
        (type.body.variant?, type.fields.map Field.requirement)) =
      some (some (some ("Event", "open"), [(some "at", false), (some "by", true)])) := by
    decide
  obtain ⟨model, hbuild, hshown⟩ := exists_of_toOption_map_eq_some hshown
  obtain ⟨type, hfound, hshown⟩ := Option.map_eq_some_iff.mp hshown
  obtain ⟨hvariant, hfields⟩ := Prod.mk.inj hshown
  have hfield : (some "at", false) ∈ type.fields.map Field.requirement := by
    rw [hfields]
    exact List.mem_cons_self
  obtain ⟨field, hmem, hrequirement⟩ := List.mem_map.mp hfield
  exact ⟨model, hbuild, type, (of_find?_name_eq_some hfound).1, hvariant, field, hmem,
    Field.presence_ne_required hrequirement⟩

end SchemaCompiler
