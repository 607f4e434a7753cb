import SchemaCompiler.Proofs.Model.Apart

/-!
# Models are closed

Whatever an emitted type refers to is emitted as well (`Model.references_emitted`).  A reference
of a field or an alias and a child of an untagged type are looked up before they are kept, the
field that holds a sum type whole comes from the hierarchy, and every definition that can be
looked up declares a type under its own name.  Cases of tagged types are variants, promoted or
declared beside their base.
-/

namespace SchemaCompiler

open Fallible

namespace TypeBody

/-- The definitions that the fields or the target of a type refer to, at any depth. -/
def references : TypeBody → List String
  | .record fields | .variant _ _ fields => fields.flatMap (·.descriptor.references)
  | .aliasOf target => target.references
  | .enumeration _ _ _ | .tagged _ _ | .untagged _ | .union _ _ => []

/-- The types that a type mentions by name: its cases, or the base whose case it is. -/
def mentions : TypeBody → List String
  | .tagged _ cases => cases.map (·.typeName)
  | .untagged cases => cases.map (·.typeName)
  | .variant base _ _ => [base]
  | .record _ | .aliasOf _ | .enumeration _ _ _ | .union _ _ => []

end TypeBody

/-! ## References that are looked up -/

theorem Build.exists_definition_of_mem_known {document : Document} {descriptor : Descriptor}
    {name : String} (h : name ∈ (known document descriptor).references) :
    ∃ definition, document.get? name = some definition := by
  induction descriptor with
  | reference target =>
      rw [known] at h
      split at h
      · rename_i hdefined
        obtain rfl := List.mem_singleton.mp h
        exact Option.isSome_iff_exists.mp hdefined
      · exact absurd h List.not_mem_nil
  | array items ih => exact ih h
  | nullable inner ih =>
      rw [known, Descriptor.references_optional] at h
      exact ih h
  | scalar => exact absurd h List.not_mem_nil
  | dynamic => exact absurd h List.not_mem_nil

namespace Hierarchy.Analysis

variable {document : Document} {run : Analysis document}

theorem exists_definition_of_mem_sums {name : String} (h : name ∈ run.scope.sums) :
    ∃ definition, document.get? name = some definition := by
  rcases run.mem_sums_iff.mp h with ⟨pending, hpending, rfl⟩ | ⟨base, hbase, rfl⟩
  · exact ⟨_, Document.get?_of_mem_sorted (run.mem_sorted_of_mem_pending hpending)⟩
  · obtain ⟨definition, hdefinition, hname, -⟩ := run.exists_definition_of_mem_abstractBases hbase
    exact ⟨definition, hname ▸ Document.get?_of_mem_sorted hdefinition⟩

theorem Placed.exists_definition {field : Field} (h : run.Placed field) {name : String}
    (hname : name ∈ field.descriptor.references) :
    ∃ definition, document.get? name = some definition := by
  rcases h with ⟨set, -, property, -, hdescribes⟩ | ⟨target, htarget, hdescriptor⟩
  · rw [hdescribes] at hname
    exact Build.exists_definition_of_mem_known hname
  · rw [hdescriptor] at hname
    obtain rfl := List.mem_singleton.mp hname
    exact exists_definition_of_mem_sums htarget

end Hierarchy.Analysis

/-! ## Declared types -/

namespace Compilation

variable {document : Document} (run : Compilation document)

theorem exists_type_of_get? {name : String} {definition : Definition}
    (h : document.get? name = some definition) :
    ∃ type ∈ run.types, type.name = Naming.typeName name := by
  obtain ⟨type, htype, -, hname⟩ := run.exists_type_of_definition (Document.mem_sorted_of_get? h)
  exact ⟨type, htype, hname.trans (congrArg Naming.typeName (Document.name_of_get? h))⟩

/-- What a type refers to is defined, and what it mentions is declared. -/
structure Closed (body : TypeBody) : Prop where
  references : ∀ name ∈ body.references, ∃ definition, document.get? name = some definition
  mentions : ∀ name ∈ body.mentions, ∃ type ∈ run.types, type.name = name

theorem closed_toBody (members : Members) (form : EnumForm) :
    run.Closed (members.toBody form) := by
  rcases Build.toBody_cases members form with ⟨items, catchAll, hbody⟩ | ⟨width, hbody⟩
  · rw [hbody]
    exact ⟨fun _ h => absurd h List.not_mem_nil, fun _ h => absurd h List.not_mem_nil⟩
  · rw [hbody]
    exact ⟨fun _ h => absurd h List.not_mem_nil, fun _ h => absurd h List.not_mem_nil⟩

theorem closed_aliasOf_known (descriptor : Descriptor) :
    run.Closed (.aliasOf (Build.known document descriptor)) where
  references := fun _ h => Build.exists_definition_of_mem_known h
  mentions := fun _ h => absurd h List.not_mem_nil

theorem closed_untagged (base : AbstractBase) : run.Closed (Build.untagged document base) := by
  rw [Build.untagged]
  split
  · exact run.closed_aliasOf_known .dynamic
  · refine ⟨fun _ h => absurd h List.not_mem_nil, fun name hname => ?_⟩
    obtain ⟨case, hcase, rfl⟩ := List.mem_map.mp hname
    obtain ⟨child, hchild, rfl⟩ := List.mem_map.mp hcase
    obtain ⟨definition, hdefinition⟩ := Option.isSome_iff_exists.mp (List.mem_filter.mp hchild).2
    exact run.exists_type_of_get? hdefinition

theorem closed_structured {definition : Definition} {body : TypeBody}
    (h : Build.Structured document definition body) : run.Closed body := by
  cases h with
  | enumeration members form => exact run.closed_toBody members form
  | union => exact ⟨fun _ h => absurd h List.not_mem_nil, fun _ h => absurd h List.not_mem_nil⟩
  | record =>
      refine ⟨fun name hname => ?_, fun _ h => absurd h List.not_mem_nil⟩
      obtain ⟨field, hfield, hreference⟩ := List.mem_flatMap.mp hname
      obtain ⟨property, -, hdescribes⟩ := Build.exists_property_of_mem_fields hfield
      rw [hdescribes] at hreference
      exact Build.exists_definition_of_mem_known hreference
  | dynamic => exact run.closed_aliasOf_known .dynamic
  | aliasOf => exact run.closed_aliasOf_known _

/-- Every field of a variant is placed, and its base is a definition. -/
theorem closed_variant {base : String} {definition : Definition}
    (hbase : document.get? base = some definition) {value : String} {fields : List Field}
    (hfields : ∀ field ∈ fields, run.analysis.Placed field) :
    run.Closed (.variant (Naming.typeName base) value fields) where
  references := by
    intro name hname
    obtain ⟨field, hfield, hreference⟩ := List.mem_flatMap.mp hname
    exact (hfields field hfield).exists_definition hreference
  mentions := by
    intro name hname
    obtain rfl := List.mem_singleton.mp hname
    exact run.exists_type_of_get? hbase

theorem closed_of_declares {definition : Definition} (hdefinition : definition ∈ document.sorted)
    {result : List TypeDecl × List Notice} (h : Build.Declares run.source definition result)
    {type : TypeDecl} (htype : type ∈ result.1) (hmem : type ∈ run.types) :
    run.Closed type.body := by
  cases h with
  | @promoted derived hderived =>
      obtain rfl := List.mem_singleton.mp htype
      obtain ⟨pending, hpending, hbase, -⟩ :=
        run.analysis.exists_candidate_of_mem_derived (of_find?_name_eq_some hderived).1
      have hname : document.get? derived.base = some pending.definition := by
        rw [hbase]
        exact Document.get?_of_mem_sorted (run.analysis.mem_sorted_of_mem_pending hpending)
      exact run.closed_variant hname fun field hfield =>
        run.placed_of_mem_promoted hdefinition hderived hfield
  | plainAlias _ _ =>
      obtain rfl := List.mem_singleton.mp htype
      exact run.closed_aliasOf_known _
  | enumeration _ _ _ hresult =>
      obtain rfl := List.mem_singleton.mp htype
      obtain ⟨members, form, hbody⟩ := Build.exists_toBody_of_enumOfValues hresult
      exact hbody.symm ▸ run.closed_toBody members form
  | @tagged base _ _ _ hbase =>
      obtain ⟨pending, hpending, rfl, hdecided⟩ :=
        run.analysis.exists_pending_of_base? hdefinition hbase
      rcases List.mem_cons.mp htype with rfl | hwrapper
      · -- the tagged type itself: its cases are variants
        refine ⟨fun _ h => absurd h List.not_mem_nil, fun name hname => ?_⟩
        obtain ⟨case, hcase, rfl⟩ := List.mem_map.mp hname
        obtain ⟨variant, hvariant, hname, -⟩ := run.hasVariant_of_mem_taggedCases hmem hcase
        exact ⟨variant, hvariant, hname⟩
      · obtain ⟨result, hresult, rfl⟩ := List.mem_map.mp hwrapper
        obtain ⟨branch, hbranch, rfl⟩ := List.mem_map.mp hresult
        obtain ⟨hbranch, hpromoted⟩ := List.mem_filter.mp hbranch
        have hname : document.get? base.definition = some pending.definition := by
          rw [Hierarchy.definition_of_baseOf hdecided]
          exact Document.get?_of_mem_sorted hdefinition
        exact run.closed_variant hname fun field hfield =>
          run.placed_of_mem_wrapper hpending hdecided hbranch (by simpa using hpromoted) hfield
  | untagged _ _ _ _ _ =>
      obtain rfl := List.mem_singleton.mp htype
      exact run.closed_untagged _
  | structural _ _ _ _ _ hresult =>
      obtain rfl := List.mem_singleton.mp htype
      exact run.closed_structured (Build.structured_of_structural hresult)

theorem closed_of_mem_types {type : TypeDecl} (h : type ∈ run.types) : run.Closed type.body := by
  obtain ⟨definition, hdefinition, htype⟩ := run.mem_types_iff.mp h
  obtain ⟨notices, hdeclares⟩ := run.declares hdefinition
  exact run.closed_of_declares hdefinition hdeclares htype h

/-! ## Emitted types -/

theorem references_emitted_eq (type : TypeDecl) :
    (run.emitted type).body.references = type.body.references := by
  have hboxed (fields : List Field) :
      (((fields.map (Build.boxField run.containment type)).map (·.1)).flatMap
        (·.descriptor.references)) = fields.flatMap (·.descriptor.references) := by
    rw [List.map_map, List.flatMap_map]
    refine List.flatMap_congr fun field _ => ?_
    exact congrArg Descriptor.references (Build.descriptor_boxField field)
  obtain ⟨definition, origin, name, description, body⟩ := type
  cases body with
  | record fields => exact hboxed fields
  | variant base value fields => exact hboxed fields
  | _ => rfl

theorem mentions_emitted_eq (type : TypeDecl) :
    (run.emitted type).body.mentions = type.body.mentions := by
  obtain ⟨definition, origin, name, description, body⟩ := type
  cases body <;> rfl

theorem exists_emitted_of_name {type : TypeDecl} (h : type ∈ run.types) :
    ∃ other ∈ run.model.types, other.name = type.name :=
  ⟨run.emitted type, run.mem_model_types_iff.mpr ⟨type, h, rfl⟩, rfl⟩

end Compilation

/-- **A model is closed.**  Every definition that an emitted type refers to is an object of the
document and is emitted under its type name; every type that an emitted type mentions is emitted.
-/
theorem Model.references_emitted {document : Document} {model : Model}
    (h : Model.build document = .ok model) {type : TypeDecl} (htype : type ∈ model.types) :
    (∀ name ∈ type.body.references,
      (∃ definition, document.get? name = some definition) ∧
        ∃ other ∈ model.types, other.name = Naming.typeName name) ∧
      ∀ name ∈ type.body.mentions, ∃ other ∈ model.types, other.name = name := by
  obtain ⟨run, rfl⟩ := Model.build_eq_ok_iff.mp h
  obtain ⟨declared, hdeclared, rfl⟩ := run.mem_model_types_iff.mp htype
  have hclosed := run.closed_of_mem_types hdeclared
  constructor
  · intro name hname
    rw [run.references_emitted_eq] at hname
    obtain ⟨definition, hdefinition⟩ := hclosed.references name hname
    obtain ⟨other, hother, hotherName⟩ := run.exists_type_of_get? hdefinition
    obtain ⟨shown, hshown, hshownName⟩ := run.exists_emitted_of_name hother
    exact ⟨⟨definition, hdefinition⟩, shown, hshown, hshownName.trans hotherName⟩
  · intro name hname
    rw [run.mentions_emitted_eq] at hname
    obtain ⟨other, hother, rfl⟩ := hclosed.mentions name hname
    exact run.exists_emitted_of_name hother

/-- An index with references to a base, to nothing and to a definition that is no object.  The
branches of the base are a promoted record and a wrapper that holds an untagged type, of whose
children one is missing. -/
def indexDocument : Document where
  definitions :=
    [("Blank", .bool true),
      ("Choice", .object [("anyOf", .array
        [.object [("allOf", .array [.object [("$ref", .string "#/$defs/Note")]])],
          .object [("allOf", .array [.object [("$ref", .string "#/$defs/Gone")]])]])]),
      ("Entry", kindBase
        [.object [("$ref", .string "#/$defs/Leaf")],
          .object [("$ref", .string "#/$defs/Choice"),
            ("properties", .object [("kind", .object [("const", .string "choice")])])]]),
      ("Index", .object [("properties", .object
        [("blank", .object [("$ref", .string "#/$defs/Blank")]),
          ("entries", .object [("type", .string "array"),
            ("items", .object [("$ref", .string "#/$defs/Entry")])]),
          ("gone", .object [("$ref", .string "#/$defs/Gone")])])]),
      ("Leaf", kindRecord "leaf"),
      ("Note", .object [("properties", .object [])])]
  revision := none
  distinct := by decide

theorem references_emitted_index :
    ∃ model, Model.build indexDocument = .ok model ∧
      (model.types.map fun type => (type.name, type.body.references, type.body.mentions)) =
        [("Choice", [], ["Note"]), ("Entry", [], ["EntryChoice", "Leaf"]),
          ("EntryChoice", ["Choice"], ["Entry"]), ("Index", ["Entry"], []),
          ("Leaf", [], ["Entry"]), ("Note", [], [])] ∧
      ∀ type ∈ model.types, ∀ name ∈ type.body.references,
        ∃ other ∈ model.types, other.name = Naming.typeName name := by
  have hshown : ((Model.build indexDocument).toOption.map fun model =>
      model.types.map fun type => (type.name, type.body.references, type.body.mentions)) =
        some [("Choice", [], ["Note"]), ("Entry", [], ["EntryChoice", "Leaf"]),
          ("EntryChoice", ["Choice"], ["Entry"]), ("Index", ["Entry"], []),
          ("Leaf", [], ["Entry"]), ("Note", [], [])] := by
    decide
  obtain ⟨model, hbuild, hshown⟩ := exists_of_toOption_map_eq_some hshown
  exact ⟨model, hbuild, hshown, fun type htype name hname =>
    ((Model.references_emitted hbuild htype).1 name hname).2⟩

end SchemaCompiler
