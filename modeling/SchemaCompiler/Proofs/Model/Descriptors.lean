import SchemaCompiler.Proofs.Model.Presence
import SchemaCompiler.Proofs.Model.References

/-!
# Descriptors in normal form

An option that is built around a dynamic value or another option is dropped, but a reference can
turn into a dynamic value after the option around it was built.  `Build.known` rebuilds every
option from the inside out, so whatever it is given, its result is in normal form and refers to
objects of the document only (`Build.normalIn_known`).  All fields of a model have such descriptors
(`Compilation.normalIn_of_mem_fields`).
-/

namespace SchemaCompiler

/-- No option holds an option or a dynamic value, at any depth. -/
inductive Descriptor.IsNormal : Descriptor → Prop where
  | scalar (scalar : Scalar) : IsNormal (.scalar scalar)
  | reference (name : String) : IsNormal (.reference name)
  | array {items : Descriptor} (hitems : IsNormal items) : IsNormal (.array items)
  | nullable {inner : Descriptor} (hinner : IsNormal inner)
      (hnullable : ∀ held, inner ≠ .nullable held) (hdynamic : inner ≠ .dynamic) :
      IsNormal (.nullable inner)
  | dynamic : IsNormal .dynamic

/-- A descriptor in normal form that refers to objects of the document only. -/
structure Descriptor.NormalIn (document : Document) (descriptor : Descriptor) : Prop where
  isNormal : descriptor.IsNormal
  defined : ∀ name ∈ descriptor.references,
    ∃ node, (name, Json.object node) ∈ document.definitions

theorem Descriptor.IsNormal.optional {descriptor : Descriptor} (h : descriptor.IsNormal) :
    descriptor.optional.IsNormal := by
  cases h with
  | scalar scalar => exact .nullable (.scalar scalar) (by simp) (by simp)
  | reference name => exact .nullable (.reference name) (by simp) (by simp)
  | array hitems => exact .nullable (.array hitems) (by simp) (by simp)
  | nullable hinner hnullable hdynamic => exact .nullable hinner hnullable hdynamic
  | dynamic => exact .dynamic

namespace Build

theorem isNormal_known (document : Document) (descriptor : Descriptor) :
    (known document descriptor).IsNormal := by
  induction descriptor with
  | scalar scalar => exact .scalar scalar
  | reference name =>
      rw [known]
      split
      · exact .reference name
      · exact .dynamic
  | array items ih => exact .array ih
  | nullable inner ih => exact ih.optional
  | dynamic => exact .dynamic

theorem normalIn_known (document : Document) (descriptor : Descriptor) :
    (known document descriptor).NormalIn document where
  isNormal := isNormal_known document descriptor
  defined := by
    intro name hname
    obtain ⟨definition, hdefinition⟩ := exists_definition_of_mem_known hname
    exact ⟨definition.node, (Document.get?_eq_some_iff.mp hdefinition).2⟩

end Build

/-! ## Fields of a model -/

/-- A flattened field holds a definition whole. -/
theorem Composed.exists_target {fields : List Field} (h : Composed fields) {field : Field}
    (hfield : field ∈ fields) (hpresence : field.presence = .flattened) :
    ∃ target, field.descriptor = .reference target := by
  cases h with
  | properties hfields => exact absurd hpresence (hfields.presence_ne field hfield)
  | @embedding fields hfields embedded target hembeds =>
      rcases List.mem_append.mp hfield with hproperty | hembedded
      · exact absurd hpresence (hfields.presence_ne field hproperty)
      · obtain rfl := List.mem_singleton.mp hembedded
        exact ⟨target, hembeds.descriptor_eq⟩

theorem TypeBody.mem_references {body : TypeBody} {field : Field} (hfield : field ∈ body.fields)
    {name : String} (hname : name ∈ field.descriptor.references) : name ∈ body.references := by
  cases body with
  | record fields => exact List.mem_flatMap.mpr ⟨field, hfield, hname⟩
  | variant base value fields => exact List.mem_flatMap.mpr ⟨field, hfield, hname⟩
  | _ => exact absurd hfield List.not_mem_nil

namespace Compilation

variable {document : Document} (run : Compilation document)

theorem isNormal_of_mem_types {type : TypeDecl} (htype : type ∈ run.types) {field : Field}
    (hfield : field ∈ type.fields) : field.descriptor.IsNormal := by
  obtain ⟨definition, hdefinition, hmem⟩ := run.mem_types_iff.mp htype
  obtain ⟨notices, hdeclares⟩ := run.declares hdefinition
  have hcomposed := hdeclares.composed hmem
  have hdescribed {property : Property} (h : Build.Describes document field property) :
      field.descriptor.IsNormal := by
    rw [h]
    exact Build.isNormal_known document _
  have hfields : field ∈ type.body.fields := hfield
  cases hbody : type.body with
  | record fields =>
      obtain ⟨-, rfl⟩ := hdeclares.of_record hmem hbody
      rw [hbody] at hfields
      obtain ⟨property, -, hdescribes⟩ := Build.exists_property_of_mem_fields hfields
      exact hdescribed hdescribes
  | variant name value fields =>
      obtain ⟨base, -, -, owner, -, branch, -, -, -, origin, typeName, extra, rfl, hextra⟩ :=
        run.exists_branchFields_of_variant htype hbody
      rw [hbody] at hfields
      rcases List.mem_append.mp hfields with hown | hflattened
      · obtain ⟨property, hdescribes, -⟩ := Build.exists_property_of_mem_branchFields hown
        exact hdescribed hdescribes
      · obtain ⟨target, htarget⟩ := hcomposed.exists_target hfield (hextra field hflattened)
        rw [htarget]
        exact .reference target
  | _ =>
      rw [hbody] at hfields
      exact absurd hfields List.not_mem_nil

theorem normalIn_of_mem_fields {type : TypeDecl} (htype : type ∈ run.model.types) {field : Field}
    (hfield : field ∈ type.fields) : field.descriptor.NormalIn document := by
  obtain ⟨declared, hdeclared, rfl⟩ := run.mem_model_types_iff.mp htype
  obtain ⟨own, hown, hfacts⟩ := run.exists_declared_field rfl rfl hfield
  have hdescriptor : own.descriptor = field.descriptor := congrArg FieldFacts.descriptor hfacts
  rw [← hdescriptor]
  refine ⟨run.isNormal_of_mem_types hdeclared hown, fun name hname => ?_⟩
  obtain ⟨definition, hdefinition⟩ :=
    (run.closed_of_mem_types hdeclared).references name (TypeBody.mem_references hown hname)
  exact ⟨definition.node, (Document.get?_eq_some_iff.mp hdefinition).2⟩

end Compilation

end SchemaCompiler
