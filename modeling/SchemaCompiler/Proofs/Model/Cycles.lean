import SchemaCompiler.Proofs.Containment
import SchemaCompiler.Proofs.Model.Cases

/-!
# Cycles among emitted types

Boxing takes every field off every cycle, and a case of a tagged type lies on none either, because
it leads to a variant, which holds other types only in fields.  What remains are types that stand
for others: an alias for its target and an untagged type for each of its cases.  These are never
boxed, so a schema may still close a cycle of them (`selfHolding_cyclic`), and there is a cycle
only if there is one of that kind (`Model.cycles_stand_for`).
-/

namespace SchemaCompiler

open Fallible

/-- No element leads back to itself. -/
def Acyclic {α : Type} (r : α → α → Prop) : Prop :=
  ∀ a, ¬Relation.TransGen r a a

namespace TypeDecl

/-- The types that a type is another name for, or one of. -/
def standsFor (type : TypeDecl) : List String :=
  match type.body with
  | .untagged cases => cases.map (·.typeName)
  | .aliasOf target => (target.inlineReference?.map Naming.typeName).toList
  | _ => []

/-- The types that a type holds in place: in its fields that are not boxed, as its cases, or as
the target of an alias. -/
def inPlace (type : TypeDecl) : List String :=
  match type.body with
  | .record fields | .variant _ _ fields =>
    (fields.filter (!·.boxed)).filterMap fun field =>
      field.descriptor.inlineReference?.map Naming.typeName
  | .tagged _ cases => cases.map (·.typeName)
  | .untagged cases => cases.map (·.typeName)
  | .aliasOf target => (target.inlineReference?.map Naming.typeName).toList
  | .enumeration _ _ _ | .union _ _ => []

theorem standsFor_subset_inPlace (type : TypeDecl) : type.standsFor ⊆ type.inPlace := by
  obtain ⟨definition, origin, name, description, body⟩ := type
  cases body with
  | untagged cases => exact List.Subset.refl _
  | aliasOf target => exact List.Subset.refl _
  | _ => exact List.nil_subset _

end TypeDecl

namespace Model

def Holds (model : Model) (a b : String) : Prop :=
  ∃ type ∈ model.types, type.name = a ∧ b ∈ type.inPlace

def StandsFor (model : Model) (a b : String) : Prop :=
  ∃ type ∈ model.types, type.name = a ∧ b ∈ type.standsFor

variable {model : Model}

theorem StandsFor.holds {a b : String} (h : model.StandsFor a b) : model.Holds a b := by
  obtain ⟨type, htype, hname, hmem⟩ := h
  exact ⟨type, htype, hname, type.standsFor_subset_inPlace hmem⟩

end Model

/-! ## Cycles in general -/

section Relations

open Relation (ReflTransGen TransGen)

variable {α : Type} {r s : α → α → Prop}

/-- If every step on a cycle is one of `s`, so is every cycle. -/
theorem transGen_of_cycle (hstep : ∀ a b, r a b → ReflTransGen r b a → s a b) {a b : α}
    (h : TransGen r a b) (hback : ReflTransGen r b a) : TransGen s a b := by
  induction h with
  | single hab => exact TransGen.single (hstep _ _ hab hback)
  | @tail c d hac hcd ih =>
      have hca : ReflTransGen r c a := hback.head hcd
      exact (ih hca).tail (hstep c d hcd (hback.trans hac.to_reflTransGen))

theorem acyclic_iff_of_step (hsub : ∀ a b, s a b → r a b)
    (hstep : ∀ a b, r a b → ReflTransGen r b a → s a b) : Acyclic r ↔ Acyclic s := by
  constructor
  · intro h a hcycle
    exact h a (TransGen.mono hsub a a hcycle)
  · intro h a hcycle
    exact h a (transGen_of_cycle hstep hcycle ReflTransGen.refl)

end Relations

/-! ## What an emitted type holds -/

/-- A type holds another in a field that the containment lets stay in place. -/
def KeepsInField (edges : Containment) (type : TypeDecl) (target : String) : Prop :=
  ∃ field ∈ type.fields, field.descriptor.inlineReference?.map Naming.typeName = some target ∧
    edges.needsBox type.name field.wireName = false

namespace Build

variable {edges : Containment} {type : TypeDecl}

@[simp] theorem descriptor_boxField (field : Field) :
    (boxField edges type field).1.descriptor = field.descriptor := by
  rw [boxField]
  split
  · rfl
  · split <;> rfl

@[simp] theorem wireName_boxField (field : Field) :
    (boxField edges type field).1.wireName = field.wireName := by
  rw [boxField]
  split
  · rfl
  · split <;> rfl

theorem needsBox_of_boxField {field : Field} {target : String}
    (htarget : field.descriptor.inlineReference? = some target)
    (h : (boxField edges type field).1.boxed = false) :
    edges.needsBox type.name field.wireName = false := by
  rw [boxField, htarget] at h
  cases hneeds : edges.needsBox type.name field.wireName with
  | false => rfl
  | true =>
      rw [hneeds] at h
      cases h

theorem keepsInField_of_mem {target : String}
    (h : target ∈ ((((type.fields.map (boxField edges type)).map (·.1)).filter
      (!·.boxed)).filterMap fun field =>
        field.descriptor.inlineReference?.map Naming.typeName)) :
    KeepsInField edges type target := by
  obtain ⟨boxed, hboxed, htarget⟩ := List.mem_filterMap.mp h
  obtain ⟨hmem, hunboxed⟩ := List.mem_filter.mp hboxed
  obtain ⟨result, hresult, rfl⟩ := List.mem_map.mp hmem
  obtain ⟨field, hfield, rfl⟩ := List.mem_map.mp hresult
  rw [descriptor_boxField] at htarget
  obtain ⟨name, hname, -⟩ := Option.map_eq_some_iff.mp htarget
  exact ⟨field, hfield, htarget, needsBox_of_boxField hname (by simpa using hunboxed)⟩

theorem mem_inPlace_boxFields {target : String} (h : target ∈ (boxFields edges type).1.inPlace) :
    KeepsInField edges type target ∨ (∃ case ∈ type.taggedCases, case.typeName = target) ∨
      target ∈ type.standsFor := by
  obtain ⟨definition, origin, name, description, body⟩ := type
  cases body with
  | record fields => exact Or.inl (keepsInField_of_mem h)
  | variant base value fields => exact Or.inl (keepsInField_of_mem h)
  | tagged property cases => exact Or.inr (Or.inl (List.mem_map.mp h))
  | untagged cases => exact Or.inr (Or.inr h)
  | aliasOf target => exact Or.inr (Or.inr h)
  | enumeration form members catchAll => exact absurd h List.not_mem_nil
  | union alternatives nullable => exact absurd h List.not_mem_nil

theorem mem_inPlace_boxFields_of_case {case : TaggedCase} (hcase : case ∈ type.taggedCases) :
    case.typeName ∈ (boxFields edges type).1.inPlace := by
  obtain ⟨definition, origin, name, description, body⟩ := type
  cases body with
  | tagged property cases => exact List.mem_map_of_mem hcase
  | _ => exact absurd hcase List.not_mem_nil

theorem standsFor_boxFields : (boxFields edges type).1.standsFor = type.standsFor := by
  obtain ⟨definition, origin, name, description, body⟩ := type
  cases body <;> rfl

/-! ## Edges -/

theorem mem_heldBy_of_field {field : Field} (hfield : field ∈ type.fields) {target : String}
    (htarget : field.descriptor.inlineReference?.map Naming.typeName = some target) :
    ⟨type.name, target, some field.wireName⟩ ∈ heldBy type := by
  obtain ⟨name, hname, rfl⟩ := Option.map_eq_some_iff.mp htarget
  have hmem : ∃ other ∈ type.fields, (other.descriptor.inlineReference?.map fun name =>
      Edge.mk type.name (Naming.typeName name) (some other.wireName)) =
        some ⟨type.name, Naming.typeName name, some field.wireName⟩ :=
    ⟨field, hfield, by rw [hname]; rfl⟩
  obtain ⟨definition, origin, name, description, body⟩ := type
  cases body with
  | record fields => exact List.mem_filterMap.mpr hmem
  | variant base value fields => exact List.mem_filterMap.mpr hmem
  | _ => exact absurd hfield List.not_mem_nil

theorem mem_heldBy_of_case {case : TaggedCase} (hcase : case ∈ type.taggedCases) :
    ⟨type.name, case.typeName, none⟩ ∈ heldBy type := by
  obtain ⟨definition, origin, name, description, body⟩ := type
  cases body with
  | tagged property cases => exact List.mem_map.mpr ⟨case, hcase, rfl⟩
  | _ => exact absurd hcase List.not_mem_nil

theorem mem_heldBy_of_standsFor {target : String} (h : target ∈ type.standsFor) :
    ⟨type.name, target, none⟩ ∈ heldBy type := by
  obtain ⟨definition, origin, name, description, body⟩ := type
  cases body with
  | untagged cases =>
      obtain ⟨case, hcase, rfl⟩ := List.mem_map.mp h
      exact List.mem_map.mpr ⟨case, hcase, rfl⟩
  | aliasOf descriptor =>
      obtain ⟨name, hname, rfl⟩ := Option.map_eq_some_iff.mp (Option.mem_toList.mp h)
      refine Option.mem_toList.mpr ?_
      rw [hname]
      rfl
  | _ => exact absurd h List.not_mem_nil

end Build

namespace Compilation

open Relation (ReflTransGen)

variable {document : Document} (run : Compilation document)

theorem containment_holds {type : TypeDecl} (htype : type ∈ run.types) {target : String}
    {field : Option String} (h : ⟨type.name, target, field⟩ ∈ Build.heldBy type) :
    run.containment.Holds type.name target :=
  ⟨_, List.mem_flatMap.mpr ⟨type, htype, h⟩, rfl, rfl⟩

theorem containment_holds_of_model {a b : String} (h : run.model.Holds a b) :
    run.containment.Holds a b := by
  obtain ⟨type, htype, rfl, hmem⟩ := h
  obtain ⟨declared, hdeclared, rfl⟩ := run.mem_model_types_iff.mp htype
  rcases Build.mem_inPlace_boxFields hmem with ⟨field, hfield, htarget, -⟩ | ⟨case, hcase, rfl⟩ |
    hstands
  · exact run.containment_holds hdeclared (Build.mem_heldBy_of_field hfield htarget)
  · exact run.containment_holds hdeclared (Build.mem_heldBy_of_case hcase)
  · exact run.containment_holds hdeclared (Build.mem_heldBy_of_standsFor hstands)

/-! ## Steps on a cycle -/

/-- A field that stays in place leads to no type that leads back. -/
theorem not_leads_of_keepsInField {type : TypeDecl} (htype : type ∈ run.types) {target : String}
    (h : KeepsInField run.containment type target) :
    ¬ReflTransGen run.model.Holds target type.name := by
  intro hback
  obtain ⟨field, hfield, htarget, hneeds⟩ := h
  have hleads : run.containment.Leads target type.name :=
    ReflTransGen.mono (fun _ _ => run.containment_holds_of_model) _ _ hback
  have hedge : ⟨type.name, target, some field.wireName⟩ ∈ run.containment :=
    List.mem_flatMap.mpr ⟨type, htype, Build.mem_heldBy_of_field hfield htarget⟩
  have hbox : run.containment.needsBox type.name field.wireName = true :=
    Containment.needsBox_iff.mpr ⟨_, hedge, rfl, rfl, hleads⟩
  rw [hneeds] at hbox
  cases hbox

theorem eq_of_name_eq {a b : TypeDecl} (ha : a ∈ run.types) (hb : b ∈ run.types)
    (h : a.name = b.name) : a = b :=
  List.inj_on_of_nodup_map run.names_nodup ha hb h

/-- A case of a tagged type is a variant, and every way on from there is a field. -/
theorem not_leads_of_mem_taggedCases {type : TypeDecl} (htype : type ∈ run.types)
    {case : TaggedCase} (hcase : case ∈ type.taggedCases) :
    ¬ReflTransGen run.model.Holds case.typeName type.name := by
  intro hback
  obtain ⟨variant, hvariant, hname, fields, hbody⟩ :=
    run.hasVariant_of_mem_taggedCases htype hcase
  rcases ReflTransGen.cases_head hback with hsame | ⟨next, hstep, hrest⟩
  · -- the variant would be the tagged type itself
    have heq : variant = type := run.eq_of_name_eq hvariant htype (hname.trans hsame)
    rw [← heq, TypeDecl.taggedCases, hbody] at hcase
    exact List.not_mem_nil hcase
  · -- the way goes on through a field of the variant, which then leads back as well
    obtain ⟨emitted, hemitted, hsource, hnext⟩ := hstep
    obtain ⟨declared, hdeclared, rfl⟩ := run.mem_model_types_iff.mp hemitted
    obtain rfl : declared = variant :=
      run.eq_of_name_eq hdeclared hvariant (hsource.trans hname.symm)
    have hheld : run.model.Holds type.name declared.name :=
      ⟨run.emitted type, run.mem_model_types_iff.mpr ⟨type, htype, rfl⟩, rfl, ?_⟩
    · rcases Build.mem_inPlace_boxFields hnext with hfield | ⟨other, hother, -⟩ | hstands
      · exact run.not_leads_of_keepsInField hvariant hfield (hrest.tail hheld)
      · rw [TypeDecl.taggedCases, hbody] at hother
        exact List.not_mem_nil hother
      · rw [TypeDecl.standsFor, hbody] at hstands
        exact List.not_mem_nil hstands
    · rw [hname]
      exact Build.mem_inPlace_boxFields_of_case hcase

theorem mem_standsFor_of_leads {type : TypeDecl} (htype : type ∈ run.model.types) {target : String}
    (htarget : target ∈ type.inPlace) (hback : ReflTransGen run.model.Holds target type.name) :
    target ∈ type.standsFor := by
  obtain ⟨declared, hdeclared, rfl⟩ := run.mem_model_types_iff.mp htype
  rcases Build.mem_inPlace_boxFields htarget with hfield | ⟨case, hcase, rfl⟩ | hstands
  · exact absurd hback (run.not_leads_of_keepsInField hdeclared hfield)
  · exact absurd hback (run.not_leads_of_mem_taggedCases hdeclared hcase)
  · exact Build.standsFor_boxFields.symm ▸ hstands

end Compilation

/-- **Only types that stand for others lie on a cycle.**  No field that is not boxed and no case
of a tagged type does, so the emitted types hold each other in a cycle only if aliases and
untagged types stand for each other in one. -/
theorem Model.cycles_stand_for {document : Document} {model : Model}
    (h : Model.build document = .ok model) :
    (∀ type ∈ model.types, ∀ target ∈ type.inPlace,
      Relation.ReflTransGen model.Holds target type.name → target ∈ type.standsFor) ∧
      (Acyclic model.Holds ↔ Acyclic model.StandsFor) := by
  obtain ⟨run, rfl⟩ := Model.build_eq_ok_iff.mp h
  have hstep : ∀ type ∈ run.model.types, ∀ target ∈ type.inPlace,
      Relation.ReflTransGen run.model.Holds target type.name → target ∈ type.standsFor :=
    fun type htype target htarget hback => run.mem_standsFor_of_leads htype htarget hback
  refine ⟨hstep, acyclic_iff_of_step (fun _ _ => Model.StandsFor.holds) ?_⟩
  rintro _ target ⟨type, htype, rfl, htarget⟩ hback
  exact ⟨type, htype, rfl, hstep type htype target htarget hback⟩

/-- A record that refers to itself. -/
def listDocument : Document where
  definitions :=
    [("Node", .object
      [("properties", .object [("next", .object [("$ref", .string "#/$defs/Node")])])])]
  revision := none
  distinct := by decide

theorem cycles_stand_for_list :
    ∃ model, Model.build listDocument = .ok model ∧
      (model.types.flatMap fun type => type.fields.map fun field => (field.wireName, field.boxed)) =
        [("next", true)] ∧
      Acyclic model.Holds := by
  have hmodel : ((Model.build listDocument).toOption.map fun model =>
      (model.types.flatMap fun type => type.fields.map fun field => (field.wireName, field.boxed),
        model.types.all (·.standsFor.isEmpty))) = some ([("next", true)], true) := by
    decide
  obtain ⟨model, hbuild, hmodel⟩ := exists_of_toOption_map_eq_some hmodel
  obtain ⟨hboxed, htypes⟩ := Prod.mk.inj hmodel
  refine ⟨model, hbuild, hboxed, (Model.cycles_stand_for hbuild).2.mpr ?_⟩
  intro a hcycle
  obtain ⟨b, ⟨type, htype, -, hstands⟩, -⟩ := Relation.TransGen.head'_iff.mp hcycle
  have hnone := List.isEmpty_iff.mp (List.all_eq_true.mp htypes type htype)
  rw [hnone] at hstands
  exact List.not_mem_nil hstands

/-- An untagged type that is its own case, and an alias for itself. -/
def selfHoldingDocument : Document where
  definitions :=
    [("Node", .object
      [("anyOf", .array
        [.object [("allOf", .array [.object [("$ref", .string "#/$defs/Node")]])]])]),
      ("Alias", .object [("$ref", .string "#/$defs/Alias")])]
  revision := none
  distinct := by decide

/-- Nothing keeps a type from standing for itself. -/
theorem selfHolding_cyclic :
    ∃ model, Model.build selfHoldingDocument = .ok model ∧ model.Holds "Node" "Node" ∧
      model.Holds "Alias" "Alias" ∧ ¬Acyclic model.Holds := by
  have htypes : ((Model.build selfHoldingDocument).toOption.map fun model =>
      model.types.map fun type => (type.name, type.inPlace)) =
        some [("Alias", ["Alias"]), ("Node", ["Node"])] := by
    decide
  obtain ⟨model, hbuild, htypes⟩ := exists_of_toOption_map_eq_some htypes
  have hholds {name : String}
      (hmem : (name, [name]) ∈ [("Alias", ["Alias"]), ("Node", ["Node"])]) :
      model.Holds name name := by
    rw [← htypes] at hmem
    obtain ⟨type, htype, heq⟩ := List.mem_map.mp hmem
    obtain ⟨hname, hinPlace⟩ := Prod.mk.inj heq
    exact ⟨type, htype, hname, hinPlace ▸ List.mem_singleton_self name⟩
  have hnode : model.Holds "Node" "Node" := hholds (by decide)
  exact ⟨model, hbuild, hnode, hholds (by decide),
    fun hacyclic => hacyclic "Node" (Relation.TransGen.single hnode)⟩

end SchemaCompiler
