import SchemaCompiler.Proofs.Hierarchy.Promotion
import SchemaCompiler.Proofs.Model.Names

/-!
# Cases of tagged types

Every case of an emitted tagged type is an emitted variant that records the base and the value of
the case, and no type is a case twice.  A wrapper is declared beside its base.  A promoted
definition is declared on its own; that it finds the base that promoted it is
`Hierarchy.Analysis.derived?_of_promoted`.
-/

namespace SchemaCompiler

open Fallible

/-- The cases of a tagged type; any other type has none. -/
def TypeBody.taggedCases : TypeBody → List TaggedCase
  | .tagged _ cases => cases
  | _ => []

def TypeDecl.taggedCases (type : TypeDecl) : List TaggedCase :=
  type.body.taggedCases

namespace Build

variable {source : Source} {definition : Definition}

/-- A declared type with a tagged case is the type of a base, and the case is one of its
branches. -/
theorem exists_branch_of_mem_taggedCases {types : List TypeDecl} {notices : List Notice}
    (h : Declares source definition (types, notices)) {type : TypeDecl} (htype : type ∈ types)
    {case : TaggedCase} (hcase : case ∈ type.taggedCases) :
    ∃ base, source.hierarchy.base? definition.name = some base ∧
      types = (tagged source.document definition base).1 ∧
      type.name = Naming.typeName definition.name ∧
      type.taggedCases = base.branches.map fun branch =>
        ⟨branch.value, branch.caseName, branch.typeName⟩ := by
  cases hbody : type.body with
  | tagged property cases =>
      obtain ⟨base, hbase, htypes, rfl⟩ := h.exists_base_of_tagged htype hbody
      exact ⟨base, hbase, htypes, rfl, rfl⟩
  | _ =>
      rw [TypeDecl.taggedCases, hbody] at hcase
      exact absurd hcase List.not_mem_nil

end Build

/-! ## The variant of a case -/

/-- Some of the types is the variant of that name, base and value. -/
def HasVariant (types : List TypeDecl) (name base value : String) : Prop :=
  ∃ type ∈ types, type.name = name ∧ ∃ fields, type.body = .variant base value fields

theorem HasVariant.unique {types : List TypeDecl} (hnodup : (types.map (·.name)).Nodup)
    {name base value base' value' : String} (h : HasVariant types name base value)
    (h' : HasVariant types name base' value') : base = base' ∧ value = value' := by
  obtain ⟨type, htype, hname, fields, hbody⟩ := h
  obtain ⟨type', htype', hname', fields', hbody'⟩ := h'
  obtain rfl : type = type' :=
    List.inj_on_of_nodup_map hnodup htype htype' (hname.trans hname'.symm)
  have hbodies := hbody.symm.trans hbody'
  exact ⟨(TypeBody.variant.inj hbodies).1, (TypeBody.variant.inj hbodies).2.1⟩

namespace Compilation

variable {document : Document} (run : Compilation document)

theorem mem_types_iff {type : TypeDecl} :
    type ∈ run.types ↔ ∃ definition ∈ document.sorted,
      type ∈ Build.typesOf run.source definition := by
  rw [types_eq, List.mem_flatMap]

theorem mem_types_of_promoted {base : Base} (hbase : base ∈ run.analysis.bases) {branch : Branch}
    (hbranch : branch ∈ base.branches) {target : Definition} (htarget : target ∈ document.sorted)
    (hsource : branch.source = .promoted target.name) :
    TypeDecl.ofDefinition target.name target.description?
      (Build.promoted document target
        ⟨target.name, base.definition, base.property, branch.value⟩).1 ∈ run.types := by
  have hderived := run.analysis.derived?_of_promoted hbase hbranch hsource
  have hpromoted : Build.declare run.source target = .ok (Build.single target
      (Build.promoted document target
        ⟨target.name, base.definition, base.property, branch.value⟩)) :=
    Build.declare_eq_ok_iff.mpr (.promoted hderived)
  refine run.mem_types_iff.mpr ⟨target, htarget, ?_⟩
  rw [Build.typesOf_eq hpromoted]
  exact List.mem_singleton_self _

/-- A promoted definition is declared as the variant that its base expects. -/
theorem hasVariant_of_promoted {base : Base} (hbase : base ∈ run.analysis.bases) {branch : Branch}
    (hbranch : branch ∈ base.branches) {name : String} (hsource : branch.source = .promoted name) :
    HasVariant run.types branch.typeName base.typeName branch.value := by
  have hcoherent := run.coherent (run.analysis.mem_hierarchy_bases.mpr hbase)
  rw [hcoherent.typeName_promoted branch hbranch name hsource]
  -- a record that is promoted is defined
  obtain ⟨target, htarget⟩ := run.analysis.exists_definition_of_promoted hbase hbranch hsource
  obtain rfl := Document.name_of_get? htarget
  exact ⟨_, run.mem_types_of_promoted hbase hbranch (Document.mem_sorted_of_get? htarget) hsource,
    rfl, _, rfl⟩

/-- Where a base is declared as a tagged type, its wrappers are declared as well. -/
theorem mem_types_of_wrapper {definition : Definition} (hdefinition : definition ∈ document.sorted)
    {base : Base}
    (htypes : Build.typesOf run.source definition = (Build.tagged document definition base).1)
    {branch : Branch} (hbranch : branch ∈ base.branches) (hpromoted : branch.isPromoted = false) :
    (Build.wrapper document definition base branch).1 ∈ run.types := by
  refine run.mem_types_iff.mpr ⟨definition, hdefinition, ?_⟩
  rw [htypes]
  refine List.mem_cons_of_mem _ (List.mem_map_of_mem (List.mem_map_of_mem ?_))
  exact List.mem_filter.mpr ⟨hbranch, by rw [hpromoted]; rfl⟩

theorem hasVariant_of_mem_taggedCases {type : TypeDecl} (htype : type ∈ run.types)
    {case : TaggedCase} (hcase : case ∈ type.taggedCases) :
    HasVariant run.types case.typeName type.name case.value := by
  obtain ⟨definition, hdefinition, htype⟩ := run.mem_types_iff.mp htype
  obtain ⟨notices, hdeclares⟩ := run.declares hdefinition
  obtain ⟨base, hbase, htypes, hname, hcases⟩ :=
    Build.exists_branch_of_mem_taggedCases hdeclares htype hcase
  obtain ⟨hmem, howner⟩ := of_find?_name_eq_some hbase
  obtain ⟨branch, hbranch, rfl⟩ := List.mem_map.mp (hcases ▸ hcase)
  rw [hname, ← howner]
  -- the variant is declared by the promoted definition or beside the base
  cases hpromoted : branch.isPromoted with
  | true =>
      rw [Branch.isPromoted] at hpromoted
      split at hpromoted
      · rename_i name hsource
        exact run.hasVariant_of_promoted (run.analysis.mem_hierarchy_bases.mp hmem) hbranch hsource
      · cases hpromoted
  | false =>
      exact ⟨_, run.mem_types_of_wrapper hdefinition htypes hbranch hpromoted, rfl, _, rfl⟩

theorem values_nodup_of_mem_types {type : TypeDecl} (htype : type ∈ run.types) :
    (type.taggedCases.map (·.value)).Nodup := by
  cases hcases : type.taggedCases with
  | nil => exact List.nodup_nil
  | cons first rest =>
      obtain ⟨definition, hdefinition, htype⟩ := run.mem_types_iff.mp htype
      obtain ⟨notices, hdeclares⟩ := run.declares hdefinition
      obtain ⟨base, hbase, -, -, hbranches⟩ := Build.exists_branch_of_mem_taggedCases hdeclares
        htype (hcases ▸ List.mem_cons_self)
      rw [← hcases, hbranches, List.map_map]
      exact (run.coherent (of_find?_name_eq_some hbase).1).values_nodup

/-! ## Emitted types -/

@[simp] theorem taggedCases_emitted (type : TypeDecl) :
    (run.emitted type).taggedCases = type.taggedCases := by
  obtain ⟨definition, origin, name, description, body⟩ := type
  cases body <;> rfl

theorem tagged_emitted_iff {type : TypeDecl} {property : String} {cases : List TaggedCase} :
    (run.emitted type).body = .tagged property cases ↔ type.body = .tagged property cases :=
  run.body_emitted_iff (fun _ => TypeBody.noConfusion) fun _ _ _ => TypeBody.noConfusion

theorem hasVariant_model_of_types {name base value : String} (h : HasVariant run.types name base value) :
    HasVariant run.model.types name base value := by
  obtain ⟨type, htype, hname, fields, hbody⟩ := h
  refine ⟨run.emitted type, run.mem_model_types_iff.mpr ⟨type, htype, rfl⟩, hname,
    (run.emitted type).fields, ?_⟩
  obtain ⟨definition, origin, name, description, body⟩ := type
  obtain rfl : body = .variant base value fields := hbody
  rfl

theorem hasVariant_model {base : TypeDecl} (hbase : base ∈ run.model.types) {case : TaggedCase}
    (hcase : case ∈ base.taggedCases) :
    HasVariant run.model.types case.typeName base.name case.value := by
  obtain ⟨type, htype, rfl⟩ := run.mem_model_types_iff.mp hbase
  rw [taggedCases_emitted] at hcase
  exact run.hasVariant_model_of_types (run.hasVariant_of_mem_taggedCases htype hcase)

theorem case_names_nodup :
    (run.model.types.flatMap fun base => base.taggedCases.map (·.typeName)).Nodup := by
  have hnodup := run.model_names_nodup
  rw [List.nodup_flatMap]
  constructor
  · -- two cases of one base: their variants would record two values
    intro base hbase
    obtain ⟨type, htype, rfl⟩ := run.mem_model_types_iff.mp hbase
    have hvalues := run.values_nodup_of_mem_types htype
    rw [← taggedCases_emitted run type] at hvalues
    refine List.pairwise_map.mpr ((List.pairwise_map.mp hvalues).imp_of_mem ?_)
    intro first second hfirst hsecond hne hname
    have hvariant := run.hasVariant_model hbase hfirst
    rw [hname] at hvariant
    exact hne (hvariant.unique hnodup (run.hasVariant_model hbase hsecond)).2
  · -- cases of two bases: their variants would record two bases
    refine (List.pairwise_map.mp hnodup).imp_of_mem fun {first second} hfirst hsecond hne => ?_
    intro name hname hname'
    obtain ⟨case, hcase, rfl⟩ := List.mem_map.mp hname
    obtain ⟨case', hcase', hsame⟩ := List.mem_map.mp hname'
    have hvariant := run.hasVariant_model hsecond hcase'
    rw [hsame] at hvariant
    exact hne ((run.hasVariant_model hfirst hcase).unique hnodup hvariant).1

end Compilation

/-- **Every case of an emitted tagged type names one emitted type**, the variant of its base and
value, and no type is a case twice. -/
theorem Model.cases_are_variants {document : Document} {model : Model}
    (h : Model.build document = .ok model) :
    (∀ base ∈ model.types, ∀ case ∈ base.taggedCases,
      (model.types.map (·.name)).count case.typeName = 1 ∧
        HasVariant model.types case.typeName base.name case.value) ∧
      (model.types.flatMap fun base => base.taggedCases.map (·.typeName)).Nodup := by
  obtain ⟨run, rfl⟩ := Model.build_eq_ok_iff.mp h
  refine ⟨fun base hbase case hcase => ?_, run.case_names_nodup⟩
  have hvariant := run.hasVariant_model hbase hcase
  obtain ⟨type, htype, hname, -⟩ := hvariant
  exact ⟨List.count_eq_one_of_mem run.model_names_nodup (hname ▸ List.mem_map_of_mem htype),
    run.hasVariant_model hbase hcase⟩

/-- A base with one branch that is promoted and one that gets a wrapper. -/
def eventDocument : Document where
  definitions :=
    [("Created", kindRecord "created"),
      ("Event", kindBase
        [.object [("$ref", .string "#/$defs/Created")], kindRecord "deleted"])]
  revision := none
  distinct := by decide

theorem cases_are_variants_event :
    ∃ model, Model.build eventDocument = .ok model ∧
      (model.types.flatMap fun base => base.taggedCases.map (·.typeName)) =
        ["Created", "EventDeleted"] ∧
      ∀ base ∈ model.types, ∀ case ∈ base.taggedCases,
        HasVariant model.types case.typeName base.name case.value := by
  have hcases : ((Model.build eventDocument).toOption.map fun model =>
      model.types.flatMap fun base => base.taggedCases.map (·.typeName)) =
        some ["Created", "EventDeleted"] := by
    decide
  obtain ⟨model, hbuild, hcases⟩ := exists_of_toOption_map_eq_some hcases
  exact ⟨model, hbuild, hcases, fun base hbase case hcase =>
    ((Model.cases_are_variants hbuild).1 base hbase case hcase).2⟩

end SchemaCompiler
