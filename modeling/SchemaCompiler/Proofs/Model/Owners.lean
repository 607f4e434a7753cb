import SchemaCompiler.Proofs.Hierarchy.Sums
import SchemaCompiler.Proofs.Model.Cases

/-!
# Owners of variants

Every variant is made for a branch of a base, the record that was promoted or a wrapper declared
beside the base.  The analysis makes a definition a base for its branches alone, but a definition
with an `enum` is declared as an enumeration before anybody asks whether it is a base.  So a base
is emitted as a tagged type, and its variants are its cases, exactly if its definition has no
`enum` (`Model.variants_owned`).  With one, the wrappers are never declared, but a record that was
promoted stays a variant of a type that has no cases (`badge_without_cases`).
-/

namespace SchemaCompiler

open Fallible

def Base.cases (base : Base) : List TaggedCase :=
  base.branches.map fun branch => ⟨branch.value, branch.caseName, branch.typeName⟩

/-- Some of the types is the tagged type of a base. -/
def HasBase (types : List TypeDecl) (base : Base) : Prop :=
  ∃ type ∈ types, type.name = base.typeName ∧ type.body = .tagged base.property base.cases

/-- Some of the types has that name and, among its cases, one of that value and type. -/
def HasCase (types : List TypeDecl) (base value name : String) : Prop :=
  ∃ type ∈ types, type.name = base ∧
    ∃ case ∈ type.taggedCases, case.value = value ∧ case.typeName = name

theorem HasBase.hasCase {types : List TypeDecl} {base : Base} (h : HasBase types base)
    {branch : Branch} (hbranch : branch ∈ base.branches) :
    HasCase types base.typeName branch.value branch.typeName := by
  obtain ⟨type, htype, hname, hbody⟩ := h
  refine ⟨type, htype, hname, ⟨branch.value, branch.caseName, branch.typeName⟩, ?_, rfl, rfl⟩
  rw [TypeDecl.taggedCases, hbody]
  exact List.mem_map.mpr ⟨branch, hbranch, rfl⟩

namespace Compilation

variable {document : Document} (run : Compilation document)

/-! ## What a base declares -/

/-- A base is declared as a tagged type, unless it is an enumeration. -/
theorem declares_of_base? {owner : Definition} (howner : owner ∈ document.sorted) {base : Base}
    (hbase : run.source.hierarchy.base? owner.name = some base) :
    (Entries.get? owner.node "enum" = none ∧
      Build.typesOf run.source owner = (Build.tagged document owner base).1) ∨
    (∃ values, Entries.get? owner.node "enum" = some values) ∧
      ∃ body, Build.Independent body ∧ Build.typesOf run.source owner =
        [.ofDefinition owner.name owner.description? body] := by
  obtain ⟨pending, hpending, rfl, -⟩ := run.analysis.exists_pending_of_base? howner hbase
  have hpendingName : pending.definition.name ∈ run.analysis.pending.map (·.definition.name) :=
    List.mem_map_of_mem hpending
  obtain ⟨notices, hdeclares⟩ := run.declares howner
  generalize hresult : (Build.typesOf run.source pending.definition, notices) = result at hdeclares
  have htypes : Build.typesOf run.source pending.definition = result.1 := by rw [← hresult]
  cases hdeclares with
  | tagged hderived halias henum hfound =>
      obtain rfl := Option.some.inj (hbase.symm.trans hfound)
      exact Or.inl ⟨henum, htypes⟩
  | enumeration hderived halias henum hvalues =>
      obtain ⟨members, form, hbody⟩ := Build.exists_toBody_of_enumOfValues hvalues
      refine Or.inr ⟨⟨_, henum⟩, _, Build.independent_toBody members form, ?_⟩
      rw [htypes, ← hbody]
      rfl
  | promoted hderived =>
      exact absurd hpendingName (run.analysis.notMem_pending_names_of_derived? hderived)
  | plainAlias hderived halias =>
      obtain ⟨draw⟩ := run.analysis.draw_of_mem_pending hpending
      rw [Build.isPlainAlias_eq_false draw.keyword_mem draw.items_eq] at halias
      cases halias
  | untagged hderived halias henum hnone habstract =>
      exact absurd hpendingName (run.analysis.notMem_pending_names_of_base? hnone)
  | structural hderived halias henum hnone habstract hstructural =>
      exact absurd hpendingName (run.analysis.notMem_pending_names_of_base? hnone)

theorem typesOf_of_enum_eq_none {owner : Definition} (howner : owner ∈ document.sorted)
    {base : Base} (hbase : run.source.hierarchy.base? owner.name = some base)
    (henum : Entries.get? owner.node "enum" = none) :
    Build.typesOf run.source owner = (Build.tagged document owner base).1 := by
  rcases run.declares_of_base? howner hbase with ⟨-, htypes⟩ | ⟨⟨values, hvalues⟩, -⟩
  · exact htypes
  · rw [henum] at hvalues
    cases hvalues

theorem hasBase_of_enum_eq_none {owner : Definition} (howner : owner ∈ document.sorted)
    {base : Base} (hbase : run.source.hierarchy.base? owner.name = some base)
    (henum : Entries.get? owner.node "enum" = none) : HasBase run.types base := by
  obtain ⟨-, hname⟩ := of_find?_name_eq_some hbase
  have hmem : TypeDecl.ofDefinition owner.name owner.description?
      (.tagged base.property base.cases) ∈ Build.typesOf run.source owner := by
    rw [run.typesOf_of_enum_eq_none howner hbase henum]
    exact List.mem_cons_self
  refine ⟨_, run.mem_types_iff.mpr ⟨owner, howner, hmem⟩, ?_, rfl⟩
  rw [Base.typeName, hname]
  rfl

/-- A definition with an `enum` declares one type, and that has no cases. -/
theorem enum_eq_none_of_not_independent {owner : Definition} (howner : owner ∈ document.sorted)
    {base : Base} (hbase : run.source.hierarchy.base? owner.name = some base)
    {type : TypeDecl} (htype : type ∈ run.types) (hname : type.name = base.typeName)
    (hbody : ¬Build.Independent type.body) : Entries.get? owner.node "enum" = none := by
  obtain ⟨-, howns⟩ := of_find?_name_eq_some hbase
  rcases run.declares_of_base? howner hbase with ⟨henum, -⟩ | ⟨-, body, hindependent, htypes⟩
  · exact henum
  · have hown : TypeDecl.ofDefinition owner.name owner.description? body ∈ run.types :=
      run.mem_types_iff.mpr ⟨owner, howner, htypes ▸ List.mem_singleton_self _⟩
    -- types of one name are one type
    obtain rfl : type = .ofDefinition owner.name owner.description? body := by
      refine List.inj_on_of_nodup_map run.names_nodup htype hown ?_
      rw [hname, Base.typeName, ← howns]
      rfl
    exact absurd hindependent hbody

theorem hasBase_iff {owner : Definition} (howner : owner ∈ document.sorted) {base : Base}
    (hbase : run.source.hierarchy.base? owner.name = some base) :
    HasBase run.types base ↔ Entries.get? owner.node "enum" = none := by
  constructor
  · rintro ⟨type, htype, hname, hbody⟩
    refine run.enum_eq_none_of_not_independent howner hbase htype hname fun hindependent => ?_
    rw [hbody] at hindependent
    exact hindependent
  · exact run.hasBase_of_enum_eq_none howner hbase

theorem hasCase_iff {owner : Definition} (howner : owner ∈ document.sorted) {base : Base}
    (hbase : run.source.hierarchy.base? owner.name = some base) {branch : Branch}
    (hbranch : branch ∈ base.branches) :
    HasCase run.types base.typeName branch.value branch.typeName ↔
      Entries.get? owner.node "enum" = none := by
  constructor
  · rintro ⟨type, htype, hname, case, hcase, -⟩
    refine run.enum_eq_none_of_not_independent howner hbase htype hname fun hindependent => ?_
    rw [TypeDecl.taggedCases] at hcase
    cases hbody : type.body with
    | tagged =>
        rw [hbody] at hindependent
        exact hindependent
    | _ =>
        rw [hbody] at hcase
        exact absurd hcase List.not_mem_nil
  · intro henum
    exact (run.hasBase_of_enum_eq_none howner hbase henum).hasCase hbranch

/-! ## What a variant is made for -/

/-- A variant is made for a branch of a base. -/
theorem exists_branch_of_variant {type : TypeDecl} (htype : type ∈ run.types)
    {name value : String} {fields : List Field} (hbody : type.body = .variant name value fields) :
    ∃ base ∈ run.analysis.bases, name = base.typeName ∧
      ∃ branch ∈ base.branches, branch.value = value ∧ branch.typeName = type.name := by
  obtain ⟨definition, hdefinition, hmem⟩ := run.mem_types_iff.mp htype
  obtain ⟨notices, hdeclares⟩ := run.declares hdefinition
  cases hdeclares.declaresType hmem with
  | @promoted derived hderived =>
      obtain ⟨hfound, hname⟩ := of_find?_name_eq_some hderived
      obtain ⟨base, hbase, branch, hbranch, target, hsource, rfl⟩ :=
        Hierarchy.mem_derived_iff.mp hfound
      obtain ⟨rfl, rfl, -⟩ := TypeBody.variant.inj hbody
      refine ⟨base, run.analysis.mem_hierarchy_bases.mp hbase, rfl, branch, hbranch, rfl, ?_⟩
      rw [(run.coherent hbase).typeName_promoted branch hbranch target hsource]
      exact congrArg Naming.typeName hname
  | @wrapper base hbase branch hbranch hpromoted =>
      obtain ⟨rfl, rfl, -⟩ := TypeBody.variant.inj hbody
      obtain ⟨hfound, -⟩ := of_find?_name_eq_some hbase
      exact ⟨base, run.analysis.mem_hierarchy_bases.mp hfound, rfl, branch, hbranch, rfl, rfl⟩
  | tagged _ _ _ _ => cases hbody
  | independent hindependent =>
      obtain rfl : _ = TypeBody.variant name value fields := hbody
      exact hindependent.elim

theorem exists_owner {base : Base} (hbase : base ∈ run.analysis.bases) :
    ∃ owner ∈ document.sorted, owner.name = base.definition ∧
      run.source.hierarchy.base? owner.name = some base := by
  obtain ⟨pending, hpending, hdecided⟩ := run.analysis.exists_pending_of_mem_bases hbase
  obtain ⟨found, hfound, hlookup⟩ := run.analysis.base?_of_mem_pending hpending
  obtain rfl := Except.ok.inj (hfound.symm.trans hdecided)
  exact ⟨pending.definition, run.analysis.mem_sorted_of_mem_pending hpending,
    (Hierarchy.definition_of_baseOf hdecided).symm, hlookup⟩

/-! ## Emitted types -/

theorem hasCase_model_iff {base value name : String} :
    HasCase run.model.types base value name ↔ HasCase run.types base value name := by
  constructor
  · rintro ⟨type, htype, hname, case, hcase, hshape⟩
    obtain ⟨declared, hdeclared, rfl⟩ := run.mem_model_types_iff.mp htype
    rw [taggedCases_emitted] at hcase
    exact ⟨declared, hdeclared, hname, case, hcase, hshape⟩
  · rintro ⟨type, htype, hname, case, hcase, hshape⟩
    refine ⟨run.emitted type, run.mem_model_types_iff.mpr ⟨type, htype, rfl⟩, hname, case, ?_,
      hshape⟩
    rwa [taggedCases_emitted]

theorem hasBase_model_iff {base : Base} :
    HasBase run.model.types base ↔ HasBase run.types base := by
  constructor
  · rintro ⟨type, htype, hname, hbody⟩
    obtain ⟨declared, hdeclared, rfl⟩ := run.mem_model_types_iff.mp htype
    exact ⟨declared, hdeclared, hname, run.tagged_emitted_iff.mp hbody⟩
  · rintro ⟨type, htype, hname, hbody⟩
    exact ⟨run.emitted type, run.mem_model_types_iff.mpr ⟨type, htype, rfl⟩, hname,
      run.tagged_emitted_iff.mpr hbody⟩

/-- An emitted variant was declared as the same variant, up to boxes. -/
theorem exists_fields_of_emitted {type : TypeDecl} {base value : String} {fields : List Field}
    (h : (run.emitted type).body = .variant base value fields) :
    ∃ declared, type.body = .variant base value declared := by
  obtain ⟨definition, origin, name, description, body⟩ := type
  cases body with
  | variant base' value' declared =>
      obtain ⟨rfl, rfl, -⟩ := TypeBody.variant.inj h
      exact ⟨declared, rfl⟩
  | _ => cases h

end Compilation

/-- **Which variants have an owner.**  A base of the analysis is emitted as a tagged type exactly
if its definition has no `enum`.  Every variant is made for a branch of a base, and some emitted
type of the name of the base has it as a case under the same condition. -/
theorem Model.variants_owned {document : Document} {model : Model}
    (h : Model.build document = .ok model) :
    ∃ hierarchy notices, Hierarchy.analyze document = .ok (hierarchy, notices) ∧
      (∀ base ∈ hierarchy.bases, ∃ owner, document.get? base.definition = some owner ∧
        (HasBase model.types base ↔ Entries.get? owner.node "enum" = none)) ∧
      ∀ type ∈ model.types, ∀ name value fields, type.body = .variant name value fields →
        ∃ base ∈ hierarchy.bases, name = base.typeName ∧
          ∃ owner, document.get? base.definition = some owner ∧
            (HasCase model.types name value type.name ↔ Entries.get? owner.node "enum" = none) := by
  obtain ⟨run, rfl⟩ := Model.build_eq_ok_iff.mp h
  refine ⟨run.analysis.hierarchy, run.analysis.notices,
    Hierarchy.analyze_eq_ok_iff.mpr ⟨run.analysis, rfl, rfl⟩, ?_, ?_⟩
  · intro base hbase
    obtain ⟨owner, howner, hname, hlookup⟩ :=
      run.exists_owner (run.analysis.mem_hierarchy_bases.mp hbase)
    refine ⟨owner, hname ▸ Document.get?_of_mem_sorted howner, ?_⟩
    rw [run.hasBase_model_iff, run.hasBase_iff howner hlookup]
  · intro type htype name value fields hbody
    obtain ⟨declared, hdeclared, rfl⟩ := run.mem_model_types_iff.mp htype
    obtain ⟨declaredFields, hdeclaredBody⟩ := run.exists_fields_of_emitted hbody
    obtain ⟨base, hbase, rfl, branch, hbranch, rfl, hbranchName⟩ :=
      run.exists_branch_of_variant hdeclared hdeclaredBody
    obtain ⟨owner, howner, hname, hlookup⟩ := run.exists_owner hbase
    refine ⟨base, run.analysis.mem_hierarchy_bases.mpr hbase, rfl, owner,
      hname ▸ Document.get?_of_mem_sorted howner, ?_⟩
    rw [run.hasCase_model_iff]
    show HasCase run.types base.typeName branch.value declared.name ↔ _
    rw [← hbranchName, run.hasCase_iff howner hlookup hbranch]

theorem variants_owned_event :
    ∃ model, Model.build eventDocument = .ok model ∧
      (model.types.map fun type => (type.name, type.taggedCases.map (·.typeName))) =
        [("Created", []), ("Event", ["Created", "EventDeleted"]), ("EventDeleted", [])] ∧
      ∀ type ∈ model.types, ∀ name value fields, type.body = .variant name value fields →
        HasCase model.types name value type.name := by
  have hshown : ((Model.build eventDocument).toOption.map fun model =>
      model.types.map fun type => (type.name, type.taggedCases.map (·.typeName))) =
        some [("Created", []), ("Event", ["Created", "EventDeleted"]), ("EventDeleted", [])] := by
    decide
  have henums : ∀ owner ∈ eventDocument.sorted,
      (Entries.get? owner.node "enum").isNone = true := by
    decide
  obtain ⟨model, hbuild, hshown⟩ := exists_of_toOption_map_eq_some hshown
  refine ⟨model, hbuild, hshown, fun type htype name value fields hbody => ?_⟩
  obtain ⟨hierarchy, notices, -, -, hvariants⟩ := Model.variants_owned hbuild
  obtain ⟨base, -, -, owner, howner, hcase⟩ := hvariants type htype name value fields hbody
  exact hcase.mpr (Option.isNone_iff_eq_none.mp (henums owner (Document.mem_sorted_of_get? howner)))

/-! ## Bases that are enumerations -/

/-- The base and the value of a variant. -/
def TypeBody.variant? : TypeBody → Option (String × String)
  | .variant base value _ => some (base, value)
  | _ => none

theorem TypeBody.eq_of_variant? {body : TypeBody} {base value : String}
    (h : body.variant? = some (base, value)) : body = .variant base value body.fields := by
  cases body with
  | variant => cases h; rfl
  | _ => cases h

/-- What a lookup shows of a variant without fields. -/
theorem Model.exists_variant_of_type? {model : Model} {name base value : String}
    (h : ((model.type? name).map fun type =>
      (type.body.variant?, type.fields.map (·.wireName))) = some (some (base, value), [])) :
    ∃ type ∈ model.types, type.name = name ∧ type.body = .variant base value [] := by
  obtain ⟨type, hfound, hshown⟩ := Option.map_eq_some_iff.mp h
  obtain ⟨hvariant, hfields⟩ := Prod.mk.inj hshown
  obtain ⟨htype, hname⟩ := of_find?_name_eq_some hfound
  have hbody := TypeBody.eq_of_variant? hvariant
  rw [show type.body.fields = [] from List.map_eq_nil_iff.mp hfields] at hbody
  exact ⟨type, htype, hname, hbody⟩

/-- An enumeration that is a base as well. -/
def badgeDocument : Document where
  definitions :=
    [("Badge", .object
        [("enum", .array [.string "plain"]),
          ("discriminator", .object [("propertyName", .string "kind")]),
          ("oneOf", .array [.object [("$ref", .string "#/$defs/Leaf")]])]),
      ("Leaf", kindRecord "leaf")]
  revision := none
  distinct := by decide

/-- The record was promoted, without its tag, into a type that has no case for it. -/
theorem badge_without_cases :
    ∃ model, Model.build badgeDocument = .ok model ∧
      (∃ type ∈ model.types, type.name = "Leaf" ∧ type.body = .variant "Badge" "leaf" []) ∧
      ¬HasCase model.types "Badge" "leaf" "Leaf" := by
  have hshown : ((Model.build badgeDocument).toOption.map fun model =>
      ((model.type? "Leaf").map fun type => (type.body.variant?, type.fields.map (·.wireName)),
        model.types.flatMap (·.taggedCases))) =
        some (some (some ("Badge", "leaf"), []), []) := by
    decide
  obtain ⟨model, hbuild, hshown⟩ := exists_of_toOption_map_eq_some hshown
  obtain ⟨hleaf, hcases⟩ := Prod.mk.inj hshown
  refine ⟨model, hbuild, Model.exists_variant_of_type? hleaf, ?_⟩
  rintro ⟨owner, howner, -, case, hcase, -⟩
  rw [List.flatMap_eq_nil_iff] at hcases
  rw [hcases owner howner] at hcase
  exact absurd hcase List.not_mem_nil

end SchemaCompiler
