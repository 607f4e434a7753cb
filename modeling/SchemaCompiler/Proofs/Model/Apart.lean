import SchemaCompiler.Proofs.Hierarchy.Apart
import SchemaCompiler.Proofs.Model.Cycles
import SchemaCompiler.Proofs.Model.Fields

/-!
# Promoted definitions belong to their base alone

Fields are read from three kinds of property sets: the properties that a base shares with its
branches, the properties of a definition that is no base, and those of a branch that refers to no
definition.  None of them refers to a promoted definition (`Site.notMem`), and neither does an
alias or a case of an untagged type, so no emitted type does (`Model.promoted_apart`).

A property called `$ref` is the exception.  The tally takes its schema for the text of a reference
and does not look into it, so what a field of that name refers to may be promoted all the same
(`holder_shares_leaf`).
-/

namespace SchemaCompiler

open Fallible

namespace Hierarchy.Analysis

variable {document : Document} (run : Analysis document)

/-- The property sets that fields are read from. -/
inductive Site : PropertySet → Prop where
  /-- What a base shares with its branches. -/
  | shared {pending : Pending} (hpending : pending ∈ run.pending) :
      Site (PropertySet.ofNode pending.definition.node)
  | own {definition : Definition} (hdefinition : definition ∈ document.sorted)
      (hbase : definition.name ∉ run.pending.map (·.definition.name)) :
      Site (PropertySet.ofRecord definition.node)
  /-- A branch that refers to no definition. -/
  | inline {pending : Pending} (hpending : pending ∈ run.pending) {candidate : Candidate}
      (hcandidate : candidate ∈ pending.candidates)
      (htarget : candidate.refName.bind document.get? = none) :
      Site (PropertySet.ofRecord candidate.item)

variable {run}

theorem Site.notMem {set : PropertySet} (hsite : run.Site set) {wireName : String}
    {property : Property} (hproperty : (wireName, property) ∈ set) (hwire : wireName ≠ "$ref")
    {pending : Pending} (hpending : pending ∈ run.pending) {name : String}
    (hpromotable : isPromotable run.scope pending name = true) :
    name ∉ Tally.ofJson property.schema := by
  intro hname
  cases hsite with
  | @shared other hother =>
      obtain ⟨properties, hproperties, hmem⟩ :=
        PropertySet.exists_properties_of_mem_ofNode hproperty
      have hinside := PropertySet.mem_ofJson_of_mem_properties hmem hwire hname
      obtain rfl := run.eq_of_mem_ofMembers hpending hpromotable hother
        (Tally.mem_ofMembers_of_get? hproperties (by decide) hinside)
      exact run.notMem_of_other_keyword hpending hpromotable hproperties (by decide) hinside
  | @own definition hdefinition hbase =>
      refine run.notMem_of_other_definition hpending hpromotable hdefinition ?_
        (PropertySet.mem_ofMembers_of_mem_ofRecord hproperty hwire hname)
      intro heq
      exact hbase (List.mem_map.mpr ⟨pending, hpending, heq.symm⟩)
  | @inline other hother candidate hcandidate htarget =>
      have hinside := PropertySet.mem_ofMembers_of_mem_ofRecord hproperty hwire hname
      obtain ⟨draw⟩ := run.draw_of_mem_pending hother
      obtain rfl := run.eq_of_mem_ofMembers hpending hpromotable hother
        (Tally.mem_ofMembers_of_item draw.items_eq (draw.keyword_ne (by decide))
          (draw.candidate?_item hcandidate).1 hinside)
      refine run.notMem_of_other_candidate hpending hpromotable hcandidate ?_ hinside
      -- a promotable definition is one that can be looked up
      intro href
      obtain ⟨⟨definition, hdefinition, -⟩, -⟩ := isPromotable_iff.mp hpromotable
      rw [href, Option.bind_some, show document.get? name = some definition from hdefinition]
        at htarget
      cases htarget

variable (run)

/-- A field reads a property of a site, or it holds a sum type whole. -/
def Placed (field : Field) : Prop :=
  (∃ set, run.Site set ∧ ∃ property, (field.wireName, property) ∈ set ∧
    Build.Describes document field property) ∨
  ∃ target ∈ run.scope.sums, field.descriptor = .reference target

variable {run}

theorem Placed.notMem {field : Field} (h : run.Placed field) (hwire : field.wireName ≠ "$ref")
    {derived : Derived} (hderived : derived ∈ run.hierarchy.derived) :
    derived.definition ∉ field.descriptor.references := by
  obtain ⟨pending, hpending, -, hpromotable, -⟩ := run.exists_candidate_of_mem_derived hderived
  intro hmem
  rcases h with ⟨set, hsite, property, hproperty, hdescribes⟩ | ⟨target, htarget, hdescriptor⟩
  · exact hsite.notMem hproperty hwire hpending hpromotable (hdescribes.mem_ofJson hmem)
  · rw [hdescriptor] at hmem
    obtain rfl := List.mem_singleton.mp hmem
    exact run.not_isPromotable_of_mem_sums htarget pending hpromotable

/-- The fields of a branch are placed if its base and its own node are. -/
theorem placed_of_mem_branchFields {origin typeName property : String} {node base : Option Node}
    (hbase : ∀ shared, base = some shared → run.Site (PropertySet.ofNode shared))
    (hnode : ∀ own, node = some own → run.Site (PropertySet.ofRecord own)) {field : Field}
    (h : field ∈ (Build.branchFields document origin typeName node base property).1) :
    run.Placed field := by
  obtain ⟨declared, hdescribes, ⟨shared, hshared, hmem⟩ | ⟨own, hown, hmem⟩⟩ :=
    Build.exists_property_of_mem_branchFields h
  · exact Or.inl ⟨_, hbase shared hshared, declared, hmem, hdescribes⟩
  · exact Or.inl ⟨_, hnode own hown, declared, hmem, hdescribes⟩

end Hierarchy.Analysis

/-! ## Forms of types -/

/-- A type refers to a definition neither in a field, unless that is called `$ref`, nor as the
target of an alias nor as a case of an untagged type. -/
def Apart (name : String) : TypeBody → Prop
  | .record fields | .variant _ _ fields =>
    ∀ field ∈ fields, field.wireName ≠ "$ref" → name ∉ field.descriptor.references
  | .aliasOf target => name ∉ target.references
  | .untagged cases => ∀ case ∈ cases, case.typeName ≠ Naming.typeName name
  | .enumeration _ _ _ | .tagged _ _ | .union _ _ => True

theorem apart_toBody (name : String) (members : Members) (form : EnumForm) :
    Apart name (members.toBody form) := by
  rcases Build.toBody_cases members form with ⟨items, catchAll, hbody⟩ | ⟨width, hbody⟩
  · rw [hbody]
    exact trivial
  · rw [hbody]
    exact List.not_mem_nil

namespace Compilation

variable {document : Document} (run : Compilation document) {derived : Derived}
  (hderived : derived ∈ run.analysis.hierarchy.derived)

include hderived in
/-- A definition that is no base does not refer to a promoted one. -/
theorem notMem_ofMembers {definition : Definition} (hdefinition : definition ∈ document.sorted)
    (hbase : definition.name ∉ run.analysis.pending.map (·.definition.name)) :
    derived.definition ∉ Tally.ofMembers definition.node := by
  obtain ⟨pending, hpending, -, hpromotable, -⟩ :=
    run.analysis.exists_candidate_of_mem_derived hderived
  refine run.analysis.notMem_of_other_definition hpending hpromotable hdefinition ?_
  intro heq
  exact hbase (List.mem_map.mpr ⟨pending, hpending, heq.symm⟩)

theorem site_of_base {name : String} {pending : Hierarchy.Pending}
    (hpending : pending ∈ run.analysis.pending) (hname : pending.definition.name = name)
    {shared : Node} (h : (document.get? name).map (·.node) = some shared) :
    run.analysis.Site (PropertySet.ofNode shared) := by
  obtain ⟨definition, hdefinition, rfl⟩ := Option.map_eq_some_iff.mp h
  obtain rfl := run.analysis.definition_eq_of_name_eq hpending
    (Document.mem_sorted_of_get? hdefinition) (hname.trans (Document.name_of_get? hdefinition).symm)
  exact .shared hpending

theorem placed_of_mem_promoted {definition : Definition}
    (hdefinition : definition ∈ document.sorted) {derived : Derived}
    (h : run.analysis.hierarchy.derived? definition.name = some derived)
    {field : Field} (hfield : field ∈ (Build.promoted document definition derived).1.fields) :
    run.analysis.Placed field := by
  obtain ⟨hderived, -⟩ := of_find?_name_eq_some h
  obtain ⟨pending, hpending, hbase, -⟩ := run.analysis.exists_candidate_of_mem_derived hderived
  refine Hierarchy.Analysis.placed_of_mem_branchFields (fun shared hshared => ?_)
    (fun own hown => ?_) hfield
  · exact run.site_of_base hpending hbase.symm hshared
  · obtain rfl := Option.some.inj hown
    exact .own hdefinition (run.analysis.notMem_pending_names_of_derived? h)

/-- The node that a wrapper takes fields of its own from. -/
def wrapperNode? (document : Document) : BranchSource → Option Node
  | .wrapped name => (document.get? name).map (·.node)
  | .inline item => some item
  | _ => none

theorem site_of_wrapperNode? {pending : Hierarchy.Pending}
    (hpending : pending ∈ run.analysis.pending) {candidate : Hierarchy.Candidate}
    (hcandidate : candidate ∈ pending.candidates) {own : Node}
    (h : wrapperNode? document (Hierarchy.wrapperSource run.analysis.scope candidate) = some own) :
    run.analysis.Site (PropertySet.ofRecord own) := by
  cases hsource : Hierarchy.wrapperSource run.analysis.scope candidate with
  | wrapped name =>
      rw [hsource] at h
      obtain ⟨definition, hdefinition, rfl⟩ := Option.map_eq_some_iff.mp h
      obtain rfl := Document.name_of_get? hdefinition
      refine .own (Document.mem_sorted_of_get? hdefinition) fun hmem => ?_
      obtain ⟨other, hother, hname⟩ := List.mem_map.mp hmem
      exact (Hierarchy.of_wrapperSource_wrapped hsource).2
        (run.analysis.mem_sums_iff.mpr (Or.inl ⟨other, hother, hname⟩))
  | inline item =>
      rw [hsource] at h
      obtain ⟨rfl, htarget⟩ := Hierarchy.of_wrapperSource_inline hsource
      obtain rfl := Option.some.inj h
      exact .inline hpending hcandidate htarget
  | promoted name =>
      rw [hsource] at h
      cases h
  | nested name =>
      rw [hsource] at h
      cases h

theorem placed_of_mem_wrapper {pending : Hierarchy.Pending}
    (hpending : pending ∈ run.analysis.pending) {base : Base}
    (hbase : Hierarchy.baseOf run.analysis.scope pending = .ok base) {branch : Branch}
    (hbranch : branch ∈ base.branches) (hpromoted : branch.isPromoted = false) {field : Field}
    (hfield : field ∈ (Build.wrapper document pending.definition base branch).1.fields) :
    run.analysis.Placed field := by
  obtain ⟨candidate, hcandidate, hsource⟩ :=
    Hierarchy.exists_candidate_of_not_promoted hbase hbranch hpromoted
  have hown : field ∈ (Build.branchFields document
      (pending.definition.name ++ "[" ++ branch.value ++ "]") branch.typeName
      (wrapperNode? document branch.source) (some pending.definition.node) base.property).1 →
      run.analysis.Placed field :=
    Hierarchy.Analysis.placed_of_mem_branchFields
      (fun shared hshared => Option.some.inj hshared ▸ .shared hpending)
      (fun own hnode => run.site_of_wrapperNode? hpending hcandidate (hsource ▸ hnode))
  rw [Build.wrapper] at hfield
  dsimp only [TypeDecl.fields, TypeBody.fields] at hfield
  split at hfield
  · rename_i target hnested
    rcases List.mem_append.mp hfield with hmem | hmem
    · exact hown hmem
    · -- the field that holds a nested sum type
      obtain rfl := List.mem_singleton.mp hmem
      exact Or.inr ⟨target, Hierarchy.of_wrapperSource_nested (hsource.symm.trans hnested), rfl⟩
  · exact hown hfield

/-! ## Declared types -/

theorem exists_type_of_definition {definition : Definition} (h : definition ∈ document.sorted) :
    ∃ type ∈ run.types, type.origin = definition.name ∧
      type.name = Naming.typeName definition.name := by
  obtain ⟨notices, hdeclares⟩ := run.declares h
  obtain ⟨body, hmem⟩ := hdeclares.exists_ofDefinition
  exact ⟨_, run.mem_types_iff.mpr ⟨definition, h, hmem⟩, rfl, rfl⟩

include run in
theorem eq_of_typeName_eq {a b : Definition} (ha : a ∈ document.sorted) (hb : b ∈ document.sorted)
    (h : Naming.typeName a.name = Naming.typeName b.name) : a.name = b.name := by
  obtain ⟨first, hfirst, horigin, hname⟩ := run.exists_type_of_definition ha
  obtain ⟨second, hsecond, horigin', hname'⟩ := run.exists_type_of_definition hb
  rw [← horigin, ← horigin']
  exact run.origin_eq_of_name_eq hfirst hsecond (hname.trans (h.trans hname'.symm))

include hderived in
/-- A child of an untagged type stands in the node of that type. -/
theorem apart_untagged {definition : Definition} (hdefinition : definition ∈ document.sorted)
    {base : AbstractBase}
    (hbase : run.analysis.hierarchy.abstractBase? definition.name = some base) :
    Apart derived.definition (Build.untagged document base) := by
  rw [Build.untagged]
  split
  · exact List.not_mem_nil
  · intro case hcase hname
    obtain ⟨child, hchild, rfl⟩ := List.mem_map.mp hcase
    obtain ⟨hmem, hdefined⟩ := List.mem_filter.mp hchild
    obtain ⟨shape, hshape⟩ := Option.isSome_iff_exists.mp hdefined
    obtain ⟨target, htarget⟩ := run.analysis.exists_definition_of_mem_derived hderived
    -- two definitions whose types have one name are the same
    have hchildName := Document.name_of_get? hshape
    have htargetName := Document.name_of_get? htarget
    rw [← hchildName, ← htargetName] at hname
    have hsame := run.eq_of_typeName_eq (Document.mem_sorted_of_get? hshape)
      (Document.mem_sorted_of_get? htarget) hname
    obtain ⟨hpending, hchildren⟩ :=
      run.analysis.exists_definition_of_abstractBase? hdefinition hbase
    obtain ⟨-, items, hitems, hrefs⟩ := Hierarchy.exists_items_of_abstractChildren? hchildren
    obtain ⟨item, hitem, href⟩ := hrefs child hmem
    refine run.notMem_ofMembers hderived hdefinition hpending ?_
    rw [← htargetName, ← hsame, hchildName]
    exact Tally.mem_ofMembers_of_item hitems (by decide) hitem
      (Tally.mem_ofMembers_of_allOfRef? href)

include hderived in
theorem apart_aliasOf {definition : Definition} (hdefinition : definition ∈ document.sorted)
    (hbase : definition.name ∉ run.analysis.pending.map (·.definition.name)) :
    Apart derived.definition (.aliasOf (Build.known document definition.node.descriptor)) := by
  intro hmem
  refine run.notMem_ofMembers hderived hdefinition hbase ?_
  have hinside := Resolve.mem_ofJson_of_mem_references _ (Build.references_known_subset _ _ hmem)
  rwa [Tally.ofJson] at hinside

include hderived in
theorem apart_structured {definition : Definition} (hdefinition : definition ∈ document.sorted)
    (hbase : definition.name ∉ run.analysis.pending.map (·.definition.name)) {body : TypeBody}
    (h : Build.Structured document definition body) : Apart derived.definition body := by
  cases h with
  | enumeration members form => exact apart_toBody derived.definition members form
  | union => exact trivial
  | record =>
      intro field hfield hwire
      obtain ⟨property, hmem, hdescribes⟩ := Build.exists_property_of_mem_fields hfield
      have hplaced : run.analysis.Placed field :=
        Or.inl ⟨_, .own hdefinition hbase, property, hmem, hdescribes⟩
      exact hplaced.notMem hwire hderived
  | dynamic => exact List.not_mem_nil
  | aliasOf => exact run.apart_aliasOf hderived hdefinition hbase

include hderived in
/-- Whatever its form, a definition declares no type that refers to a promoted definition. -/
theorem apart_of_declares {definition : Definition} (hdefinition : definition ∈ document.sorted)
    {result : List TypeDecl × List Notice} (h : Build.Declares run.source definition result)
    {type : TypeDecl} (htype : type ∈ result.1) : Apart derived.definition type.body := by
  cases h with
  | promoted hfound =>
      rw [List.mem_singleton.mp htype]
      intro field hfield hwire
      exact (run.placed_of_mem_promoted hdefinition hfound hfield).notMem hwire hderived
  | plainAlias _ halias =>
      rw [List.mem_singleton.mp htype]
      refine run.apart_aliasOf hderived hdefinition fun hmem => ?_
      obtain ⟨pending, hpending, hname⟩ := List.mem_map.mp hmem
      obtain rfl := run.analysis.definition_eq_of_name_eq hpending hdefinition hname
      obtain ⟨draw⟩ := run.analysis.draw_of_mem_pending hpending
      rw [Build.isPlainAlias_eq_false draw.keyword_mem draw.items_eq] at halias
      cases halias
  | enumeration _ _ _ hresult =>
      rw [List.mem_singleton.mp htype]
      obtain ⟨members, form, hbody⟩ := Build.exists_toBody_of_enumOfValues hresult
      exact hbody.symm ▸ apart_toBody derived.definition members form
  | tagged _ _ _ hbase =>
      obtain ⟨pending, hpending, rfl, hdecided⟩ :=
        run.analysis.exists_pending_of_base? hdefinition hbase
      rcases List.mem_cons.mp htype with rfl | hwrapper
      · exact trivial
      · obtain ⟨result, hresult, rfl⟩ := List.mem_map.mp hwrapper
        obtain ⟨branch, hbranch, rfl⟩ := List.mem_map.mp hresult
        obtain ⟨hmem, hpromoted⟩ := List.mem_filter.mp hbranch
        intro field hfield hwire
        exact (run.placed_of_mem_wrapper hpending hdecided hmem (by simpa using hpromoted)
          hfield).notMem hwire hderived
  | untagged _ _ _ _ habstract =>
      rw [List.mem_singleton.mp htype]
      exact run.apart_untagged hderived hdefinition habstract
  | structural _ _ _ hbase _ hresult =>
      rw [List.mem_singleton.mp htype]
      exact run.apart_structured hderived hdefinition
        (run.analysis.notMem_pending_names_of_base? hbase)
        (Build.structured_of_structural hresult)

include hderived in
theorem apart_of_mem_types {type : TypeDecl} (h : type ∈ run.types) :
    Apart derived.definition type.body := by
  obtain ⟨definition, hdefinition, htype⟩ := run.mem_types_iff.mp h
  obtain ⟨notices, hdeclares⟩ := run.declares hdefinition
  exact run.apart_of_declares hderived hdefinition hdeclares htype

end Compilation

/-! ## Emitted types -/

/-- Boxing a field leaves its name and its descriptor alone. -/
theorem apart_boxFields {name : String} {edges : Containment} {type : TypeDecl}
    (h : Apart name type.body) : Apart name (Build.boxFields edges type).1.body := by
  have hboxed (fields : List Field)
      (hfields : ∀ field ∈ fields, field.wireName ≠ "$ref" →
        name ∉ field.descriptor.references) :
      ∀ field ∈ (fields.map (Build.boxField edges type)).map (·.1), field.wireName ≠ "$ref" →
        name ∉ field.descriptor.references := by
    intro field hfield hwire
    obtain ⟨result, hresult, rfl⟩ := List.mem_map.mp hfield
    obtain ⟨original, horiginal, rfl⟩ := List.mem_map.mp hresult
    rw [Build.wireName_boxField] at hwire
    rw [Build.descriptor_boxField]
    exact hfields original horiginal hwire
  obtain ⟨definition, origin, typeName, description, body⟩ := type
  cases body with
  | record fields => exact hboxed fields h
  | variant base value fields => exact hboxed fields h
  | _ => exact h

/-- **No emitted type refers to a promoted definition** in a field, unless that is called `$ref`,
in the target of an alias or in a case of an untagged type. -/
theorem Model.promoted_apart {document : Document} {model : Model}
    (h : Model.build document = .ok model) :
    ∃ hierarchy notices, Hierarchy.analyze document = .ok (hierarchy, notices) ∧
      ∀ derived ∈ hierarchy.derived, ∀ type ∈ model.types,
        Apart derived.definition type.body := by
  obtain ⟨run, rfl⟩ := Model.build_eq_ok_iff.mp h
  refine ⟨run.analysis.hierarchy, run.analysis.notices,
    Hierarchy.analyze_eq_ok_iff.mpr ⟨run.analysis, rfl, rfl⟩, ?_⟩
  intro derived hderived type htype
  obtain ⟨declared, hdeclared, rfl⟩ := run.mem_model_types_iff.mp htype
  exact apart_boxFields (run.apart_of_mem_types hderived hdeclared)

/-- `Leaf` is a branch of `Base`, and a record has a property called `$ref` of the same type. -/
def holderDocument : Document where
  definitions :=
    [("Leaf", kindRecord "leaf"),
      ("Base", kindBase [.object [("$ref", .string "#/$defs/Leaf")]]),
      ("Holder", .object
        [("properties", .object [("$ref", .object [("$ref", .string "#/$defs/Leaf")])])])]
  revision := none
  distinct := by decide

theorem promoted_apart_holder :
    ∃ hierarchy notices model, Hierarchy.analyze holderDocument = .ok (hierarchy, notices) ∧
      Model.build holderDocument = .ok model ∧
      hierarchy.derived.map (·.definition) = ["Leaf"] ∧
      ∀ type ∈ model.types, Apart "Leaf" type.body := by
  have hbuilt : (Model.build holderDocument).toOption.map (fun _ => ()) = some () := by
    decide
  have hpromoted : ((Hierarchy.analyze holderDocument).toOption.map fun result =>
      result.1.derived.map (·.definition)) = some ["Leaf"] := by
    decide
  obtain ⟨model, hbuild, -⟩ := exists_of_toOption_map_eq_some hbuilt
  obtain ⟨hierarchy, notices, hanalysis, hapart⟩ := Model.promoted_apart hbuild
  rw [hanalysis] at hpromoted
  have hnames : hierarchy.derived.map (·.definition) = ["Leaf"] := Option.some.inj hpromoted
  have hleaf : "Leaf" ∈ hierarchy.derived.map (·.definition) := by
    rw [hnames]
    exact List.mem_singleton_self _
  obtain ⟨derived, hderived, hname⟩ := List.mem_map.mp hleaf
  exact ⟨hierarchy, notices, model, hanalysis, hbuild, hnames, hname ▸ hapart derived hderived⟩

/-- The tally misses the reference of the record, so `Leaf` is promoted and yet shared. -/
theorem holder_shares_leaf :
    ∃ hierarchy notices model, Hierarchy.analyze holderDocument = .ok (hierarchy, notices) ∧
      Model.build holderDocument = .ok model ∧
      hierarchy.derived.map (·.definition) = ["Leaf"] ∧
      ∃ type ∈ model.types, type.name = "Holder" ∧
        type.fields.map (fun field => (field.wireName, field.descriptor)) =
          [("$ref", .reference "Leaf")] := by
  have hfields : ((Model.build holderDocument).toOption.map fun model =>
      model.types.map fun type =>
        (type.name, type.fields.map fun field => (field.wireName, field.descriptor))) =
      some [("Base", []), ("Holder", [("$ref", .reference "Leaf")]), ("Leaf", [])] := by
    decide
  have hpromoted : ((Hierarchy.analyze holderDocument).toOption.map fun result =>
      result.1.derived.map (·.definition)) = some ["Leaf"] := by
    decide
  obtain ⟨model, hbuild, hfields⟩ := exists_of_toOption_map_eq_some hfields
  obtain ⟨⟨hierarchy, notices⟩, hanalysis, hnames⟩ := exists_of_toOption_map_eq_some hpromoted
  have hholder : ("Holder", [("$ref", Descriptor.reference "Leaf")]) ∈ model.types.map fun type =>
      (type.name, type.fields.map fun field => (field.wireName, field.descriptor)) := by
    rw [hfields]
    decide
  obtain ⟨type, htype, hshown⟩ := List.mem_map.mp hholder
  obtain ⟨hname, hshown⟩ := Prod.mk.inj hshown
  exact ⟨hierarchy, notices, model, hanalysis, hbuild, hnames, type, htype, hname, hshown⟩

end SchemaCompiler
