import SchemaCompiler.Proofs.Hierarchy.Declared
import SchemaCompiler.Proofs.Model.Cases
import SchemaCompiler.Proofs.Text.Quoted
import SchemaCompiler.Proofs.Wire.Discriminator

/-!
# Tags of emitted types

A branch of an explicit base declares a constant, and the emitted type has a case whose value is
the text of that constant.  The value is written into the source as a literal, and the codec builds
its table from what the literals stand for (`caseTable`).  An object with the constant under the
tag property is read by the decoder of the case, and what the case writes carries the text of the
constant there and is read by the same decoder (`Model.tags_agree`).

A tag is always written as a string.  A constant of another kind therefore is not written as it was
declared, and null is no tag at all (`constants_lost`).
-/

namespace SchemaCompiler

open Fallible

/-! ## The table of a tagged type -/

open Wire (CodecError Registry)

section Table

variable {α : Type} (decoder : TaggedCase → Json → Except CodecError α)

/-- Enters a case under the value that its literal in the source stands for. -/
def enterCase (registry : Registry α) (case : TaggedCase) : Registry α :=
  match Text.unquote? (Text.quote case.value) with
  | some value => registry.register value (decoder case)
  | none => registry

/-- The table that the codec builds from the cases of a type. -/
def caseTable (base property : String) (cases : List TaggedCase) : Registry α :=
  cases.foldl (enterCase decoder) (Registry.empty base property)

theorem enterCase_eq (registry : Registry α) (case : TaggedCase) :
    enterCase decoder registry case = registry.register case.value (decoder case) := by
  rw [enterCase, Text.unquote?_quote]

theorem foldl_enterCase_keeps (cases : List TaggedCase) (registry : Registry α) :
    (cases.foldl (enterCase decoder) registry).base = registry.base ∧
      (cases.foldl (enterCase decoder) registry).property = registry.property := by
  induction cases generalizing registry with
  | nil => exact ⟨rfl, rfl⟩
  | cons first rest ih =>
      rw [List.foldl_cons, enterCase_eq]
      exact ih (registry.register first.value (decoder first))

@[simp] theorem base_caseTable (base property : String) (cases : List TaggedCase) :
    (caseTable decoder base property cases).base = base :=
  (foldl_enterCase_keeps decoder cases (Registry.empty base property)).1

@[simp] theorem property_caseTable (base property : String) (cases : List TaggedCase) :
    (caseTable decoder base property cases).property = property :=
  (foldl_enterCase_keeps decoder cases (Registry.empty base property)).2

variable {decoder}

theorem lookup_foldl_enterCase_of_notMem {cases : List TaggedCase} {tag : String}
    (h : tag ∉ cases.map (·.value)) (registry : Registry α) :
    (cases.foldl (enterCase decoder) registry).decoders.lookup tag =
      registry.decoders.lookup tag := by
  induction cases generalizing registry with
  | nil => rfl
  | cons first rest ih =>
      rw [List.map_cons, List.mem_cons, not_or] at h
      rw [List.foldl_cons, ih h.2, enterCase_eq, Registry.lookup_register,
        if_neg fun heq => h.1 heq.symm]

/-- In a table of distinct values, every case is found under its own. -/
theorem lookup_foldl_enterCase {cases : List TaggedCase} (hnodup : (cases.map (·.value)).Nodup)
    {case : TaggedCase} (hcase : case ∈ cases) (registry : Registry α) :
    (cases.foldl (enterCase decoder) registry).decoders.lookup case.value =
      some (decoder case) := by
  induction cases generalizing registry with
  | nil => exact absurd hcase List.not_mem_nil
  | cons first rest ih =>
      rw [List.map_cons, List.nodup_cons] at hnodup
      rw [List.foldl_cons]
      rcases List.mem_cons.mp hcase with rfl | hrest
      · rw [lookup_foldl_enterCase_of_notMem hnodup.1, enterCase_eq, Registry.lookup_register,
          if_pos rfl]
      · exact ih hnodup.2 hrest _

variable {base property : String} {cases : List TaggedCase}
  (hnodup : (cases.map (·.value)).Nodup) {case : TaggedCase} (hcase : case ∈ cases)

include hnodup hcase

/-- An object with the tag of a case goes to the decoder of that case. -/
theorem decode_caseTable_of_readTag {value : Json}
    (h : Wire.readTag base property value = .ok case.value) :
    (caseTable decoder base property cases).decode value = decoder case value := by
  refine Registry.decode_of_readTag ?_
    (lookup_foldl_enterCase hnodup hcase _)
  rwa [base_caseTable, property_caseTable]

end Table

/-- The codec treats a constant as the tag of a case: it takes objects with the constant to the
decoder of the case, unless the constant is null, and writes the text of the constant, which it
takes to the same decoder. -/
structure Dispatches (base property : String) (cases : List TaggedCase) (case : TaggedCase)
    (constant : Json) : Prop where
  reads {α : Type} (decoder : TaggedCase → Json → Except CodecError α)
    {members : List (String × Json)} (h : Entries.get? members property = some constant)
    (hnull : constant ≠ .null) :
    (caseTable decoder base property cases).decode (.object members) =
      decoder case (.object members)
  refuses_null {α : Type} (decoder : TaggedCase → Json → Except CodecError α)
    {members : List (String × Json)} (h : Entries.get? members property = some .null) :
    (caseTable decoder base property cases).decode (.object members) =
      .error (.missingDiscriminator base property)
  writes {value : Json} {written : Entries Json}
    (h : Wire.writeTag base property case.value value = .ok written) :
    written.get? property = some (.string (Wire.literalText constant))
  writes_constant {value : Json} {written : Entries Json}
    (h : Wire.writeTag base property case.value value = .ok written) :
    written.get? property = some constant ↔ ∃ text, constant = .string text
  reads_back {α : Type} (decoder : TaggedCase → Json → Except CodecError α) {value : Json}
    {written : Entries Json}
    (h : Wire.writeTag base property case.value value = .ok written) :
    (caseTable decoder base property cases).decode (.object written) =
      decoder case (.object written)

theorem dispatches_of_value_eq {base property : String} {cases : List TaggedCase}
    (hnodup : (cases.map (·.value)).Nodup) {case : TaggedCase} (hcase : case ∈ cases)
    {constant : Json} (hvalue : case.value = Wire.literalText constant) :
    Dispatches base property cases case constant where
  reads := by
    intro α decoder members h hnull
    refine decode_caseTable_of_readTag hnodup hcase ?_
    rw [hvalue]
    exact Wire.readTag_of_get? h hnull
  refuses_null := by
    intro α decoder members h
    refine Registry.decode_of_readTag_error ?_
    rw [base_caseTable, property_caseTable]
    exact Wire.readTag_of_null h
  writes := by
    intro value written h
    rw [Wire.get?_of_writeTag h, hvalue]
  writes_constant := by
    intro value written h
    rw [Wire.get?_of_writeTag h, hvalue, Option.some.injEq]
    exact Wire.string_literalText_eq_iff
  reads_back := by
    intro α decoder value written h
    exact decode_caseTable_of_readTag hnodup hcase (Wire.readTag_of_writeTag h)

namespace Compilation

variable {document : Document} (run : Compilation document)

theorem body_of_emitted {type : TypeDecl} {property : String} {cases : List TaggedCase}
    (h : (run.emitted type).body = .tagged property cases) :
    type.body = .tagged property cases :=
  run.tagged_emitted_iff.mp h

/-- An emitted tagged type is that of the base that is looked up for its definition. -/
theorem exists_base_of_emitted {type : TypeDecl} (htype : type ∈ run.model.types)
    {property : String} {cases : List TaggedCase} (hbody : type.body = .tagged property cases)
    {definition : Definition} (hdefinition : document.get? type.definition = some definition) :
    ∃ base, run.source.hierarchy.base? definition.name = some base ∧
      Build.typesOf run.source definition = (Build.tagged document definition base).1 ∧
      type.name = base.typeName ∧ property = base.property ∧
      cases = base.branches.map fun branch =>
        ⟨branch.value, branch.caseName, branch.typeName⟩ := by
  obtain ⟨declared, hdeclared, rfl⟩ := run.mem_model_types_iff.mp htype
  replace hbody := run.body_of_emitted hbody
  obtain ⟨owner, howner, hmem⟩ := run.mem_types_iff.mp hdeclared
  obtain ⟨notices, hdeclares⟩ := run.declares howner
  obtain ⟨base, hbase, htypes, rfl⟩ := hdeclares.exists_base_of_tagged hmem hbody
  obtain ⟨rfl, rfl⟩ := TypeBody.tagged.inj hbody
  obtain rfl : owner = definition := by
    refine Document.eq_of_name_eq howner (Document.mem_sorted_of_get? hdefinition) ?_
    rw [Document.name_of_get? hdefinition]
    rfl
  refine ⟨base, hbase, htypes, ?_, rfl, rfl⟩
  rw [Base.typeName, (of_find?_name_eq_some hbase).2]
  rfl

end Compilation

/-- **Types and codec agree on tags.**  Every branch of an explicit base for which a tagged type is
emitted has a case there: the definition it refers to or the wrapper of its value.  The codec takes
its constant for the tag of that case. -/
theorem Model.tags_agree {document : Document} {model : Model}
    (h : Model.build document = .ok model) {type : TypeDecl} (htype : type ∈ model.types)
    {property : String} {cases : List TaggedCase} (hbody : type.body = .tagged property cases)
    {definition : Definition} (hdefinition : document.get? type.definition = some definition)
    {tagProperty : String} {item : Node} {constant : Json}
    (hbranch : Hierarchy.DeclaresBranch document definition tagProperty item constant) :
    property = tagProperty ∧ ∃ case ∈ cases, case.value = Wire.literalText constant ∧
      ((∃ name, item.ref? = some name ∧ case.typeName = Naming.typeName name) ∨
        case.typeName = type.name ++ Naming.member (Wire.literalText constant)) ∧
      Dispatches type.name property cases case constant := by
  obtain ⟨run, rfl⟩ := Model.build_eq_ok_iff.mp h
  obtain ⟨declared, hdeclared, rfl⟩ := run.mem_model_types_iff.mp htype
  replace hbody := run.body_of_emitted hbody
  obtain ⟨owner, howner, hmem⟩ := run.mem_types_iff.mp hdeclared
  obtain ⟨notices, hdeclares⟩ := run.declares howner
  obtain ⟨base, hbase, -, rfl⟩ := hdeclares.exists_base_of_tagged hmem hbody
  obtain ⟨rfl, rfl⟩ := TypeBody.tagged.inj hbody
  -- the type is declared by the definition whose branch it is
  obtain rfl : owner = definition := by
    refine Document.eq_of_name_eq howner (Document.mem_sorted_of_get? hdefinition) ?_
    rw [Document.name_of_get? hdefinition]
    rfl
  obtain ⟨hproperty, hnodup, branch, hmemBranch, hvalue, htypeName⟩ :=
    run.analysis.exists_branch_of_declaresBranch howner hbranch hbase
  have hcase : TaggedCase.mk branch.value branch.caseName branch.typeName ∈
      base.branches.map fun branch => ⟨branch.value, branch.caseName, branch.typeName⟩ :=
    List.mem_map.mpr ⟨branch, hmemBranch, rfl⟩
  refine ⟨hproperty, _, hcase, hvalue, htypeName, dispatches_of_value_eq ?_ hcase hvalue⟩
  rw [List.map_map]
  exact hnodup

/-! ## Tags that are no strings -/

/-- The tag property and the cases of a tagged type. -/
def TypeBody.tagged? : TypeBody → Option (String × List TaggedCase)
  | .tagged property cases => some (property, cases)
  | _ => none

theorem TypeBody.eq_of_tagged? {body : TypeBody} {property : String} {cases : List TaggedCase}
    (h : body.tagged? = some (property, cases)) : body = .tagged property cases := by
  cases body with
  | tagged => cases h; rfl
  | _ => cases h

def firstItem : Node :=
  [("$ref", .string "#/$defs/First")]

def nullItem : Node :=
  [("properties", .object [("v", .object [("const", .null)])])]

/-- A base with a branch that is told apart by a number and one that is told apart by null. -/
def versioned : Definition where
  name := "Versioned"
  node :=
    [("discriminator", .object [("propertyName", .string "v")]),
      ("oneOf", .array [.object firstItem, .object nullItem])]

def versionDocument : Document where
  definitions :=
    [("First", .object [("properties", .object [("v", .object [("const", .number (.int 1))])])]),
      (versioned.name, .object versioned.node)]
  revision := none
  distinct := by decide

def versionCases : List TaggedCase :=
  [⟨"1", "_1", "First"⟩, ⟨"null", "Null", "VersionedNull"⟩]

theorem declaresBranch_firstItem :
    Hierarchy.DeclaresBranch versionDocument versioned "v" firstItem (.number (.int 1)) where
  property_eq := ⟨_, rfl, rfl⟩
  item_mem := ⟨_, rfl, List.mem_cons_self⟩
  constant_eq := Or.inr ⟨rfl, "First", _, rfl, rfl, rfl⟩

theorem declaresBranch_nullItem :
    Hierarchy.DeclaresBranch versionDocument versioned "v" nullItem .null where
  property_eq := ⟨_, rfl, rfl⟩
  item_mem := ⟨_, rfl, List.mem_cons_of_mem _ List.mem_cons_self⟩
  constant_eq := Or.inl rfl

theorem exists_type_versioned :
    ∃ model, Model.build versionDocument = .ok model ∧
      ∃ type ∈ model.types, type.definition = "Versioned" ∧ type.name = "Versioned" ∧
        type.body = .tagged "v" versionCases := by
  have hshown : ((Model.build versionDocument).toOption.map fun model =>
      (model.type? "Versioned").map fun type => (type.definition, type.body.tagged?)) =
      some (some ("Versioned", some ("v", versionCases))) := by
    decide
  obtain ⟨model, hbuild, hshown⟩ := exists_of_toOption_map_eq_some hshown
  obtain ⟨type, hfound, hshown⟩ := Option.map_eq_some_iff.mp hshown
  obtain ⟨hdefinition, htagged⟩ := Prod.mk.inj hshown
  obtain ⟨htype, hname⟩ := of_find?_name_eq_some hfound
  exact ⟨model, hbuild, type, htype, hdefinition, hname, TypeBody.eq_of_tagged? htagged⟩

theorem tags_agree_versioned :
    ∃ case ∈ versionCases, case.value = "1" ∧
      Dispatches "Versioned" "v" versionCases case (.number (.int 1)) := by
  obtain ⟨model, hbuild, type, htype, hdefinition, hname, hbody⟩ := exists_type_versioned
  have hlookup : versionDocument.get? type.definition = some versioned := by
    rw [hdefinition]
    rfl
  obtain ⟨-, case, hcase, hvalue, -, hdispatches⟩ :=
    Model.tags_agree hbuild htype hbody hlookup declaresBranch_firstItem
  rw [hname] at hdispatches
  exact ⟨case, hcase, hvalue, hdispatches⟩

/-- The number by which the first branch is told apart is never written, and the null by which the
second one is told apart is never read. -/
theorem constants_lost :
    ∃ model, Model.build versionDocument = .ok model ∧
      ∃ type ∈ model.types, type.name = "Versioned" ∧ type.body = .tagged "v" versionCases ∧
        Hierarchy.DeclaresBranch versionDocument versioned "v" firstItem (.number (.int 1)) ∧
        (∀ case ∈ versionCases, ∀ value written,
          Wire.writeTag type.name "v" case.value value = .ok written →
            written.get? "v" ≠ some (.number (.int 1))) ∧
        Hierarchy.DeclaresBranch versionDocument versioned "v" nullItem .null ∧
        ∀ decoder : TaggedCase → Json → Except CodecError Json,
          (caseTable decoder type.name "v" versionCases).decode (.object [("v", .null)]) =
            .error (.missingDiscriminator type.name "v") := by
  obtain ⟨model, hbuild, type, htype, -, hname, hbody⟩ := exists_type_versioned
  refine ⟨model, hbuild, type, htype, hname, hbody, declaresBranch_firstItem, ?_,
    declaresBranch_nullItem, fun decoder => ?_⟩
  · intro case _ value written hwritten hnumber
    rw [Wire.get?_of_writeTag hwritten] at hnumber
    cases hnumber
  · refine Registry.decode_of_readTag_error ?_
    rw [base_caseTable, property_caseTable]
    exact Wire.readTag_of_null rfl

end SchemaCompiler
