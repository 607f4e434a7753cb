import SchemaCompiler.Proofs.Model.Fields
import SchemaCompiler.Proofs.Model.Owners
import SchemaCompiler.Proofs.Model.Tags

/-!
# Fields of branches

The fields of a branch that refers to a plain record come from the properties of the base, overlaid
by those of the record, without the tag.  Whether the record is promoted or a wrapper holds its
fields hangs on references anywhere in the document, but the fields do not: up to the names of the
members they are the same list either way (`Model.branch_fields`).

A reference beside the `anyOf` items of an implicit base is read inside `allOf` alone.  A branch
that refers to a record by a `$ref` of its own is taken for one that refers to nothing, and loses
the fields of the record (`shelf_without_fields`).
-/

namespace SchemaCompiler

open Fallible

/-! ## What a field says about the wire -/

/-- A field apart from how its member is named and stored. -/
structure FieldFacts where
  wireName : String
  descriptor : Descriptor
  presence : FieldPresence
  unsupportedDefault : Option Json
  description : Option String

def Field.facts (field : Field) : FieldFacts where
  wireName := field.wireName
  descriptor := field.descriptor
  presence := field.presence
  unsupportedDefault := field.unsupportedDefault
  description := field.description

/-- The facts of the field that a property becomes. -/
def Property.facts (document : Document) (wireName : String) (property : Property) :
    FieldFacts :=
  let descriptor := Build.known document (Resolve.ofJson property.schema)
  let presence :=
    Build.presenceOf descriptor property.required (property.schema.get? "default")
  { wireName
    descriptor
    presence := presence.1
    unsupportedDefault := presence.2
    description := (property.schema.get? "description").bind Json.string? }

/-- The facts of the fields of a property set, in the order of their wire names. -/
def PropertySet.facts (document : Document) (set : PropertySet) : List FieldFacts :=
  set.sorted.map fun (wireName, property) => property.facts document wireName

namespace Build

variable {document : Document} {origin typeName : String}

theorem facts_distinguish (origin : String) (used : List String) (field : Field) :
    (distinguish origin used field).1.facts = field.facts := by
  unfold distinguish
  split <;> rfl

theorem facts_fieldsFrom (set : PropertySet) (used : List String) :
    (fieldsFrom document origin typeName used set).1.map Field.facts =
      set.map fun (wireName, property) => property.facts document wireName := by
  induction set generalizing used with
  | nil => rfl
  | cons head rest ih =>
      obtain ⟨wireName, property⟩ := head
      rw [fieldsFrom, List.map_cons]
      show (distinguish origin used _).1.facts :: _ = _
      rw [facts_distinguish, ih]
      rfl

theorem facts_fields (set : PropertySet) :
    (fields document origin typeName set).1.map Field.facts = set.facts document :=
  facts_fieldsFrom set.sorted []

theorem facts_boxField (edges : Containment) (type : TypeDecl) (field : Field) :
    (boxField edges type field).1.facts = field.facts := by
  unfold boxField
  split
  · rfl
  · split <;> rfl

end Build

theorem PropertySet.ofRecord_of_isPlainRecord {node : Node}
    (h : Hierarchy.isPlainRecord node = true) : ofRecord node = ofNode node := by
  have hbranches : branches? node = none := by
    cases hbranches : branches? node with
    | none => rfl
    | some items =>
        obtain ⟨key, hkey, hvalue⟩ := exists_branches_of_branches? hbranches
        have harray : node.array? key = some items := by
          rw [Node.array?, hvalue]
          rfl
        rw [Hierarchy.isPlainRecord_eq_false hkey harray] at h
        cases h
  rw [ofRecord, hbranches]
  rfl

/-! ## Branches that refer to a definition -/

namespace Hierarchy

/-- An item is a branch with a value and refers to a definition: under the `oneOf` of an explicit
base it declares the value, under the `anyOf` of an implicit one it suggests it and refers to the
definition inside `allOf`. -/
inductive BranchRefers (document : Document) (definition : Definition) (property : String)
    (item : Node) (name : String) : String → Prop where
  | declared {constant : Json}
      (hbranch : DeclaresBranch document definition property item constant)
      (href : item.ref? = some name) :
      BranchRefers document definition property item name (Wire.literalText constant)
  | suggested (hdiscriminator : Entries.contains definition.node "discriminator" = false)
      {items : List Json} (hitems : definition.node.array? "anyOf" = some items)
      (hitem : Json.object item ∈ items) {suggested value : String}
      (hvalue : suggestion? item = some (suggested, value)) (hnonempty : value.isEmpty = false)
      (hdirect : item.directRef? = none) (href : item.ref? = some name) :
      BranchRefers document definition property item name value

theorem contains_discriminator_of_explicitBase? {document : Document} {definition : Definition}
    {pending : Pending} (h : explicitBase? document definition = .ok (some pending)) :
    Entries.contains definition.node "discriminator" = true := by
  cases explicitBase?_eq_iff.mp h with
  | base hdiscriminates _ _ _ => exact Node.contains_of_object? hdiscriminates.discriminator_eq

namespace Analysis

variable {document : Document} (run : Analysis document) {definition : Definition}

/-- A base without a discriminator is an implicit one. -/
theorem implicitBase?_of_mem_pending {pending : Pending} (hpending : pending ∈ run.pending)
    (h : Entries.contains pending.definition.node "discriminator" = false) :
    (implicitBase? pending.definition).1 = some pending := by
  rcases run.explicit_or_implicit_of_mem_pending hpending with hexplicit | himplicit
  · rw [contains_discriminator_of_explicitBase? hexplicit] at h
    cases h
  · exact himplicit

/-- The candidate that such a branch is for the base that is looked up for the definition. -/
theorem exists_candidate_of_branchRefers (hdefinition : definition ∈ document.sorted)
    {property : String} {item : Node} {name value : String}
    (h : BranchRefers document definition property item name value) {base : Base}
    (hbase : run.hierarchy.base? definition.name = some base) :
    ∃ pending ∈ run.pending, pending.definition = definition ∧
      baseOf run.scope pending = .ok base ∧
      ∃ candidate ∈ pending.candidates, candidate.refName = some name ∧
        candidate.value = value := by
  obtain ⟨pending, hpending, rfl, hdecided⟩ := run.exists_pending_of_base? hdefinition hbase
  refine ⟨pending, hpending, rfl, hdecided, ?_⟩
  cases h with
  | @declared constant hbranch href =>
      obtain ⟨other, hother, hsame, -, hcandidate⟩ :=
        run.exists_pending_of_declaresBranch hdefinition hbranch
      obtain rfl : other = pending :=
        List.inj_on_of_nodup_map run.pending_names_nodup hother hpending (by rw [hsame])
      exact ⟨_, hcandidate, href, rfl⟩
  | suggested hdiscriminator hitems hitem hvalue hnonempty hdirect href =>
      have himplicit := run.implicitBase?_of_mem_pending hpending hdiscriminator
      obtain ⟨items, hform⟩ := of_implicitBase? himplicit
      obtain rfl := Option.some.inj (hitems.symm.trans hform.items_eq)
      have hallOf : item.allOfRef? = some name := by
        rwa [Node.ref?, hdirect, Option.none_or] at href
      have hcandidate : implicitCandidate? item = some ⟨item.allOfRef?, value, item⟩ := by
        rw [implicitCandidate?, hvalue, Option.bind_some]
        simp [hnonempty]
      refine ⟨⟨item.allOfRef?, value, item⟩, ?_, hallOf, rfl⟩
      rw [hform.candidates_eq]
      exact List.mem_filterMap.mpr ⟨item, List.mem_filterMap.mpr ⟨_, hitem, rfl⟩, hcandidate⟩

end Analysis

/-- A branch for a definition that is no sum type is promoted or wraps the definition. -/
theorem source_branchOf_of_notMem {scope : Scope} {pending : Pending} {candidate : Candidate}
    {target : Definition} (href : candidate.refName = some target.name)
    (htarget : scope.document.get? target.name = some target) (hsum : target.name ∉ scope.sums) :
    (branchOf scope pending candidate).source = .promoted target.name ∨
      (branchOf scope pending candidate).source = .wrapped target.name := by
  cases hfilter : candidate.refName.filter (isPromotable scope pending) with
  | some name =>
      left
      have hname := (Option.filter_eq_some_iff.mp hfilter).1
      obtain rfl := Option.some.inj (href.symm.trans hname)
      rw [branchOf_promoted hfilter]
  | none =>
      right
      rw [branchOf_wrapper hfilter]
      show wrapperSource scope candidate = _
      rw [wrapperSource, href, Option.bind_some, htarget]
      exact if_neg (mt List.contains_iff_mem.mp hsum)

/-- A branch that refers to a record is promoted or wraps the record. -/
theorem Analysis.exists_branch_of_branchRefers {document : Document} (run : Analysis document)
    {definition : Definition} (hdefinition : definition ∈ document.sorted)
    {property : String} {item : Node} {name value : String}
    (h : BranchRefers document definition property item name value) {base : Base}
    (hbase : run.hierarchy.base? definition.name = some base) {target : Definition}
    (htarget : document.get? name = some target) (hrecord : isPlainRecord target.node = true) :
    ∃ branch ∈ base.branches, branch.value = value ∧
      (branch.source = .promoted target.name ∨ branch.source = .wrapped target.name) := by
  obtain ⟨pending, -, rfl, hdecided, candidate, hcandidate, href, rfl⟩ :=
    run.exists_candidate_of_branchRefers hdefinition h hbase
  obtain ⟨branch, hbranch, hvalue, -, hsource⟩ := exists_branch_of_candidate hdecided hcandidate
  refine ⟨branch, hbranch, hvalue, ?_⟩
  obtain rfl := Document.name_of_get? htarget
  have hsum : target.name ∉ run.scope.sums := by
    intro hmem
    have hfalse := run.isPlainRecord_of_mem_sums (Document.mem_sorted_of_get? htarget) hmem
    rw [hrecord] at hfalse
    cases hfalse
  rw [hsource]
  exact source_branchOf_of_notMem href htarget hsum

end Hierarchy

/-! ## The two ways to the fields -/

/-- The properties of a branch that refers to a record. -/
def branchProperties (definition target : Definition) (property : String) : PropertySet :=
  Entries.erase
    ((PropertySet.ofNode definition.node).overlay (PropertySet.ofNode target.node)) property

namespace Build

variable {document : Document} {definition target : Definition}

theorem facts_branchFields (hrecord : Hierarchy.isPlainRecord target.node = true)
    (origin typeName property : String) :
    (branchFields document origin typeName (some target.node) (some definition.node)
      property).1.map Field.facts =
      (branchProperties definition target property).facts document := by
  unfold branchFields
  rw [facts_fields]
  show PropertySet.facts document (Entries.erase
    ((PropertySet.ofNode definition.node).overlay (PropertySet.ofRecord target.node)) property) = _
  rw [PropertySet.ofRecord_of_isPlainRecord hrecord]
  rfl

theorem facts_promoted (hrecord : Hierarchy.isPlainRecord target.node = true) {derived : Derived}
    (hbase : document.get? derived.base = some definition) :
    (promoted document target derived).1.fields.map Field.facts =
      (branchProperties definition target derived.property).facts document := by
  unfold promoted
  rw [hbase]
  exact facts_branchFields hrecord _ _ derived.property

theorem facts_wrapper (hrecord : Hierarchy.isPlainRecord target.node = true) {base : Base}
    {branch : Branch} (hsource : branch.source = .wrapped target.name)
    (htarget : document.get? target.name = some target) :
    (wrapper document definition base branch).1.fields.map Field.facts =
      (branchProperties definition target base.property).facts document := by
  unfold wrapper
  simp only [hsource, htarget, Option.map_some]
  exact facts_branchFields hrecord _ _ base.property

end Build

namespace Compilation

variable {document : Document} (run : Compilation document)

theorem facts_emitted (type : TypeDecl) :
    (run.emitted type).fields.map Field.facts = type.fields.map Field.facts := by
  rw [run.fields_emitted, List.map_map]
  exact List.map_congr_left fun field _ => Build.facts_boxField run.containment type field

/-- Promoted or wrapped, a branch for a record is declared with the same properties. -/
theorem exists_type_of_branch {definition : Definition} (hdefinition : definition ∈ document.sorted)
    {base : Base} (hbase : run.analysis.hierarchy.base? definition.name = some base)
    (htypes : Build.typesOf run.source definition = (Build.tagged document definition base).1)
    {branch : Branch} (hbranch : branch ∈ base.branches) {target : Definition}
    (htarget : document.get? target.name = some target)
    (hrecord : Hierarchy.isPlainRecord target.node = true)
    (hsource : branch.source = .promoted target.name ∨ branch.source = .wrapped target.name) :
    ∃ type ∈ run.types, type.name = branch.typeName ∧
      (∃ fields, type.body = .variant base.typeName branch.value fields) ∧
      type.fields.map Field.facts =
        (branchProperties definition target base.property).facts document := by
  obtain ⟨hmem, hname⟩ := of_find?_name_eq_some hbase
  rcases hsource with hpromoted | hwrapped
  · have hlookup : document.get? base.definition = some definition := by
      rw [hname]
      exact Document.get?_of_mem_sorted hdefinition
    refine ⟨_, run.mem_types_of_promoted (run.analysis.mem_hierarchy_bases.mp hmem) hbranch
      (Document.mem_sorted_of_get? htarget) hpromoted, ?_, ⟨_, rfl⟩,
      Build.facts_promoted hrecord hlookup⟩
    exact ((run.coherent hmem).typeName_promoted branch hbranch target.name hpromoted).symm
  · have hwrapper : branch.isPromoted = false := by
      rw [Branch.isPromoted, hwrapped]
    exact ⟨_, run.mem_types_of_wrapper hdefinition htypes hbranch hwrapper, rfl, ⟨_, rfl⟩,
      Build.facts_wrapper hrecord hwrapped htarget⟩

end Compilation

/-- **Promoting is invisible on the wire.**  In every emitted tagged type, a branch that refers to
a plain record has one case.  Its type is an emitted variant whose fields are those of the
properties that the definition and the record declare, whichever of the two ways it took. -/
theorem Model.branch_fields {document : Document} {model : Model}
    (h : Model.build document = .ok model) {type : TypeDecl} (htype : type ∈ model.types)
    {property : String} {cases : List TaggedCase} (hbody : type.body = .tagged property cases)
    {definition : Definition} (hdefinition : document.get? type.definition = some definition)
    {item : Node} {name value : String}
    (hbranch : Hierarchy.BranchRefers document definition property item name value)
    {target : Definition} (htarget : document.get? name = some target)
    (hrecord : Hierarchy.isPlainRecord target.node = true) :
    (∃ case ∈ cases, case.value = value) ∧
      ∀ case ∈ cases, case.value = value → ∃ variant ∈ model.types, variant.name = case.typeName ∧
        ∃ fields, variant.body = .variant type.name value fields ∧
          fields.map Field.facts =
            (branchProperties definition target property).facts document := by
  obtain ⟨run, rfl⟩ := Model.build_eq_ok_iff.mp h
  obtain ⟨base, hbase, htypes, htypeName, rfl, rfl⟩ :=
    run.exists_base_of_emitted htype hbody hdefinition
  have hsorted := Document.mem_sorted_of_get? hdefinition
  obtain rfl := Document.name_of_get? htarget
  obtain ⟨branch, hmem, rfl, hsource⟩ :=
    run.analysis.exists_branch_of_branchRefers hsorted hbranch hbase htarget hrecord
  obtain ⟨variant, hvariant, hname, ⟨fields, hfields⟩, hfacts⟩ :=
    run.exists_type_of_branch hsorted hbase htypes hmem htarget hrecord hsource
  constructor
  · exact ⟨_, List.mem_map.mpr ⟨branch, hmem, rfl⟩, rfl⟩
  · intro case hcase hvalue
    -- no other branch has the value
    have hvalues := (run.coherent (of_find?_name_eq_some hbase).1).values_nodup
    obtain ⟨other, hother, rfl⟩ := List.mem_map.mp hcase
    obtain rfl : other = branch := List.inj_on_of_nodup_map hvalues hother hmem hvalue
    refine ⟨run.emitted variant, run.mem_model_types_iff.mpr ⟨variant, hvariant, rfl⟩, hname,
      (run.emitted variant).fields, ?_, (run.facts_emitted variant).trans hfacts⟩
    rw [htypeName]
    obtain ⟨_, _, _, _, body⟩ := variant
    obtain rfl : body = .variant base.typeName other.value fields := hfields
    rfl

def closing : Definition where
  name := "Close"
  node := [("properties", .object
    [("kind", .object [("const", .string "close")]), ("at", .object [("type", .string "integer")])])]

def opening : Definition where
  name := "Open"
  node := [("properties", .object
    [("kind", .object [("const", .string "open")]), ("by", .object [("type", .string "string")])])]

def closingItem : Node :=
  [("$ref", .string "#/$defs/Close")]

def openingItem : Node :=
  [("$ref", .string "#/$defs/Open")]

def shift : Definition where
  name := "Shift"
  node :=
    [("properties", .object [("at", .object [("type", .string "string")])]),
      ("discriminator", .object [("propertyName", .string "kind")]),
      ("oneOf", .array [.object closingItem, .object openingItem])]

/-- Both branches of a base refer to records, and one of these is referred to elsewhere. -/
def shiftDocument : Document where
  definitions :=
    [(closing.name, .object closing.node),
      ("Log", .object [("properties", .object [("last", .object openingItem)])]),
      (opening.name, .object opening.node), (shift.name, .object shift.node)]
  revision := none
  distinct := by decide

theorem declaresBranch_closingItem :
    Hierarchy.DeclaresBranch shiftDocument shift "kind" closingItem (.string "close") where
  property_eq := ⟨_, rfl, rfl⟩
  item_mem := ⟨_, rfl, List.mem_cons_self⟩
  constant_eq := Or.inr ⟨rfl, "Close", closing, rfl, rfl, rfl⟩

theorem declaresBranch_openingItem :
    Hierarchy.DeclaresBranch shiftDocument shift "kind" openingItem (.string "open") where
  property_eq := ⟨_, rfl, rfl⟩
  item_mem := ⟨_, rfl, List.mem_cons_of_mem _ List.mem_cons_self⟩
  constant_eq := Or.inr ⟨rfl, "Open", opening, rfl, rfl, rfl⟩

theorem branch_fields_shift :
    ∃ model, Model.build shiftDocument = .ok model ∧
      (∃ promoted ∈ model.types, promoted.name = "Close" ∧
        ∃ fields, promoted.body = .variant "Shift" "close" fields ∧
          fields.map Field.facts = (branchProperties shift closing "kind").facts shiftDocument) ∧
      ∃ wrapper ∈ model.types, wrapper.name = "ShiftOpen" ∧
        ∃ fields, wrapper.body = .variant "Shift" "open" fields ∧
          fields.map Field.facts = (branchProperties shift opening "kind").facts shiftDocument := by
  have hshown : ((Model.build shiftDocument).toOption.map fun model =>
      (model.type? "Shift").map fun type => (type.definition, type.body.tagged?)) =
      some (some ("Shift", some ("kind",
        [⟨"close", "Close", "Close"⟩, ⟨"open", "Open", "ShiftOpen"⟩]))) := by
    decide
  obtain ⟨model, hbuild, hshown⟩ := exists_of_toOption_map_eq_some hshown
  obtain ⟨type, hfound, hshown⟩ := Option.map_eq_some_iff.mp hshown
  obtain ⟨hdefinition, htagged⟩ := Prod.mk.inj hshown
  obtain ⟨htype, hname⟩ := of_find?_name_eq_some hfound
  have hbody := TypeBody.eq_of_tagged? htagged
  have hlookup : shiftDocument.get? type.definition = some shift := by
    rw [hdefinition]
    rfl
  have hclose : shiftDocument.get? closing.name = some closing := rfl
  have hopen : shiftDocument.get? opening.name = some opening := rfl
  have hclosing := (Model.branch_fields hbuild htype hbody hlookup
    (.declared declaresBranch_closingItem rfl) hclose (by decide)).2
  have hopening := (Model.branch_fields hbuild htype hbody hlookup
    (.declared declaresBranch_openingItem rfl) hopen (by decide)).2
  rw [hname] at hclosing hopening
  exact ⟨model, hbuild, hclosing _ List.mem_cons_self rfl,
    hopening _ (List.mem_cons_of_mem _ List.mem_cons_self) rfl⟩

/-! ## References outside `allOf` -/

def plan : Definition where
  name := "Plan"
  node := [("properties", .object [("scale", .object [("type", .string "integer")])])]

def planItem : Node :=
  [("$ref", .string "#/$defs/Plan"),
    ("properties", .object [("kind", .object [("const", .string "plan")])])]

def shelf : Definition where
  name := "Shelf"
  node := [("anyOf", .array
    [.object [("allOf", .array [.object [("$ref", .string "#/$defs/Book")]]),
        ("properties", .object [("kind", .object [("const", .string "book")])])],
      .object planItem])]

/-- A branch of an implicit base refers to a record by a `$ref` of its own, and something else
refers to the record, too. -/
def shelfDocument : Document where
  definitions :=
    [("Book", .object [("properties", .object [("pages", .object [("type", .string "integer")])])]),
      ("Guide", .object [("properties", .object
        [("plan", .object [("$ref", .string "#/$defs/Plan")])])]),
      (plan.name, .object plan.node), (shelf.name, .object shelf.node)]
  revision := none
  distinct := by decide

theorem shelf_without_fields :
    (∃ items, shelf.node.array? "anyOf" = some items ∧ Json.object planItem ∈ items) ∧
      Hierarchy.suggestion? planItem = some ("kind", "plan") ∧ planItem.ref? = some plan.name ∧
      shelfDocument.get? plan.name = some plan ∧ Hierarchy.isPlainRecord plan.node = true ∧
      ((branchProperties shelf plan "kind").facts shelfDocument).map (·.wireName) = ["scale"] ∧
      ∃ model, Model.build shelfDocument = .ok model ∧
        ∃ variant ∈ model.types, variant.name = "ShelfPlan" ∧
          variant.body = .variant "Shelf" "plan" [] := by
  refine ⟨⟨_, rfl, List.mem_cons_of_mem _ List.mem_cons_self⟩, by decide, by decide, rfl,
    by decide, by decide, ?_⟩
  have hshown : ((Model.build shelfDocument).toOption.map fun model =>
      (model.type? "ShelfPlan").map fun type =>
        (type.body.variant?, type.fields.map (·.wireName))) =
        some (some (some ("Shelf", "plan"), [])) := by
    decide
  obtain ⟨model, hbuild, hshown⟩ := exists_of_toOption_map_eq_some hshown
  exact ⟨model, hbuild, Model.exists_variant_of_type? hshown⟩

end SchemaCompiler
