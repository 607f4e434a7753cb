import SchemaCompiler.Proofs.Model.Cases
import SchemaCompiler.Proofs.Wire.Alternatives

/-!
# The branches of a union

A branch of a union names one JSON type: its own, or the first in its list that is not null
(`NamesType`).  The alternatives of an emitted union are those of the types that its branches name,
each once, and a branch that names null makes the union nullable (`Build.collects_of_unionOf?`).  So a
value of a type that some branch names is accepted (`Model.unions_cover`).
-/

namespace SchemaCompiler

open Fallible
open Wire (AlternativeKind Holds Payload Union)

namespace Build

/-! ## Types of branches -/

/-- The JSON type that a branch names. -/
inductive NamesType (item : Node) (name : String) : Prop where
  | alone (htype : Entries.get? item "type" = some (.string name)) (hname : name ≠ "null")
  | first {types : List Json} (htype : Entries.get? item "type" = some (.array types))
      {front back : List String} (hnames : types.filterMap Json.string? = front ++ name :: back)
      (hfront : ∀ other ∈ front, other = "null") (hname : name ≠ "null")

/-- A branch that admits null by its type. -/
inductive NamesNull (item : Node) : Prop where
  | alone (htype : Entries.get? item "type" = some (.string "null"))
  | listed {types : List Json} (htype : Entries.get? item "type" = some (.array types))
      (hmem : .string "null" ∈ types)

/-- A value of a JSON type; an integer must lie in the width that the branch gives it. -/
inductive HasType (item : Node) : String → Json → Prop where
  | string (value : String) : HasType item "string" (.string value)
  | integer {value : Int} (least : item.width.least ≤ value)
      (greatest : value ≤ item.width.greatest) : HasType item "integer" (.number (.int value))
  | number (value : Number) : HasType item "number" (.number value)
  | boolean (value : Bool) : HasType item "boolean" (.bool value)
  | object (members : List (String × Json)) : HasType item "object" (.object members)
  | array (items : List Json) : HasType item "array" (.array items)

theorem find?_ne_eq_some_iff {names : List String} {name : String} :
    names.find? (· ≠ "null") = some name ↔
      name ≠ "null" ∧ ∃ front back, names = front ++ name :: back ∧
        ∀ other ∈ front, other = "null" := by
  rw [List.find?_eq_some_iff_append]
  simp

/-- A branch contributes the alternative of the type it names. -/
theorem contribution_fst_eq_some_iff {item : Node} {kind : AlternativeKind} :
    (contribution item).1 = some kind ↔
      ∃ name, NamesType item name ∧ alternativeKind? name item = some kind := by
  unfold contribution
  split
  · rename_i types htype
    rw [Option.bind_eq_some_iff]
    constructor
    · rintro ⟨name, hfound, hkind⟩
      obtain ⟨hname, front, back, hnames, hfront⟩ := find?_ne_eq_some_iff.mp hfound
      exact ⟨name, .first htype hnames hfront hname, hkind⟩
    · rintro ⟨name, hnamed, hkind⟩
      cases hnamed with
      | alone htype' => cases htype.symm.trans htype'
      | first htype' hnames hfront hname =>
          cases htype.symm.trans htype'
          exact ⟨name, find?_ne_eq_some_iff.mpr ⟨hname, _, _, hnames, hfront⟩, hkind⟩
  · rename_i htype
    refine iff_of_false (by simp) ?_
    rintro ⟨name, hnamed, -⟩
    cases hnamed with
    | alone htype' hname =>
        cases htype.symm.trans htype'
        exact hname rfl
    | first htype' => cases htype.symm.trans htype'
  · rename_i name hnull htype
    have hname : name ≠ "null" := by
      rintro rfl
      exact hnull rfl
    constructor
    · intro hkind
      exact ⟨name, .alone htype hname, hkind⟩
    · rintro ⟨other, hnamed, hkind⟩
      cases hnamed with
      | alone htype' =>
          cases htype.symm.trans htype'
          exact hkind
      | first htype' => cases htype.symm.trans htype'
  · rename_i htypes hnull hstring
    refine iff_of_false (by simp) ?_
    rintro ⟨name, hnamed, -⟩
    cases hnamed with
    | alone htype => exact hstring _ htype
    | first htype => exact htypes _ htype

theorem contribution_snd_eq_true_iff {item : Node} :
    (contribution item).2 = true ↔ NamesNull item := by
  unfold contribution
  split
  · rename_i types htype
    rw [List.contains_iff_mem, Json.mem_filterMap_string?_iff]
    constructor
    · intro hmem
      exact .listed htype hmem
    · intro hnull
      cases hnull with
      | alone htype' => cases htype.symm.trans htype'
      | listed htype' hmem =>
          cases htype.symm.trans htype'
          exact hmem
  · rename_i htype
    exact iff_of_true rfl (.alone htype)
  · rename_i name hnull htype
    refine iff_of_false Bool.false_ne_true fun h => ?_
    cases h with
    | alone htype' =>
        cases htype.symm.trans htype'
        exact hnull rfl
    | listed htype' => cases htype.symm.trans htype'
  · rename_i htypes hnull hstring
    refine iff_of_false Bool.false_ne_true fun h => ?_
    cases h with
    | alone htype => exact hstring _ htype
    | listed htype => exact htypes _ htype

/-- A value of a type is held by the alternative of that type. -/
theorem HasType.exists_holds {item : Node} {name : String} {value : Json}
    (h : HasType item name value) :
    ∃ payload, alternativeKind? name item = some payload.kind ∧ Holds value payload := by
  cases h with
  | string value => exact ⟨_, rfl, .string value⟩
  | integer hleast hgreatest => exact ⟨.integer item.width _, rfl, .integer hleast hgreatest⟩
  | number value =>
      cases value with
      | int value => exact ⟨_, rfl, .rounded value⟩
      | float value => exact ⟨_, rfl, .float value⟩
  | boolean value => exact ⟨_, rfl, .boolean value⟩
  | object members => exact ⟨_, rfl, .object members⟩
  | array items => exact ⟨_, rfl, .array items⟩

/-! ## Unions of branches -/

/-- The alternatives of the types that branches name, each once, and whether one admits null. -/
structure Collects (items : List Json) (alternatives : List AlternativeKind) (nullable : Bool) :
    Prop where
  nodup : alternatives.Nodup
  mem_iff : ∀ kind, kind ∈ alternatives ↔ ∃ item ∈ Node.objectItems items, ∃ name,
    NamesType item name ∧ alternativeKind? name item = some kind
  nullable_iff : nullable = true ↔ ∃ item ∈ Node.objectItems items, NamesNull item

theorem collects_of_unionOf? {items : List Json} {alternatives : List AlternativeKind}
    {nullable : Bool} (h : unionOf? items = some (alternatives, nullable)) :
    Collects items alternatives nullable := by
  unfold unionOf? at h
  dsimp only at h
  split at h
  · cases h
  · split at h
    · cases h
    · obtain ⟨rfl, rfl⟩ := Prod.mk.inj (Option.some.inj h)
      refine ⟨nodup_eraseDups _, fun kind => ?_, ?_⟩
      · rw [List.mem_eraseDups, List.filterMap_map, List.mem_filterMap]
        exact exists_congr fun item => and_congr_right fun _ => contribution_fst_eq_some_iff
      · rw [List.any_map, List.any_eq_true]
        exact exists_congr fun item => and_congr_right fun _ => contribution_snd_eq_true_iff

/-- A union that accepts whatever the types of its branches admit. -/
structure Covers (items : List Json) (u : Union) : Prop where
  contributes : ∀ item ∈ Node.objectItems items, ∀ name kind, NamesType item name →
    alternativeKind? name item = some kind → kind ∈ u.alternatives
  accepts : ∀ item ∈ Node.objectItems items, ∀ name value, NamesType item name →
    HasType item name value → ∃ payload, u.decode value = .ok (some payload)
  acceptsNull : ∀ item ∈ Node.objectItems items, NamesNull item → u.decode .null = .ok none

theorem Collects.covers {items : List Json} {alternatives : List AlternativeKind} {nullable : Bool}
    (h : Collects items alternatives nullable) (name : String) :
    Covers items ⟨name, alternatives, nullable⟩ where
  contributes := fun item hitem type kind hnamed hkind =>
    (h.mem_iff kind).mpr ⟨item, hitem, type, hnamed, hkind⟩
  accepts := by
    intro item hitem type value hnamed hvalue
    obtain ⟨held, hkind, hholds⟩ := hvalue.exists_holds
    have hdeclared := (h.mem_iff held.kind).mpr ⟨item, hitem, type, hnamed, hkind⟩
    obtain ⟨payload, hchosen⟩ :=
      Union.exists_choose_eq_some (u := ⟨name, alternatives, nullable⟩) hdeclared hholds
    exact ⟨payload, Union.decode_eq_some_iff.mpr hchosen⟩
  acceptsNull := fun item hitem hnull =>
    Union.decode_eq_none_iff.mpr ⟨rfl, h.nullable_iff.mpr ⟨item, hitem, hnull⟩⟩

/-! ## Declared unions -/

theorem exists_items_of_structural {document : Document} {definition : Definition}
    {result : TypeBody × List Notice} (h : structural document definition = .ok result)
    {alternatives : List AlternativeKind} {nullable : Bool}
    (hbody : result.1 = .union alternatives nullable) :
    ∃ items, PropertySet.branches? definition.node = some items ∧
      unionOf? items = some (alternatives, nullable) := by
  rw [structural] at h
  dsimp only at h
  split at h
  · rename_i items hitems
    split at h
    · obtain ⟨⟨members, notices⟩, -, h⟩ := bind_eq_ok_iff.mp h
      cases h
      exact absurd hbody
        (toBody_ne (fun _ _ _ => TypeBody.noConfusion) (fun _ => TypeBody.noConfusion) members _)
    · split at h
      · rename_i hunion
        cases h
        cases hbody
        exact ⟨items, hitems, hunion⟩
      · split at h <;> cases h <;> cases hbody
  · split at h <;> cases h <;> cases hbody

/-- A union is declared for the branches of its definition. -/
theorem Declares.of_union {source : Source} {definition : Definition}
    {result : List TypeDecl × List Notice} (h : Declares source definition result)
    {type : TypeDecl} (htype : type ∈ result.1) {alternatives : List AlternativeKind}
    {nullable : Bool} (hbody : type.body = .union alternatives nullable) :
    type.definition = definition.name ∧
      ∃ items, PropertySet.branches? definition.node = some items ∧
        unionOf? items = some (alternatives, nullable) := by
  obtain ⟨hname, hsource⟩ := h.bodyOf htype
  generalize type.body = body at hbody hsource
  cases hsource with
  | enumeration henum hresult =>
      exact absurd hbody (ne_of_enumOfValues hresult (fun _ _ _ => TypeBody.noConfusion)
        fun _ => TypeBody.noConfusion)
  | @untagged base habstract =>
      rcases untagged_cases source.document base with hform | ⟨cases, hform⟩
      · cases hform.symm.trans hbody
      · cases hform.symm.trans hbody
  | structural henum hresult =>
      exact ⟨hname, exists_items_of_structural hresult hbody⟩
  | _ => cases hbody

end Build

namespace Compilation

variable {document : Document} (run : Compilation document)

/-- An emitted union comes from the branches of its definition. -/
theorem exists_items_of_union {type : TypeDecl} (htype : type ∈ run.model.types)
    {alternatives : List AlternativeKind} {nullable : Bool}
    (hbody : type.body = .union alternatives nullable) :
    ∃ definition, document.get? type.definition = some definition ∧
      ∃ items, PropertySet.branches? definition.node = some items ∧
        Build.unionOf? items = some (alternatives, nullable) := by
  obtain ⟨declared, hdeclared, rfl⟩ := run.mem_model_types_iff.mp htype
  obtain ⟨definition, hdefinition, hmem⟩ := run.mem_types_iff.mp hdeclared
  obtain ⟨notices, hdeclares⟩ := run.declares hdefinition
  have hunion := (run.body_emitted_iff (fun _ => TypeBody.noConfusion)
    fun _ _ _ => TypeBody.noConfusion).mp hbody
  obtain ⟨hname, hitems⟩ := hdeclares.of_union hmem hunion
  have hlookup : document.get? declared.definition = some definition := by
    rw [hname]
    exact Document.get?_of_mem_sorted hdefinition
  exact ⟨definition, hlookup, hitems⟩

end Compilation

/-- **A union covers the types of its branches.**  An emitted union comes from the branches of its
definition.  Each branch that names a JSON type contributes the alternative of that type, so every
value of the type is accepted, and so is null if a branch names it. -/
theorem Model.unions_cover {document : Document} {model : Model}
    (hbuild : Model.build document = .ok model) {type : TypeDecl} (htype : type ∈ model.types)
    {alternatives : List AlternativeKind} {nullable : Bool}
    (hbody : type.body = .union alternatives nullable) :
    ∃ definition items, document.get? type.definition = some definition ∧
      PropertySet.branches? definition.node = some items ∧ alternatives.Nodup ∧
      Build.Covers items ⟨type.name, alternatives, nullable⟩ := by
  obtain ⟨run, rfl⟩ := Model.build_eq_ok_iff.mp hbuild
  obtain ⟨definition, hdefinition, items, hitems, hunion⟩ := run.exists_items_of_union htype hbody
  have hcollects := Build.collects_of_unionOf? hunion
  exact ⟨definition, items, hdefinition, hitems, hcollects.nodup, hcollects.covers type.name⟩

/-! ## Branches that are covered in part -/

/-- The alternatives of a union, and whether it is nullable. -/
def TypeBody.union? : TypeBody → Option (List AlternativeKind × Bool)
  | .union alternatives nullable => some (alternatives, nullable)
  | _ => none

theorem TypeBody.eq_of_union? {body : TypeBody} {alternatives : List AlternativeKind}
    {nullable : Bool} (h : body.union? = some (alternatives, nullable)) :
    body = .union alternatives nullable := by
  cases body with
  | union => cases h; rfl
  | _ => cases h

def point : Definition where
  name := "Point"
  node :=
    [("type", .string "object"),
      ("properties", .object [("x", .object [("type", .string "integer")])])]

def mark (branches : List Json) : Definition where
  name := "Mark"
  node := [("anyOf", .array branches)]

def markDocument (branches : List Json) : Document where
  definitions := [(point.name, .object point.node), ("Mark", .object (mark branches).node)]
  revision := none
  distinct := by simp [Entries.Distinct, Entries.keys, point]

/-- What a lookup shows of the union in a compiled document. -/
theorem exists_union_mark (branches : List Json) {alternatives : List AlternativeKind}
    {nullable : Bool}
    (h : ((Model.build (markDocument branches)).toOption.map fun model =>
      (model.type? "Mark").map fun type => (type.definition, type.body.union?)) =
        some (some ("Mark", some (alternatives, nullable)))) :
    ∃ model, Model.build (markDocument branches) = .ok model ∧ ∃ type ∈ model.types,
      type.definition = "Mark" ∧ type.name = "Mark" ∧
        type.body = .union alternatives nullable := by
  obtain ⟨model, hbuild, hshown⟩ := exists_of_toOption_map_eq_some h
  obtain ⟨type, hfound, hshown⟩ := Option.map_eq_some_iff.mp hshown
  obtain ⟨hdefinition, hunion⟩ := Prod.mk.inj hshown
  obtain ⟨htype, hname⟩ := of_find?_name_eq_some hfound
  exact ⟨model, hbuild, type, htype, hdefinition, hname, TypeBody.eq_of_union? hunion⟩

def nullBranch : Json :=
  .object [("type", .string "null")]

def longBranch : Json :=
  .object [("type", .string "integer"), ("format", .string "int64")]

def listedBranch (types : List Json) : Json :=
  .object [("type", .array types)]

theorem unions_cover_mark :
    Build.Covers [nullBranch, longBranch, listedBranch [.string "null", .string "string"]]
      ⟨"Mark", [.integer .int64, .string], true⟩ := by
  have hshown : ((Model.build (markDocument
      [nullBranch, longBranch, listedBranch [.string "null", .string "string"]])).toOption.map
        fun model => (model.type? "Mark").map fun type => (type.definition, type.body.union?)) =
          some (some ("Mark", some ([.integer .int64, .string], true))) := by
    decide
  obtain ⟨model, hbuild, type, htype, hdefinition, hname, hbody⟩ := exists_union_mark _ hshown
  obtain ⟨definition, items, hlookup, hitems, -, hcovers⟩ :=
    Model.unions_cover hbuild htype hbody
  rw [hdefinition] at hlookup
  cases hlookup
  cases hitems
  rw [hname] at hcovers
  exact hcovers

def stringOrInteger : List Json :=
  [listedBranch [.string "string", .string "integer"], .object [("type", .string "boolean")]]

def textOrPoint : List Json :=
  [.object [("type", .string "string")], .object [("type", .string "integer")],
    .object [("$ref", .string "#/$defs/Point")]]

/-- Of a branch that lists two types only the first one is read, and nothing of a branch that
refers to a record. -/
theorem mark_drops_branches :
    (∃ model, Model.build (markDocument stringOrInteger) = .ok model ∧
      ∃ type ∈ model.types, type.body = .union [.string, .boolean] false ∧
        Union.decode ⟨type.name, [.string, .boolean], false⟩ (.number (.int 5)) =
          .error (.noAlternative type.name .integer)) ∧
    ∃ model, Model.build (markDocument textOrPoint) = .ok model ∧
      ∃ type ∈ model.types, type.body = .union [.string, .integer .int32] false ∧
        ∀ members, Union.decode ⟨type.name, [.string, .integer .int32], false⟩ (.object members) =
          .error (.noAlternative type.name .object) := by
  constructor
  · have hshown : ((Model.build (markDocument stringOrInteger)).toOption.map fun model =>
        (model.type? "Mark").map fun type => (type.definition, type.body.union?)) =
          some (some ("Mark", some ([.string, .boolean], false))) := by
      decide
    obtain ⟨model, hbuild, type, htype, -, -, hbody⟩ := exists_union_mark _ hshown
    exact ⟨model, hbuild, type, htype, hbody, rfl⟩
  · have hshown : ((Model.build (markDocument textOrPoint)).toOption.map fun model =>
        (model.type? "Mark").map fun type => (type.definition, type.body.union?)) =
          some (some ("Mark", some ([.string, .integer .int32], false))) := by
      decide
    obtain ⟨model, hbuild, type, htype, -, -, hbody⟩ := exists_union_mark _ hshown
    exact ⟨model, hbuild, type, htype, hbody, fun members => rfl⟩

end SchemaCompiler
