import SchemaCompiler.Proofs.Json.Distinct
import SchemaCompiler.Proofs.Model.Identifiers
import SchemaCompiler.Proofs.Render.WireName

/-!
# Wire names

A record has a field for each property of its definition and of the items under it, a variant one
for each property of its base and of the node of its branch, without the tag.  Overlaying property
sets, numbering identifiers and boxing leave their keys alone, so the keys of the fields are those
names, each of them once and in order; and in the rendered source, each field has its key for its
name (`Model.wire_names`).
-/

namespace SchemaCompiler

open Fallible

/-! ## Properties of a record -/

namespace Node

/-- A node declares a property of its own. -/
def HasProperty (node : Node) (key : String) : Prop :=
  ∃ properties, node.object? "properties" = some properties ∧ key ∈ Entries.keys properties

/-- The items of the `oneOf` of a node, or of its `anyOf` if it has no `oneOf`. -/
inductive HasItem (node item : Node) : Prop where
  | oneOf {items : List Json} (hitems : Entries.get? node "oneOf" = some (.array items))
      (hitem : Json.object item ∈ items)
  | anyOf (hnone : Entries.get? node "oneOf" = none) {items : List Json}
      (hitems : Entries.get? node "anyOf" = some (.array items)) (hitem : Json.object item ∈ items)

/-- A record has its own properties and those of its items. -/
def HasRecordProperty (node : Node) (key : String) : Prop :=
  node.HasProperty key ∨ ∃ item, node.HasItem item ∧ HasProperty item key

end Node

namespace PropertySet

variable {node : Node} {key : String}

theorem keys_ofNode (node : Node) :
    Entries.keys (ofNode node) = Entries.keys ((node.object? "properties").getD []) := by
  rw [ofNode, Entries.keys, List.map_map]
  rfl

theorem mem_keys_ofNode : key ∈ Entries.keys (ofNode node) ↔ node.HasProperty key := by
  rw [keys_ofNode, Node.HasProperty]
  cases node.object? "properties" with
  | none => simp [Entries.keys]
  | some properties => simp

theorem hasItem_iff {item : Node} :
    node.HasItem item ↔ ∃ items, branches? node = some items ∧ Json.object item ∈ items := by
  unfold branches?
  constructor
  · rintro (⟨hitems, hitem⟩ | ⟨hnone, hitems, hitem⟩)
    · exact ⟨_, by rw [hitems]; rfl, hitem⟩
    · exact ⟨_, by rw [hnone, hitems]; rfl, hitem⟩
  · rintro ⟨items, hitems, hitem⟩
    obtain ⟨value, hvalue, harray⟩ := Option.bind_eq_some_iff.mp hitems
    cases value with
    | array values =>
        obtain rfl : values = items := Option.some.inj harray
        rcases Option.or_eq_some_iff.mp hvalue with hone | ⟨hnone, hany⟩
        · exact .oneOf hone hitem
        · exact .anyOf hnone hany hitem
    | _ => cases harray

theorem mem_keys_overlay {set other : PropertySet} :
    key ∈ Entries.keys (set.overlay other) ↔ key ∈ Entries.keys set ∨ key ∈ Entries.keys other :=
  Entries.mem_keys_foldl_insert

theorem mem_keys_ofRecord : key ∈ Entries.keys (ofRecord node) ↔ node.HasRecordProperty key := by
  rw [ofRecord, mem_keys_overlay, mem_keys_ofNode, Node.HasRecordProperty]
  refine or_congr_right ?_
  constructor
  · intro hkey
    obtain ⟨entry, hentry, rfl⟩ := List.mem_map.mp hkey
    obtain ⟨branch, hbranch, hentry⟩ := List.mem_flatMap.mp hentry
    obtain ⟨declared, hdeclared, rfl⟩ := List.mem_map.mp hentry
    cases hitems : branches? node with
    | none =>
        rw [hitems] at hbranch
        exact absurd hbranch List.not_mem_nil
    | some items =>
        rw [hitems] at hbranch
        cases branch with
        | object item =>
            refine ⟨item, hasItem_iff.mpr ⟨items, hitems, hbranch⟩, mem_keys_ofNode.mp ?_⟩
            rw [keys_ofNode]
            exact List.mem_map_of_mem hdeclared
        | _ => exact absurd hdeclared List.not_mem_nil
  · rintro ⟨item, hitem, hproperty⟩
    obtain ⟨items, hitems, hmem⟩ := hasItem_iff.mp hitem
    rw [← mem_keys_ofNode, keys_ofNode] at hproperty
    obtain ⟨declared, hdeclared, rfl⟩ := List.mem_map.mp hproperty
    refine List.mem_map.mpr ⟨_, List.mem_flatMap.mpr ⟨.object item, ?_,
      List.mem_map_of_mem hdeclared⟩, rfl⟩
    rw [hitems]
    exact hmem

theorem distinct_ofNode (h : (Json.object node).DistinctKeys) : (ofNode node).Distinct := by
  rw [Entries.Distinct, keys_ofNode]
  cases hproperties : node.object? "properties" with
  | none => exact List.nodup_nil
  | some properties =>
      exact (Json.distinctKeys_object_iff.mp (Node.distinctKeys_of_object? h hproperties)).1

theorem distinct_ofRecord (h : (Json.object node).DistinctKeys) : (ofRecord node).Distinct :=
  (distinct_ofNode h).foldl_insert _

end PropertySet

/-! ## Keys of fields -/

/-- The keys with a property, each of them once and in order. -/
structure Lists (keys : List String) (holds : String → Prop) : Prop where
  pairwise : keys.Pairwise (· < ·)
  mem_iff : ∀ key, key ∈ keys ↔ holds key

namespace Build

/-- The node that a branch has properties of its own from. -/
def branchNode? (document : Document) : BranchSource → Option Node
  | .promoted name | .wrapped name => (document.get? name).map (·.node)
  | .inline item => some item
  | .nested _ => none

end Build

/-- A branch has the properties of its base and of its own node, but not the tag. -/
def HasBranchProperty (document : Document) (base : Base) (owner : Definition) (branch : Branch)
    (key : String) : Prop :=
  key ≠ base.property ∧ (owner.node.HasProperty key ∨
    ∃ own, Build.branchNode? document branch.source = some own ∧ own.HasRecordProperty key)

/-- What the names of fields are on the wire, in the model and in the source of a type. -/
structure NamesFields (document : Document) (hierarchy : Hierarchy) (type : TypeDecl) : Prop where
  record : ∀ fields, type.body = .record fields →
    ∃ definition, document.get? type.definition = some definition ∧
      Lists (fields.filterMap Field.key?) definition.node.HasRecordProperty
  variant : ∀ name value fields, type.body = .variant name value fields →
    ∃ base ∈ hierarchy.bases, name = base.typeName ∧
      ∃ owner, document.get? base.definition = some owner ∧
        ∃ branch ∈ base.branches, branch.value = value ∧ branch.typeName = type.name ∧
          Lists (fields.filterMap Field.key?) (HasBranchProperty document base owner branch)
  rendered : ∀ options, ∀ field ∈ type.fields, ∀ key, field.key? = some key →
    Render.field ⟨options, .standard⟩ type field <:+:
        Render.declaration ⟨options, .standard⟩ type ∧
      Render.wireName? ⟨options, .standard⟩ (Render.field ⟨options, .standard⟩ type field) =
        some key

namespace Build

variable {document : Document} {origin typeName : String}

theorem lists_fields (document : Document) (origin typeName : String) {set : PropertySet}
    (h : Entries.Distinct set) :
    Lists ((fields document origin typeName set).1.filterMap Field.key?)
      (· ∈ Entries.keys set) where
  pairwise := by
    rw [filterMap_key?_fields, Entries.keys, List.pairwise_map]
    exact sortBy_key_pairwise_lt h
  mem_iff := fun key => mem_keys_fields

/-- The keys of a branch: what the base and its own node declare, without the tag. -/
theorem lists_branchFields (document : Document) (origin typeName : String) {owner : Node}
    (howner : (Json.object owner).DistinctKeys) (node : Option Node) (property : String) :
    Lists ((branchFields document origin typeName node (some owner) property).1.filterMap
      Field.key?) fun key => key ≠ property ∧
        (owner.HasProperty key ∨ ∃ own, node = some own ∧ own.HasRecordProperty key) := by
  have hdistinct : Entries.Distinct (Entries.erase
      ((PropertySet.ofNode owner).overlay ((node.map PropertySet.ofRecord).getD [])) property) :=
    ((PropertySet.distinct_ofNode howner).foldl_insert _).erase property
  have hlists := lists_fields document origin typeName hdistinct
  refine ⟨hlists.pairwise, fun key => (hlists.mem_iff key).trans ?_⟩
  rw [Entries.mem_keys_erase, PropertySet.mem_keys_overlay, PropertySet.mem_keys_ofNode, and_comm]
  refine and_congr_right fun _ => or_congr_right ?_
  cases node with
  | none => simp [Entries.keys]
  | some own => simp [PropertySet.mem_keys_ofRecord]

theorem promoted_of_get? {definition owner : Definition} {derived : Derived}
    (h : document.get? derived.base = some owner) :
    (promoted document definition derived).1 =
      .variant (Naming.typeName derived.base) derived.value
        (branchFields document definition.name (Naming.typeName definition.name)
          (some definition.node) (some owner.node) derived.property).1 := by
  unfold promoted
  rw [h]
  rfl

/-- Whatever a wrapper holds, it has the fields of its base and of the node of its branch; a field
beyond these has no key. -/
theorem exists_fields_wrapper {definition : Definition} {base : Base} {branch : Branch}
    (hpromoted : branch.isPromoted = false) :
    ∃ extra, (wrapper document definition base branch).1.fields =
      (branchFields document (definition.name ++ "[" ++ branch.value ++ "]") branch.typeName
        (branchNode? document branch.source) (some definition.node) base.property).1 ++ extra ∧
      ∀ field ∈ extra, field.presence = .flattened := by
  cases hsource : branch.source with
  | nested target =>
      refine ⟨_, fields_wrapper_of_nested hsource, fun field hfield => ?_⟩
      rw [List.mem_singleton.mp hfield]
      rfl
  | promoted name => simp [Branch.isPromoted, hsource] at hpromoted
  | wrapped name =>
      refine ⟨[], ?_, fun field hfield => absurd hfield List.not_mem_nil⟩
      unfold wrapper
      simp only [hsource, List.append_nil]
      rfl
  | inline item =>
      refine ⟨[], ?_, fun field hfield => absurd hfield List.not_mem_nil⟩
      unfold wrapper
      simp only [hsource, List.append_nil]
      rfl

end Build

namespace Compilation

variable {document : Document} (run : Compilation document)

theorem lists_of_record (hdistinct : (Json.object document.definitions).DistinctKeys)
    {type : TypeDecl} (htype : type ∈ run.types) {fields : List Field}
    (hbody : type.body = .record fields) :
    ∃ definition, document.get? type.definition = some definition ∧
      Lists (fields.filterMap Field.key?) definition.node.HasRecordProperty := by
  obtain ⟨definition, hdefinition, hmem⟩ := run.mem_types_iff.mp htype
  obtain ⟨notices, hdeclares⟩ := run.declares hdefinition
  obtain ⟨hname, rfl⟩ := hdeclares.of_record hmem hbody
  have hlookup := Document.get?_of_mem_sorted hdefinition
  refine ⟨definition, by rw [hname, hlookup], ?_⟩
  have hlists := Build.lists_fields document definition.name (Naming.typeName definition.name)
    (PropertySet.distinct_ofRecord (Document.distinctKeys_of_get? hdistinct hlookup))
  exact ⟨hlists.pairwise, fun key => (hlists.mem_iff key).trans PropertySet.mem_keys_ofRecord⟩

/-- Whichever type stands for a branch, it has the fields of its base and of its node; a field
beyond these has no key. -/
theorem exists_branchFields_of_variant {type : TypeDecl} (htype : type ∈ run.types)
    {name value : String} {fields : List Field} (hbody : type.body = .variant name value fields) :
    ∃ base ∈ run.analysis.hierarchy.bases, name = base.typeName ∧
      ∃ owner, document.get? base.definition = some owner ∧
        ∃ branch ∈ base.branches, branch.value = value ∧ branch.typeName = type.name ∧
          ∃ origin typeName extra, fields =
            (Build.branchFields document origin typeName (Build.branchNode? document branch.source)
              (some owner.node) base.property).1 ++ extra ∧
            ∀ field ∈ extra, field.presence = .flattened := by
  obtain ⟨definition, hdefinition, hmem⟩ := run.mem_types_iff.mp htype
  obtain ⟨notices, hdeclares⟩ := run.declares hdefinition
  have hlookup := Document.get?_of_mem_sorted hdefinition
  cases hdeclares.declaresType hmem with
  | @promoted derived hderived =>
      obtain ⟨hfound, hname⟩ := of_find?_name_eq_some hderived
      obtain ⟨base, hbase, branch, hbranch, target, hsource, rfl⟩ :=
        Hierarchy.mem_derived_iff.mp hfound
      obtain rfl : target = definition.name := hname
      obtain ⟨owner, howner, hownerName, -⟩ :=
        run.exists_owner (run.analysis.mem_hierarchy_bases.mp hbase)
      have hbaseOwner : document.get? base.definition = some owner :=
        hownerName ▸ Document.get?_of_mem_sorted howner
      have hnode : Build.branchNode? document branch.source = some definition.node := by
        rw [hsource, Build.branchNode?, hlookup]
        rfl
      obtain ⟨rfl, rfl, rfl⟩ :=
        TypeBody.variant.inj ((Build.promoted_of_get? hbaseOwner).symm.trans hbody)
      refine ⟨base, hbase, rfl, owner, hbaseOwner, branch, hbranch, rfl,
        (run.coherent hbase).typeName_promoted branch hbranch definition.name hsource,
        definition.name, Naming.typeName definition.name, [], ?_,
        fun field hfield => absurd hfield List.not_mem_nil⟩
      rw [hnode, List.append_nil]
      rfl
  | @wrapper base hbase branch hbranch hpromoted =>
      obtain ⟨rfl, rfl, rfl⟩ := TypeBody.variant.inj hbody
      obtain ⟨hfound, hname⟩ := of_find?_name_eq_some hbase
      rw [← hname] at hlookup
      exact ⟨base, hfound, rfl, definition, hlookup, branch, hbranch, rfl, rfl, _, _,
        Build.exists_fields_wrapper hpromoted⟩
  | tagged _ _ _ _ => cases hbody
  | independent hindependent =>
      obtain rfl : _ = TypeBody.variant name value fields := hbody
      exact hindependent.elim

theorem lists_of_variant (hdistinct : (Json.object document.definitions).DistinctKeys)
    {type : TypeDecl} (htype : type ∈ run.types) {name value : String} {fields : List Field}
    (hbody : type.body = .variant name value fields) :
    ∃ base ∈ run.analysis.hierarchy.bases, name = base.typeName ∧
      ∃ owner, document.get? base.definition = some owner ∧
        ∃ branch ∈ base.branches, branch.value = value ∧ branch.typeName = type.name ∧
          Lists (fields.filterMap Field.key?) (HasBranchProperty document base owner branch) := by
  obtain ⟨base, hbase, hname, owner, hlookup, branch, hbranch, hvalue, htypeName, origin, typeName,
    extra, hfields, hextra⟩ := run.exists_branchFields_of_variant htype hbody
  refine ⟨base, hbase, hname, owner, hlookup, branch, hbranch, hvalue, htypeName, ?_⟩
  have hkeyless : extra.filterMap Field.key? = [] := by
    refine List.filterMap_eq_nil_iff.mpr fun field hfield => ?_
    rw [Field.key?, FieldFacts.key?, Field.facts, hextra field hfield]
  rw [hfields, List.filterMap_append, hkeyless, List.append_nil]
  exact Build.lists_branchFields document origin typeName
    (Document.distinctKeys_of_get? hdistinct hlookup) _ base.property

/-! ## Emitted types -/

theorem exists_record_of_emitted {type : TypeDecl} {fields : List Field}
    (h : (run.emitted type).body = .record fields) :
    ∃ declared, type.body = .record declared := by
  obtain ⟨definition, origin, name, description, body⟩ := type
  cases body with
  | record declared => exact ⟨declared, rfl⟩
  | _ => cases h

/-- Boxing leaves the keys alone. -/
theorem keys_emitted {type : TypeDecl} {fields declared : List Field}
    (hfields : (run.emitted type).fields = fields) (hdeclared : type.fields = declared) :
    fields.filterMap Field.key? = declared.filterMap Field.key? := by
  rw [← hfields, ← hdeclared]
  exact filterMap_key?_eq_of_facts (run.facts_emitted type)

theorem namesFields_emitted (hdistinct : (Json.object document.definitions).DistinctKeys)
    {type : TypeDecl} (htype : type ∈ run.model.types) :
    NamesFields document run.analysis.hierarchy type := by
  obtain ⟨type, hdeclared, rfl⟩ := run.mem_model_types_iff.mp htype
  refine ⟨fun fields hbody => ?_, fun name value fields hbody => ?_,
    fun options field hfield key hkey => ?_⟩
  · obtain ⟨declared, hrecord⟩ := run.exists_record_of_emitted hbody
    have hkeys : fields.filterMap Field.key? = declared.filterMap Field.key? :=
      run.keys_emitted (congrArg TypeBody.fields hbody) (congrArg TypeBody.fields hrecord)
    rw [hkeys]
    exact run.lists_of_record hdistinct hdeclared hrecord
  · obtain ⟨declared, hvariant⟩ := run.exists_fields_of_emitted hbody
    have hkeys : fields.filterMap Field.key? = declared.filterMap Field.key? :=
      run.keys_emitted (congrArg TypeBody.fields hbody) (congrArg TypeBody.fields hvariant)
    rw [hkeys]
    exact run.lists_of_variant hdistinct hdeclared hvariant
  · refine ⟨Render.field_infix_declaration _ hfield, ?_⟩
    have hpresence : field.presence ≠ .flattened := by
      intro hflattened
      rw [Field.key?, FieldFacts.key?, Field.facts, hflattened] at hkey
      cases hkey
    obtain rfl : field.wireName = key :=
      Option.some.inj ((Build.key?_of_ne_flattened hpresence).symm.trans hkey)
    exact Render.wireName?_field hpresence
      (Naming.colon_notMem_escape ((run.composed_emitted htype).isPlain hfield hpresence))

end Compilation

/-- A record with `type` among its own properties and `Type` among those of an item. -/
def noteDocument : Document where
  definitions :=
    [("Note", .object
      [("properties", .object [("type", .object [("type", .string "string")])]),
        ("oneOf", .array [.object [("properties", .object
          [("body", .object [("type", .string "string")]), ("Type", .object [])])]])])]
  revision := none
  distinct := by decide

theorem distinctKeys_note : (Json.object noteDocument.definitions).DistinctKeys := by
  simp only [noteDocument, Json.DistinctKeys, Json.DistinctKeysMembers, Json.DistinctKeysAll]
  decide

end SchemaCompiler
