import SchemaCompiler.Proofs.Entries
import SchemaCompiler.Proofs.Resolve

/-!
# Where fields come from

Every field has the wire name and the descriptor of one entry of the property set it is made from
(`exists_property_of_mem_fields`), and every entry of such a set stands under `properties` in the
node or in one of its branches.  The tally counts what the schema of an entry refers to, unless the
entry itself is called `$ref` (`mem_ofMembers_of_mem_ofRecord`).
-/

namespace SchemaCompiler

/-! ## Property sets -/

namespace PropertySet

variable {wireName : String} {property : Property} {node : Node}

theorem mem_overlay {set other : PropertySet} {entry : String × Property}
    (h : entry ∈ set.overlay other) : entry ∈ set ∨ entry ∈ other :=
  Entries.mem_foldl_insert h

theorem exists_properties_of_mem_ofNode (h : (wireName, property) ∈ ofNode node) :
    ∃ properties, Entries.get? node "properties" = some (.object properties) ∧
      (wireName, property.schema) ∈ properties := by
  unfold ofNode at h
  obtain ⟨⟨name, schema⟩, hmem, heq⟩ := List.mem_map.mp h
  cases heq
  cases hproperties : node.object? "properties" with
  | none =>
      rw [hproperties] at hmem
      exact absurd hmem List.not_mem_nil
  | some properties =>
      rw [hproperties] at hmem
      obtain ⟨value, hvalue, hobject⟩ := Option.bind_eq_some_iff.mp hproperties
      cases value with
      | object members =>
          obtain rfl : members = properties := Option.some.inj hobject
          exact ⟨members, hvalue, hmem⟩
      | _ => cases hobject

theorem exists_branches_of_branches? {items : List Json} (h : branches? node = some items) :
    ∃ key ∈ ["oneOf", "anyOf"], Entries.get? node key = some (.array items) := by
  unfold branches? at h
  obtain ⟨value, hvalue, hitems⟩ := Option.bind_eq_some_iff.mp h
  cases value with
  | array values =>
      obtain rfl : values = items := Option.some.inj hitems
      rcases Option.or_eq_some_iff.mp hvalue with hvalue | ⟨-, hvalue⟩
      · exact ⟨"oneOf", by decide, hvalue⟩
      · exact ⟨"anyOf", by decide, hvalue⟩
  | _ => cases hitems

/-- An entry of a record stands in the node itself or in one of its branches. -/
theorem mem_ofRecord (h : (wireName, property) ∈ ofRecord node) :
    (wireName, property) ∈ ofNode node ∨
      ∃ key ∈ ["oneOf", "anyOf"], ∃ items, Entries.get? node key = some (.array items) ∧
        ∃ branch, Json.object branch ∈ items ∧
          ∃ properties, Entries.get? branch "properties" = some (.object properties) ∧
            (wireName, property.schema) ∈ properties := by
  unfold ofRecord at h
  rcases mem_overlay h with hown | hnested
  · exact Or.inl hown
  · right
    obtain ⟨branch, hbranch, hmem⟩ := List.mem_flatMap.mp hnested
    obtain ⟨⟨name, schema⟩, hentry, heq⟩ := List.mem_map.mp hmem
    cases heq
    cases hitems : branches? node with
    | none =>
        rw [hitems] at hbranch
        exact absurd hbranch List.not_mem_nil
    | some items =>
        rw [hitems] at hbranch
        obtain ⟨key, hkey, hvalue⟩ := exists_branches_of_branches? hitems
        refine ⟨key, hkey, items, hvalue, ?_⟩
        cases hproperties : (branch.get? "properties").bind Json.object? with
        | none =>
            rw [hproperties] at hentry
            exact absurd hentry List.not_mem_nil
        | some properties =>
            rw [hproperties] at hentry
            obtain ⟨value, hbranchValue, hobject⟩ := Option.bind_eq_some_iff.mp hproperties
            cases branch with
            | object members =>
                cases value with
                | object found =>
                    obtain rfl : found = properties := Option.some.inj hobject
                    exact ⟨members, hbranch, found, hbranchValue, hentry⟩
                | _ => cases hobject
            | _ => cases hbranchValue

/-! ## What the entries refer to -/

variable {name : String}

theorem mem_ofJson_of_mem_properties {properties : List (String × Json)} {schema : Json}
    (h : (wireName, schema) ∈ properties) (hwire : wireName ≠ "$ref")
    (hname : name ∈ Tally.ofJson schema) : name ∈ Tally.ofJson (.object properties) := by
  rw [Tally.ofJson, Tally.ofMembers_eq_flatMap]
  refine List.mem_flatMap.mpr ⟨(wireName, schema), h, ?_⟩
  rw [Tally.ofMember_of_ne hwire]
  exact hname

theorem mem_ofMembers_of_mem_ofRecord (h : (wireName, property) ∈ ofRecord node)
    (hwire : wireName ≠ "$ref") (hname : name ∈ Tally.ofJson property.schema) :
    name ∈ Tally.ofMembers node := by
  rcases mem_ofRecord h with hown | ⟨key, hkey, items, hitems, branch, hbranch, properties,
    hproperties, hmem⟩
  · obtain ⟨properties, hproperties, hmem⟩ := exists_properties_of_mem_ofNode hown
    exact Tally.mem_ofMembers_of_get? hproperties (by decide)
      (mem_ofJson_of_mem_properties hmem hwire hname)
  · have hinside : name ∈ Tally.ofMembers branch :=
      Tally.mem_ofMembers_of_get? hproperties (by decide)
        (mem_ofJson_of_mem_properties hmem hwire hname)
    have hcounted : key ≠ "$ref" := by
      rintro rfl
      exact absurd hkey (by decide)
    refine Tally.mem_ofMembers_of_get? hitems hcounted ?_
    rw [Tally.ofJson, Tally.ofItems_eq_flatMap]
    exact List.mem_flatMap.mpr ⟨.object branch, hbranch, by rwa [Tally.ofJson]⟩

end PropertySet

/-! ## Fields -/

namespace Build

variable {document : Document} {origin typeName : String}

/-- A field reads the schema of the property. -/
def Describes (document : Document) (field : Field) (property : Property) : Prop :=
  field.descriptor = known document (Resolve.ofJson property.schema)

theorem Describes.mem_ofJson {field : Field} {property : Property} {name : String}
    (h : Describes document field property) (hname : name ∈ field.descriptor.references) :
    name ∈ Tally.ofJson property.schema := by
  rw [h] at hname
  exact Resolve.mem_ofJson_of_mem_references _ (references_known_subset document _ hname)

theorem distinguish_keeps (origin : String) (used : List String) (field : Field) :
    (distinguish origin used field).1.wireName = field.wireName ∧
      (distinguish origin used field).1.descriptor = field.descriptor := by
  unfold distinguish
  split <;> exact ⟨rfl, rfl⟩

theorem exists_property_of_mem_fieldsFrom {set : PropertySet} {used : List String} {field : Field}
    (h : field ∈ (fieldsFrom document origin typeName used set).1) :
    ∃ property, (field.wireName, property) ∈ set ∧ Describes document field property := by
  induction set generalizing used with
  | nil => exact absurd h List.not_mem_nil
  | cons head rest ih =>
      obtain ⟨wireName, property⟩ := head
      rw [fieldsFrom] at h
      rcases List.mem_cons.mp h with rfl | h
      · obtain ⟨hname, hdescriptor⟩ := distinguish_keeps origin used
          (fieldOf document origin typeName wireName property).1
        refine ⟨property, ?_, hdescriptor⟩
        rw [hname]
        exact List.mem_cons_self
      · obtain ⟨found, hmem, hdescribes⟩ := ih h
        exact ⟨found, List.mem_cons_of_mem _ hmem, hdescribes⟩

theorem exists_property_of_mem_fields {set : PropertySet} {field : Field}
    (h : field ∈ (fields document origin typeName set).1) :
    ∃ property, (field.wireName, property) ∈ set ∧ Describes document field property := by
  obtain ⟨property, hmem, hdescribes⟩ := exists_property_of_mem_fieldsFrom h
  exact ⟨property, (sortBy_perm _ _).mem_iff.mp hmem, hdescribes⟩

/-- A field of a branch comes from the properties of its base or from those of its own node. -/
theorem exists_property_of_mem_branchFields {node base : Option Node} {property : String}
    {field : Field} (h : field ∈ (branchFields document origin typeName node base property).1) :
    ∃ declared, Describes document field declared ∧
      ((∃ shared, base = some shared ∧ (field.wireName, declared) ∈ PropertySet.ofNode shared) ∨
        ∃ own, node = some own ∧ (field.wireName, declared) ∈ PropertySet.ofRecord own) := by
  obtain ⟨declared, hmem, hdescribes⟩ := exists_property_of_mem_fields h
  refine ⟨declared, hdescribes, ?_⟩
  rcases PropertySet.mem_overlay (List.mem_filter.mp hmem).1 with hshared | hown
  · cases base with
    | none => exact absurd hshared List.not_mem_nil
    | some shared => exact Or.inl ⟨shared, rfl, hshared⟩
  · cases node with
    | none => exact absurd hown List.not_mem_nil
    | some own => exact Or.inr ⟨own, rfl, hown⟩

end Build

end SchemaCompiler
