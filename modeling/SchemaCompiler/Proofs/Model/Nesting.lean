import Mathlib.Logic.Relation
import SchemaCompiler.Proofs.Model.BranchFields
import SchemaCompiler.Proofs.Model.References
import SchemaCompiler.Proofs.Wire.Nesting

/-!
# Nested tagged types

A branch that refers to another sum type gets a wrapper with a flattened field for it, so the tags
of both types are in one object.  A layer is a variant with the tag of its base and the keys of its
own fields.  A stack goes from a variant through its flattened field into a variant of the type
that is held, and on from there.

Stacks follow the bases that nest each other.  Tags are apart along every stack exactly if the tag
of a nested base is neither the tag nor a shared property of a base around it, at any depth
(`Model.nested_tags`).  Then an object can be read and written along any stack, and no stack is
deeper than there are types.  Nothing makes sure of that, though: a base and one that it nests may
have the same tag, and then the inner one is lost (`frame_shares_tag`).
-/

namespace SchemaCompiler

open Fallible

/-! ## Layers of emitted types -/

/-- The key under which a field stands in the object of its type; a flattened field has none. -/
def FieldFacts.key? (facts : FieldFacts) : Option String :=
  match facts.presence with
  | .flattened => none
  | _ => some facts.wireName

def Field.key? (field : Field) : Option String :=
  field.facts.key?

/-- A variant among the types, with the tag of its base and the keys of its own fields. -/
structure IsLayer (types : List TypeDecl) (layer : Wire.Layer) (fields : List Field) : Prop where
  variant : ∃ type ∈ types, type.body = .variant layer.base layer.value fields
  tagged : ∃ type ∈ types, type.name = layer.base ∧
    ∃ cases, type.body = .tagged layer.property cases
  keys_eq : layer.keys = fields.filterMap Field.key?

/-- Layers each of which, but the last, has a flattened field for the base of the next one. -/
inductive IsStack (types : List TypeDecl) : List Wire.Layer → Prop where
  | single {layer : Wire.Layer} {fields : List Field} (hlayer : IsLayer types layer fields) :
      IsStack types [layer]
  | cons {layer next : Wire.Layer} {rest : List Wire.Layer} {fields : List Field}
      (hlayer : IsLayer types layer fields) {field : Field} (hfield : field ∈ fields)
      (hpresence : field.presence = .flattened) {target : String}
      (hdescriptor : field.descriptor = .reference target)
      (hnext : Naming.typeName target = next.base) (hrest : IsStack types (next :: rest)) :
      IsStack types (layer :: next :: rest)

/-! ## Nested bases -/

namespace Hierarchy

/-- A base that is declared as a tagged type. -/
structure IsDeclared (document : Document) (hierarchy : Hierarchy) (base : Base) : Prop where
  mem : base ∈ hierarchy.bases
  enum_eq : ∃ owner, document.get? base.definition = some owner ∧
    Entries.get? owner.node "enum" = none

/-- A branch of a base holds another base whole. -/
structure Nests (document : Document) (hierarchy : Hierarchy) (outer inner : Base) : Prop where
  isDeclared_outer : IsDeclared document hierarchy outer
  isDeclared_inner : IsDeclared document hierarchy inner
  exists_branch : ∃ branch ∈ outer.branches, branch.source = .nested inner.definition

/-- The names of the properties that a base shares with its branches. -/
def sharedNames (document : Document) (base : Base) : List String :=
  match document.get? base.definition with
  | some owner => Entries.keys (PropertySet.ofNode owner.node)
  | none => []

/-- The tag of a base that is nested in another one, at any depth, is neither the tag nor a shared
property of that. -/
def NestedTagsApart (document : Document) (hierarchy : Hierarchy) : Prop :=
  ∀ outer inner, Relation.TransGen (Nests document hierarchy) outer inner →
    inner.property ≠ outer.property ∧ inner.property ∉ sharedNames document outer

end Hierarchy

/-! ## Fields of wrappers -/

namespace Build

variable {document : Document} {origin typeName : String}

theorem presenceOf_ne_flattened (descriptor : Descriptor) (required : Bool)
    (default : Option Json) : (presenceOf descriptor required default).1 ≠ .flattened := by
  unfold presenceOf
  split
  · exact FieldPresence.noConfusion
  · split
    · exact FieldPresence.noConfusion
    · split <;> exact FieldPresence.noConfusion

theorem presence_ne_flattened_of_mem_fields {set : PropertySet} {field : Field}
    (h : field ∈ (fields document origin typeName set).1) : field.presence ≠ .flattened := by
  have hfacts := List.mem_map_of_mem (f := Field.facts) h
  rw [facts_fields] at hfacts
  obtain ⟨⟨wireName, property⟩, -, hproperty⟩ := List.mem_map.mp hfacts
  rw [show field.presence = field.facts.presence from rfl, ← hproperty]
  exact presenceOf_ne_flattened _ _ _

theorem key?_of_ne_flattened {field : Field} (h : field.presence ≠ .flattened) :
    field.key? = some field.wireName := by
  unfold Field.key? FieldFacts.key?
  split
  · rename_i hflattened
    exact absurd hflattened h
  · rfl

/-- The fields of a property set stand under its names, in order. -/
theorem filterMap_key?_fields (set : PropertySet) :
    (fields document origin typeName set).1.filterMap Field.key? = Entries.keys set.sorted := by
  have hkeys : (fields document origin typeName set).1.filterMap Field.key? =
      (fields document origin typeName set).1.map (·.wireName) := by
    rw [← List.filterMap_eq_map]
    exact List.filterMap_congr fun field hfield =>
      key?_of_ne_flattened (presence_ne_flattened_of_mem_fields hfield)
  calc (fields document origin typeName set).1.filterMap Field.key?
      = (fields document origin typeName set).1.map (·.wireName) := hkeys
    _ = ((fields document origin typeName set).1.map Field.facts).map (·.wireName) := by
        rw [List.map_map]
        rfl
    _ = (set.facts document).map (·.wireName) := by rw [facts_fields]
    _ = Entries.keys set.sorted := by
        rw [PropertySet.facts, List.map_map]
        rfl

theorem mem_keys_fields {set : PropertySet} {key : String} :
    key ∈ (fields document origin typeName set).1.filterMap Field.key? ↔
      key ∈ Entries.keys set := by
  rw [filterMap_key?_fields]
  exact ((sortBy_perm _ set).map Prod.fst).mem_iff

/-! ## Wrappers around another sum type -/

/-- The fields that a wrapper has for the properties of its base. -/
def sharedFields (document : Document) (definition : Definition) (base : Base) (branch : Branch) :
    List Field :=
  (fields document (definition.name ++ "[" ++ branch.value ++ "]") branch.typeName
    (Entries.erase (PropertySet.ofNode definition.node) base.property)).1

variable {definition : Definition} {base : Base} {branch : Branch} {target : String}

/-- A wrapper around a sum type has one more field, which holds the sum type. -/
theorem fields_wrapper_of_nested (hsource : branch.source = .nested target) :
    (wrapper document definition base branch).1.fields =
      sharedFields document definition base branch ++
        [(embedded (definition.name ++ "[" ++ branch.value ++ "]") target
          (sharedFields document definition base branch)).1] := by
  unfold wrapper
  simp only [hsource]
  rfl

theorem mem_keys_wrapper_of_nested (hsource : branch.source = .nested target) {key : String} :
    key ∈ (wrapper document definition base branch).1.fields.filterMap Field.key? ↔
      key ∈ Entries.keys (PropertySet.ofNode definition.node) ∧ key ≠ base.property := by
  rw [fields_wrapper_of_nested hsource, List.filterMap_append, List.mem_append, sharedFields,
    mem_keys_fields, Entries.mem_keys_erase]
  refine or_iff_left fun hmem => ?_
  -- the field that holds the sum type has no key
  exact absurd hmem List.not_mem_nil

theorem exists_flattened_wrapper_of_nested (hsource : branch.source = .nested target) :
    ∃ field ∈ (wrapper document definition base branch).1.fields,
      field.presence = .flattened ∧ field.descriptor = .reference target := by
  rw [fields_wrapper_of_nested hsource]
  exact ⟨_, List.mem_append_right _ (List.mem_singleton_self _), rfl, rfl⟩

/-- Only a wrapper around a sum type has a flattened field, and that refers to the sum type. -/
theorem of_flattened_of_mem_wrapper {field : Field}
    (hfield : field ∈ (wrapper document definition base branch).1.fields)
    (hpresence : field.presence = .flattened) :
    ∃ target, branch.source = .nested target ∧ field.descriptor = .reference target := by
  cases hsource : branch.source with
  | nested target =>
      rw [fields_wrapper_of_nested hsource, List.mem_append] at hfield
      rcases hfield with hshared | hembedded
      · exact absurd hpresence (presence_ne_flattened_of_mem_fields hshared)
      · obtain rfl := List.mem_singleton.mp hembedded
        exact ⟨target, rfl, rfl⟩
  | _ =>
      unfold wrapper at hfield
      simp only [hsource] at hfield
      exact absurd hpresence (presence_ne_flattened_of_mem_fields hfield)

end Build

namespace Compilation

variable {document : Document} (run : Compilation document)

/-! ## Bases of layers -/

theorem exists_isDeclared_of_tagged {type : TypeDecl} (htype : type ∈ run.types)
    {property : String} {cases : List TaggedCase} (hbody : type.body = .tagged property cases) :
    ∃ base, Hierarchy.IsDeclared document run.analysis.hierarchy base ∧
      type.name = base.typeName ∧ property = base.property := by
  obtain ⟨owner, howner, hmem⟩ := run.mem_types_iff.mp htype
  obtain ⟨notices, hdeclares⟩ := run.declares howner
  cases hdeclares.declaresType hmem with
  | @tagged base hderived halias henum hbase =>
      obtain ⟨hfound, hname⟩ := of_find?_name_eq_some hbase
      refine ⟨base, ⟨hfound, owner, ?_, henum⟩, ?_, (TypeBody.tagged.inj hbody).1.symm⟩
      · rw [hname]
        exact Document.get?_of_mem_sorted howner
      · rw [Base.typeName, hname]
        rfl
  | promoted _ => cases hbody
  | wrapper _ _ _ => cases hbody
  | independent hindependent =>
      obtain rfl : _ = TypeBody.tagged property cases := hbody
      exact hindependent.elim

/-- The name of its type tells a base. -/
theorem base_eq_of_typeName_eq {a b : Base} (ha : a ∈ run.analysis.hierarchy.bases)
    (hb : b ∈ run.analysis.hierarchy.bases) (h : a.typeName = b.typeName) : a = b := by
  obtain ⟨first, hfirst, hname, hlookup⟩ :=
    run.exists_owner (run.analysis.mem_hierarchy_bases.mp ha)
  obtain ⟨second, hsecond, hname', hlookup'⟩ :=
    run.exists_owner (run.analysis.mem_hierarchy_bases.mp hb)
  have hsame : first.name = second.name := by
    refine run.eq_of_typeName_eq hfirst hsecond ?_
    rw [hname, hname']
    exact h
  rw [hsame, hlookup'] at hlookup
  exact (Option.some.inj hlookup).symm

/-- A variant with a flattened field is a wrapper around the sum type that the field refers to. -/
theorem exists_nested_of_flattened {type : TypeDecl} (htype : type ∈ run.types)
    {name value : String} {fields : List Field} (hbody : type.body = .variant name value fields)
    {field : Field} (hfield : field ∈ fields) (hpresence : field.presence = .flattened) :
    ∃ base ∈ run.analysis.hierarchy.bases, name = base.typeName ∧
      ∃ branch ∈ base.branches, ∃ target, branch.source = .nested target ∧
        field.descriptor = .reference target ∧
        ∀ key, key ∈ fields.filterMap Field.key? ↔
          key ∈ Hierarchy.sharedNames document base ∧ key ≠ base.property := by
  obtain ⟨owner, howner, hmem⟩ := run.mem_types_iff.mp htype
  obtain ⟨notices, hdeclares⟩ := run.declares howner
  cases hdeclares.declaresType hmem with
  | @promoted derived hderived =>
      obtain ⟨-, -, rfl⟩ := TypeBody.variant.inj hbody
      exact absurd hpresence (Build.presence_ne_flattened_of_mem_fields hfield)
  | @wrapper base hbase branch hbranch hpromoted =>
      obtain ⟨rfl, rfl, rfl⟩ := TypeBody.variant.inj hbody
      obtain ⟨hfound, hname⟩ := of_find?_name_eq_some hbase
      obtain ⟨target, hsource, hdescriptor⟩ := Build.of_flattened_of_mem_wrapper hfield hpresence
      refine ⟨base, hfound, rfl, branch, hbranch, target, hsource, hdescriptor, fun key => ?_⟩
      have hshared : Hierarchy.sharedNames document base =
          Entries.keys (PropertySet.ofNode owner.node) := by
        rw [Hierarchy.sharedNames, hname, Document.get?_of_mem_sorted howner]
      rw [hshared]
      exact Build.mem_keys_wrapper_of_nested hsource
  | tagged _ _ _ _ => cases hbody
  | independent hindependent =>
      obtain rfl : _ = TypeBody.variant name value fields := hbody
      exact hindependent.elim

/-- A layer is in a base that is declared as a tagged type. -/
structure Represents (layer : Wire.Layer) (base : Base) : Prop where
  isDeclared : Hierarchy.IsDeclared document run.analysis.hierarchy base
  base_eq : layer.base = base.typeName
  property_eq : layer.property = base.property

variable {run}

theorem exists_represents {layer : Wire.Layer} {fields : List Field}
    (h : IsLayer run.types layer fields) : ∃ base, run.Represents layer base := by
  obtain ⟨type, htype, hname, cases, hbody⟩ := h.tagged
  obtain ⟨base, hdeclared, hbase, hproperty⟩ := run.exists_isDeclared_of_tagged htype hbody
  exact ⟨base, hdeclared, hname.symm.trans hbase, hproperty⟩

theorem exists_represents_of_isStack {layer : Wire.Layer} {rest : List Wire.Layer}
    (h : IsStack run.types (layer :: rest)) : ∃ base, run.Represents layer base := by
  cases h with
  | single hlayer => exact exists_represents hlayer
  | cons hlayer _ _ _ _ _ => exact exists_represents hlayer

/-- A layer that holds the next one is in a base that nests the base of the next one. -/
theorem nests_of_isLayer {layer next : Wire.Layer} {fields : List Field}
    (h : IsLayer run.types layer fields) {field : Field} (hfield : field ∈ fields)
    (hpresence : field.presence = .flattened) {target : String}
    (hdescriptor : field.descriptor = .reference target)
    (hnext : Naming.typeName target = next.base) {outer inner : Base}
    (houter : run.Represents layer outer) (hinner : run.Represents next inner) :
    Hierarchy.Nests document run.analysis.hierarchy outer inner ∧
      ∀ key, key ∈ layer.keys ↔
        key ∈ Hierarchy.sharedNames document outer ∧ key ≠ outer.property := by
  obtain ⟨type, htype, hbody⟩ := h.variant
  obtain ⟨base, hbase, hname, branch, hbranch, held, hsource, hheld, hkeys⟩ :=
    run.exists_nested_of_flattened htype hbody hfield hpresence
  obtain rfl : base = outer :=
    run.base_eq_of_typeName_eq hbase houter.isDeclared.mem (hname.symm.trans houter.base_eq)
  obtain rfl : held = target := Descriptor.reference.inj (hheld.symm.trans hdescriptor)
  rw [h.keys_eq]
  refine ⟨⟨houter.isDeclared, hinner.isDeclared, branch, hbranch, ?_⟩, hkeys⟩
  -- the sum type that is held has the type name of the inner base, so it is that base
  obtain ⟨pending, hpending, hdecided⟩ :=
    run.analysis.exists_pending_of_mem_bases (run.analysis.mem_hierarchy_bases.mp hbase)
  have hpromoted : branch.isPromoted = false := by
    rw [Branch.isPromoted, hsource]
  obtain ⟨candidate, -, hcandidate⟩ :=
    Hierarchy.exists_candidate_of_not_promoted hdecided hbranch hpromoted
  have hsum := Hierarchy.of_wrapperSource_nested (hcandidate.symm.trans hsource)
  obtain ⟨definition, hdefinition⟩ := Hierarchy.Analysis.exists_definition_of_mem_sums hsum
  obtain ⟨owner, howner, hownerName, -⟩ :=
    run.exists_owner (run.analysis.mem_hierarchy_bases.mp hinner.isDeclared.mem)
  have hsame : definition.name = owner.name := by
    refine run.eq_of_typeName_eq (Document.mem_sorted_of_get? hdefinition) howner ?_
    rw [Document.name_of_get? hdefinition, hnext, hinner.base_eq, hownerName]
    rfl
  rw [hsource, ← hownerName, ← hsame, Document.name_of_get? hdefinition]

/-- The bases of the inner layers are nested in that of the outermost one. -/
theorem exists_transGen_of_isStack {layer : Wire.Layer} {rest : List Wire.Layer}
    (h : IsStack run.types (layer :: rest)) {outer : Base} (houter : run.Represents layer outer) :
    ∀ other ∈ rest, ∃ inner, run.Represents other inner ∧
      Relation.TransGen (Hierarchy.Nests document run.analysis.hierarchy) outer inner := by
  induction rest generalizing layer outer with
  | nil => exact fun other hother => absurd hother List.not_mem_nil
  | cons next rest ih =>
      cases h with
      | cons hlayer hfield hpresence hdescriptor hnext hrest =>
          obtain ⟨middle, hmiddle⟩ := exists_represents_of_isStack hrest
          obtain ⟨hnests, -⟩ :=
            nests_of_isLayer hlayer hfield hpresence hdescriptor hnext houter hmiddle
          intro other hother
          rcases List.mem_cons.mp hother with rfl | hother
          · exact ⟨middle, hmiddle, .single hnests⟩
          · obtain ⟨inner, hinner, hreaches⟩ := ih hrest hmiddle other hother
            exact ⟨inner, hinner, .head hnests hreaches⟩

theorem tagsApart_of_isStack
    (hapart : Hierarchy.NestedTagsApart document run.analysis.hierarchy)
    {layers : List Wire.Layer} (h : IsStack run.types layers) : Wire.TagsApart layers := by
  induction h with
  | single _ => exact List.pairwise_singleton _ _
  | @cons layer next rest fields hlayer field hfield hpresence target hdescriptor hnext hrest ih =>
      refine List.pairwise_cons.mpr ⟨fun other hother => ?_, ih⟩
      obtain ⟨outer, houter⟩ := exists_represents hlayer
      obtain ⟨middle, hmiddle⟩ := exists_represents_of_isStack hrest
      obtain ⟨-, hkeys⟩ :=
        nests_of_isLayer hlayer hfield hpresence hdescriptor hnext houter hmiddle
      obtain ⟨inner, hinner, hreaches⟩ := exists_transGen_of_isStack
        (.cons hlayer hfield hpresence hdescriptor hnext hrest) houter other hother
      obtain ⟨hproperty, hshared⟩ := hapart outer inner hreaches
      rw [hinner.property_eq, houter.property_eq]
      exact ⟨hproperty, fun hkey => hshared ((hkeys inner.property).mp hkey).1⟩

/-! ## Stacks of nested bases -/

theorem exists_owner_of_isDeclared {base : Base}
    (h : Hierarchy.IsDeclared document run.analysis.hierarchy base) :
    ∃ owner ∈ document.sorted, run.source.hierarchy.base? owner.name = some base ∧
      Entries.get? owner.node "enum" = none := by
  obtain ⟨owner, howner, hname, hlookup⟩ :=
    run.exists_owner (run.analysis.mem_hierarchy_bases.mp h.mem)
  obtain ⟨found, hfound, henum⟩ := h.enum_eq
  rw [← hname, Document.get?_of_mem_sorted howner] at hfound
  obtain rfl := Option.some.inj hfound
  exact ⟨owner, howner, hlookup, henum⟩

theorem exists_branch {base : Base} (h : base ∈ run.analysis.hierarchy.bases) :
    ∃ branch, branch ∈ base.branches := by
  obtain ⟨pending, hpending, hdecided⟩ :=
    run.analysis.exists_pending_of_mem_bases (run.analysis.mem_hierarchy_bases.mp h)
  obtain ⟨candidate, hcandidate⟩ :=
    List.exists_mem_of_ne_nil _ (run.analysis.candidates_ne_nil hpending)
  obtain ⟨branch, hbranch, -⟩ := Hierarchy.exists_branch_of_candidate hdecided hcandidate
  exact ⟨branch, hbranch⟩

/-- Some layer is in a base that is declared. -/
theorem exists_isLayer_of_isDeclared {base : Base}
    (h : Hierarchy.IsDeclared document run.analysis.hierarchy base) :
    ∃ layer fields, IsLayer run.types layer fields ∧ run.Represents layer base := by
  obtain ⟨owner, howner, hlookup, henum⟩ := exists_owner_of_isDeclared h
  obtain ⟨type, htype, hname, hbody⟩ := run.hasBase_of_enum_eq_none howner hlookup henum
  obtain ⟨branch, hbranch⟩ := run.exists_branch h.mem
  have hcase : TaggedCase.mk branch.value branch.caseName branch.typeName ∈ type.taggedCases := by
    rw [TypeDecl.taggedCases, hbody]
    exact List.mem_map.mpr ⟨branch, hbranch, rfl⟩
  obtain ⟨variant, hvariant, -, fields, hfields⟩ := run.hasVariant_of_mem_taggedCases htype hcase
  exact ⟨⟨type.name, base.property, branch.value, fields.filterMap Field.key?⟩, fields,
    ⟨⟨variant, hvariant, hfields⟩, ⟨type, htype, rfl, _, hbody⟩, rfl⟩, ⟨h, hname, rfl⟩⟩

/-- Where a base nests another one, some layer in it has a field for that. -/
theorem exists_isLayer_of_nests {outer inner : Base}
    (h : Hierarchy.Nests document run.analysis.hierarchy outer inner) :
    ∃ layer fields, IsLayer run.types layer fields ∧ run.Represents layer outer ∧
      ∃ field ∈ fields, field.presence = .flattened ∧
        field.descriptor = .reference inner.definition := by
  obtain ⟨owner, howner, hlookup, henum⟩ := exists_owner_of_isDeclared h.isDeclared_outer
  obtain ⟨type, htype, hname, hbody⟩ := run.hasBase_of_enum_eq_none howner hlookup henum
  obtain ⟨branch, hbranch, hsource⟩ := h.exists_branch
  have hpromoted : branch.isPromoted = false := by
    rw [Branch.isPromoted, hsource]
  have hwrapper := run.mem_types_of_wrapper howner
    (run.typesOf_of_enum_eq_none howner hlookup henum) hbranch hpromoted
  exact ⟨⟨outer.typeName, outer.property, branch.value, _⟩, _,
    ⟨⟨_, hwrapper, rfl⟩, ⟨type, htype, hname, _, hbody⟩, rfl⟩,
    ⟨h.isDeclared_outer, rfl, rfl⟩, Build.exists_flattened_wrapper_of_nested hsource⟩

/-- A layer in the outer base can be put in front of any layers that start in the inner one. -/
theorem exists_isStack_cons {outer inner : Base}
    (h : Hierarchy.Nests document run.analysis.hierarchy outer inner)
    {next : Wire.Layer} {rest : List Wire.Layer} (hrest : IsStack run.types (next :: rest))
    (hnext : run.Represents next inner) :
    ∃ layer, IsStack run.types (layer :: next :: rest) ∧ run.Represents layer outer ∧
      ∀ key, key ∈ layer.keys ↔
        key ∈ Hierarchy.sharedNames document outer ∧ key ≠ outer.property := by
  obtain ⟨layer, fields, hlayer, houter, field, hfield, hpresence, hdescriptor⟩ :=
    exists_isLayer_of_nests h
  have hname : Naming.typeName inner.definition = next.base := hnext.base_eq.symm
  exact ⟨layer, .cons hlayer hfield hpresence hdescriptor hname hrest, houter,
    (nests_of_isLayer hlayer hfield hpresence hdescriptor hname houter hnext).2⟩

/-- Layers from a base down to one that is nested in it at some depth. -/
theorem exists_isStack_of_transGen {outer inner : Base}
    (h : Relation.TransGen (Hierarchy.Nests document run.analysis.hierarchy) outer inner) :
    ∃ first rest, IsStack run.types (first :: rest) ∧ run.Represents first outer ∧
      (∀ key, key ∈ first.keys ↔
        key ∈ Hierarchy.sharedNames document outer ∧ key ≠ outer.property) ∧
      ∃ last ∈ rest, run.Represents last inner := by
  induction h using Relation.TransGen.head_induction_on with
  | single hnests =>
      obtain ⟨last, fields, hlast, hinner⟩ := exists_isLayer_of_isDeclared hnests.isDeclared_inner
      obtain ⟨first, hstack, houter, hkeys⟩ := exists_isStack_cons hnests (.single hlast) hinner
      exact ⟨first, [last], hstack, houter, hkeys, last, List.mem_singleton_self _, hinner⟩
  | head hnests _ ih =>
      obtain ⟨next, rest, hrest, hmiddle, -, last, hlast, hinner⟩ := ih
      obtain ⟨first, hstack, houter, hkeys⟩ := exists_isStack_cons hnests hrest hmiddle
      exact ⟨first, next :: rest, hstack, houter, hkeys, last, List.mem_cons_of_mem _ hlast, hinner⟩

theorem nestedTagsApart_iff :
    Hierarchy.NestedTagsApart document run.analysis.hierarchy ↔
      ∀ layers, IsStack run.types layers → Wire.TagsApart layers := by
  constructor
  · intro hapart layers hlayers
    exact tagsApart_of_isStack hapart hlayers
  · intro hapart outer inner hreaches
    obtain ⟨first, rest, hstack, houter, hkeys, last, hlast, hinner⟩ :=
      exists_isStack_of_transGen hreaches
    obtain ⟨hproperty, hkey⟩ := (List.pairwise_cons.mp (hapart _ hstack)).1 last hlast
    rw [houter.property_eq, hinner.property_eq] at hproperty
    rw [hinner.property_eq, hkeys] at hkey
    exact ⟨hproperty, fun hshared => hkey ⟨hshared, hproperty⟩⟩

end Compilation

/-! ## Emitted types -/

/-- Stacks are made of layers, and boxes do not show in what those are made of. -/
theorem IsStack.of_facts {types types' : List TypeDecl}
    (h : ∀ layer fields, IsLayer types layer fields →
      ∃ fields', IsLayer types' layer fields' ∧ fields'.map Field.facts = fields.map Field.facts)
    {layers : List Wire.Layer} (hlayers : IsStack types layers) : IsStack types' layers := by
  induction hlayers with
  | single hlayer =>
      obtain ⟨fields', hlayer', -⟩ := h _ _ hlayer
      exact .single hlayer'
  | cons hlayer hfield hpresence hdescriptor hnext _ ih =>
      obtain ⟨fields', hlayer', hfacts⟩ := h _ _ hlayer
      have hmem := List.mem_map_of_mem (f := Field.facts) hfield
      rw [← hfacts] at hmem
      obtain ⟨field', hfield', hsame⟩ := List.mem_map.mp hmem
      have hpresence' := congrArg FieldFacts.presence hsame
      have hdescriptor' := congrArg FieldFacts.descriptor hsame
      exact .cons hlayer' hfield' (hpresence'.trans hpresence) (hdescriptor'.trans hdescriptor)
        hnext ih

/-- Fields with the same facts have the same keys. -/
theorem filterMap_key?_eq_of_facts {fields fields' : List Field}
    (h : fields'.map Field.facts = fields.map Field.facts) :
    fields'.filterMap Field.key? = fields.filterMap Field.key? := by
  have hkeys (fields : List Field) :
      fields.filterMap Field.key? = (fields.map Field.facts).filterMap FieldFacts.key? := by
    rw [List.filterMap_map]
    rfl
  rw [hkeys, hkeys, h]

namespace Compilation

variable {document : Document} (run : Compilation document)

theorem exists_isLayer_emitted {layer : Wire.Layer} {fields : List Field}
    (h : IsLayer run.types layer fields) :
    ∃ fields', IsLayer run.model.types layer fields' ∧
      fields'.map Field.facts = fields.map Field.facts := by
  obtain ⟨type, htype, hbody⟩ := h.variant
  obtain ⟨base, hbase, hname, cases, htagged⟩ := h.tagged
  have hfacts := run.facts_emitted type
  rw [show type.fields = fields by rw [TypeDecl.fields, hbody]; rfl] at hfacts
  refine ⟨(run.emitted type).fields, ⟨⟨run.emitted type, ?_, ?_⟩, ⟨run.emitted base, ?_, hname,
    cases, ?_⟩, ?_⟩, hfacts⟩
  · exact run.mem_model_types_iff.mpr ⟨type, htype, rfl⟩
  · obtain ⟨definition, origin, name, description, body⟩ := type
    obtain rfl : body = _ := hbody
    rfl
  · exact run.mem_model_types_iff.mpr ⟨base, hbase, rfl⟩
  · exact run.tagged_emitted_iff.mpr htagged
  · rw [filterMap_key?_eq_of_facts hfacts]
    exact h.keys_eq

theorem exists_isLayer_declared {layer : Wire.Layer} {fields : List Field}
    (h : IsLayer run.model.types layer fields) :
    ∃ fields', IsLayer run.types layer fields' ∧
      fields'.map Field.facts = fields.map Field.facts := by
  obtain ⟨type, htype, hbody⟩ := h.variant
  obtain ⟨base, hbase, hname, cases, htagged⟩ := h.tagged
  obtain ⟨type, hdeclared, rfl⟩ := run.mem_model_types_iff.mp htype
  obtain ⟨base, hdeclaredBase, rfl⟩ := run.mem_model_types_iff.mp hbase
  obtain ⟨fields', hdeclaredBody⟩ := run.exists_fields_of_emitted hbody
  have hfacts := run.facts_emitted type
  rw [show type.fields = fields' by rw [TypeDecl.fields, hdeclaredBody]; rfl,
    show (run.emitted type).fields = fields by rw [TypeDecl.fields, hbody]; rfl] at hfacts
  refine ⟨fields', ⟨⟨type, hdeclared, hdeclaredBody⟩, ⟨base, hdeclaredBase, hname, cases,
    run.tagged_emitted_iff.mp htagged⟩, ?_⟩, hfacts.symm⟩
  rw [filterMap_key?_eq_of_facts hfacts.symm]
  exact h.keys_eq

theorem isStack_model_iff {layers : List Wire.Layer} :
    IsStack run.model.types layers ↔ IsStack run.types layers := by
  constructor
  · intro h
    exact h.of_facts fun layer fields hlayer => run.exists_isLayer_declared hlayer
  · intro h
    exact h.of_facts fun layer fields hlayer => run.exists_isLayer_emitted hlayer

end Compilation

/-! ## Depth -/

theorem IsStack.exists_isLayer {types : List TypeDecl} {layers : List Wire.Layer}
    (h : IsStack types layers) : ∀ layer ∈ layers, ∃ fields, IsLayer types layer fields := by
  induction h with
  | single hlayer => exact List.forall_mem_singleton.mpr ⟨_, hlayer⟩
  | cons hlayer _ _ _ _ _ ih => exact List.forall_mem_cons.mpr ⟨⟨_, hlayer⟩, ih⟩

/-- Layers in one tagged type have one tag. -/
theorem IsLayer.property_eq {types : List TypeDecl} (hnodup : (types.map (·.name)).Nodup)
    {first second : Wire.Layer} {fields fields' : List Field} (h : IsLayer types first fields)
    (h' : IsLayer types second fields') (hbase : first.base = second.base) :
    first.property = second.property := by
  obtain ⟨type, htype, hname, cases, hbody⟩ := h.tagged
  obtain ⟨type', htype', hname', cases', hbody'⟩ := h'.tagged
  obtain rfl : type = type' :=
    List.inj_on_of_nodup_map hnodup htype htype' (by rw [hname, hname', hbase])
  exact (TypeBody.tagged.inj (hbody.symm.trans hbody')).1

/-- Layers with their tags apart are in different types, so there are only so many. -/
theorem IsStack.length_le {types : List TypeDecl} (hnodup : (types.map (·.name)).Nodup)
    {layers : List Wire.Layer} (h : IsStack types layers) (hapart : Wire.TagsApart layers) :
    layers.length ≤ types.length := by
  have hbases : (layers.map (·.base)).Nodup := by
    refine List.pairwise_map.mpr ((List.pairwise_map.mp hapart.properties_nodup).imp_of_mem ?_)
    intro first second hfirst hsecond hne hbase
    obtain ⟨fields, hlayer⟩ := h.exists_isLayer first hfirst
    obtain ⟨fields', hlayer'⟩ := h.exists_isLayer second hsecond
    exact hne (hlayer.property_eq hnodup hlayer' hbase)
  have hsubset : layers.map (·.base) ⊆ types.map (·.name) := by
    intro base hbase
    obtain ⟨layer, hlayer, rfl⟩ := List.mem_map.mp hbase
    obtain ⟨fields, hlayer⟩ := h.exists_isLayer layer hlayer
    obtain ⟨type, htype, hname, -⟩ := hlayer.tagged
    exact hname ▸ List.mem_map_of_mem htype
  have hlength := (List.subperm_of_subset hbases hsubset).length_le
  rwa [List.length_map, List.length_map] at hlength

/-- **When nested tags can share one object.**  In the emitted model, tags are apart along every
stack of layers exactly if those of nested bases are.  Layers whose tags are apart are no more than
there are types; an object is read along them exactly if it carries all of their tags, and is
written with all of them. -/
theorem Model.nested_tags {document : Document} {model : Model}
    (h : Model.build document = .ok model) :
    ∃ hierarchy notices, Hierarchy.analyze document = .ok (hierarchy, notices) ∧
      (Hierarchy.NestedTagsApart document hierarchy ↔
        ∀ layers, IsStack model.types layers → Wire.TagsApart layers) ∧
      ∀ layers, IsStack model.types layers → Wire.TagsApart layers →
        layers.length ≤ model.types.length ∧ Wire.SharesObject layers := by
  obtain ⟨run, rfl⟩ := Model.build_eq_ok_iff.mp h
  refine ⟨run.analysis.hierarchy, run.analysis.notices,
    Hierarchy.analyze_eq_ok_iff.mpr ⟨run.analysis, rfl, rfl⟩, ?_, ?_⟩
  · rw [run.nestedTagsApart_iff]
    exact forall_congr' fun layers => by rw [run.isStack_model_iff]
  · intro layers hlayers hapart
    exact ⟨hlayers.length_le run.model_names_nodup hapart,
      Wire.sharesObject_of_tagsApart hapart⟩

/-! ## A stack of two layers -/

/-- Where a field stands and what it holds. -/
structure FieldSlot where
  key? : Option String
  descriptor : Descriptor
deriving DecidableEq

def Field.slot (field : Field) : FieldSlot :=
  ⟨field.key?, field.descriptor⟩

theorem Field.of_slot {field : Field} {descriptor : Descriptor}
    (h : field.slot = ⟨none, descriptor⟩) :
    field.presence = .flattened ∧ field.descriptor = descriptor := by
  obtain ⟨hkey, hdescriptor⟩ := FieldSlot.mk.inj h
  refine ⟨?_, hdescriptor⟩
  by_contra hpresence
  rw [Build.key?_of_ne_flattened hpresence] at hkey
  cases hkey

/-- The layer of an emitted variant, and what its fields show. -/
def Model.layer? (model : Model) (name : String) :
    Option (Wire.Layer × List FieldSlot) := do
  let type ← model.type? name
  let (base, value) ← type.body.variant?
  let owner ← model.type? base
  let (property, _) ← owner.body.tagged?
  some (⟨base, property, value, type.fields.filterMap Field.key?⟩, type.fields.map Field.slot)

theorem Model.exists_isLayer {model : Model} {name : String} {layer : Wire.Layer}
    {slots : List FieldSlot} (h : model.layer? name = some (layer, slots)) :
    ∃ fields, IsLayer model.types layer fields ∧ fields.map Field.slot = slots := by
  obtain ⟨type, hfound, h⟩ := Option.bind_eq_some_iff.mp h
  obtain ⟨⟨base, value⟩, hvariant, h⟩ := Option.bind_eq_some_iff.mp h
  obtain ⟨owner, howner, h⟩ := Option.bind_eq_some_iff.mp h
  obtain ⟨⟨property, cases⟩, htagged, h⟩ := Option.bind_eq_some_iff.mp h
  obtain ⟨rfl, rfl⟩ := Prod.mk.inj (Option.some.inj h)
  obtain ⟨htype, -⟩ := of_find?_name_eq_some hfound
  obtain ⟨hownerMem, hname⟩ := of_find?_name_eq_some howner
  exact ⟨type.fields, ⟨⟨type, htype, TypeBody.eq_of_variant? hvariant⟩,
    ⟨owner, hownerMem, hname, cases, TypeBody.eq_of_tagged? htagged⟩, rfl⟩, rfl⟩

/-- The stack of a variant that holds a tagged type and a variant of that type. -/
theorem Model.isStack_pair {model : Model} {name name' target : String} {outer inner : Wire.Layer}
    {slots slots' : List FieldSlot}
    (houter : model.layer? name = some (outer, slots)) (hslot : ⟨none, .reference target⟩ ∈ slots)
    (hinner : model.layer? name' = some (inner, slots'))
    (hbase : Naming.typeName target = inner.base) : IsStack model.types [outer, inner] := by
  obtain ⟨fields, hlayer, rfl⟩ := Model.exists_isLayer houter
  obtain ⟨fields', hlayer', -⟩ := Model.exists_isLayer hinner
  obtain ⟨field, hfield, hslot⟩ := List.mem_map.mp hslot
  obtain ⟨hpresence, hdescriptor⟩ := Field.of_slot hslot
  exact .cons hlayer hfield hpresence hdescriptor hbase (.single hlayer')

/-- A branch that refers to the definition `Shape` and is told apart by a constant. -/
def shapeBranch (property value : String) : Json :=
  .object
    [("$ref", .string "#/$defs/Shape"),
      ("properties", .object [(property, .object [("const", .string value)])])]

/-- A layer of a drawing is a tile, which is a shape. -/
def layerDocument : Document where
  definitions :=
    [("Layer", .object
        [("properties", .object [("opacity", .object [("type", .string "number")])]),
          ("discriminator", .object [("propertyName", .string "layer")]),
          ("oneOf", .array [shapeBranch "layer" "tile"])]),
      ("Shape", kindBase [kindRecord "circle"])]
  revision := none
  distinct := by decide

def tileLayer : Wire.Layer := ⟨"Layer", "layer", "tile", ["opacity"]⟩

def circleLayer : Wire.Layer := ⟨"Shape", "kind", "circle", []⟩

/-- The definition and the tag of a base, and the definitions that its branches nest. -/
def Base.outline (base : Base) : String × String × List String :=
  (base.definition, base.property, base.branches.filterMap fun branch =>
    match branch.source with
    | .nested definition => some definition
    | _ => none)

/-- Only the layers nest something, and that is the shapes. -/
theorem nests_layerDocument {hierarchy : Hierarchy} {notices : List Notice}
    (h : Hierarchy.analyze layerDocument = .ok (hierarchy, notices)) {outer inner : Base}
    (hnests : Hierarchy.Nests layerDocument hierarchy outer inner) :
    outer.definition = "Layer" ∧ outer.property = "layer" ∧ inner.property = "kind" := by
  have hshown : ((Hierarchy.analyze layerDocument).toOption.map fun found =>
      found.1.bases.map Base.outline) =
      some [("Layer", "layer", ["Shape"]), ("Shape", "kind", [])] := by
    decide
  rw [h] at hshown
  have houtlines : hierarchy.bases.map Base.outline =
      [("Layer", "layer", ["Shape"]), ("Shape", "kind", [])] := Option.some.inj hshown
  obtain ⟨branch, hbranch, hsource⟩ := hnests.exists_branch
  have hnested : inner.definition ∈ outer.outline.2.2 :=
    List.mem_filterMap.mpr ⟨branch, hbranch, by rw [hsource]⟩
  have houter := List.mem_map_of_mem (f := Base.outline) hnests.isDeclared_outer.mem
  have hinner := List.mem_map_of_mem (f := Base.outline) hnests.isDeclared_inner.mem
  rw [houtlines, List.mem_cons, List.mem_singleton] at houter hinner
  rcases houter with houter | houter
  · rw [houter, List.mem_singleton] at hnested
    rcases hinner with hinner | hinner
    · have hlayer : inner.definition = "Layer" := congrArg (·.1) hinner
      rw [hnested] at hlayer
      exact absurd hlayer (by decide)
    · exact ⟨congrArg (·.1) houter, congrArg (·.2.1) houter, congrArg (·.2.1) hinner⟩
  · rw [houter] at hnested
    exact absurd hnested List.not_mem_nil

theorem nestedTagsApart_layerDocument {hierarchy : Hierarchy} {notices : List Notice}
    (h : Hierarchy.analyze layerDocument = .ok (hierarchy, notices)) :
    Hierarchy.NestedTagsApart layerDocument hierarchy := by
  intro outer inner hreaches
  obtain ⟨first, hfirst, -⟩ := Relation.TransGen.head'_iff.mp hreaches
  obtain ⟨last, -, hlast⟩ := Relation.TransGen.tail'_iff.mp hreaches
  obtain ⟨hdefinition, hproperty, -⟩ := nests_layerDocument h hfirst
  obtain ⟨-, -, hkind⟩ := nests_layerDocument h hlast
  rw [Hierarchy.sharedNames, hdefinition, hproperty, hkind]
  decide

theorem nested_tags_tile :
    ∃ model, Model.build layerDocument = .ok model ∧
      (∀ layers, IsStack model.types layers → Wire.TagsApart layers) ∧
      IsStack model.types [tileLayer, circleLayer] ∧
      [tileLayer, circleLayer].length ≤ model.types.length ∧
      Wire.SharesObject [tileLayer, circleLayer] := by
  have hshown : ((Model.build layerDocument).toOption.map fun model =>
      (model.layer? "LayerTile", model.layer? "ShapeCircle")) =
      some (some (tileLayer, [⟨some "opacity", .scalar .number⟩, ⟨none, .reference "Shape"⟩]),
        some (circleLayer, [])) := by
    decide
  obtain ⟨model, hbuild, hshown⟩ := exists_of_toOption_map_eq_some hshown
  obtain ⟨houter, hinner⟩ := Prod.mk.inj hshown
  have hstack : IsStack model.types [tileLayer, circleLayer] :=
    Model.isStack_pair houter (List.mem_cons_of_mem _ List.mem_cons_self) hinner (by decide)
  obtain ⟨hierarchy, notices, hanalysis, hiff, hlayers⟩ := Model.nested_tags hbuild
  have hapart := hiff.mp (nestedTagsApart_layerDocument hanalysis)
  exact ⟨model, hbuild, hapart, hstack, hlayers _ hstack (hapart _ hstack)⟩

/-! ## Tags that clash -/

/-- Both the frame and the shape in it have the tag `kind`. -/
def frameDocument : Document where
  definitions :=
    [("Frame", kindBase [shapeBranch "kind" "framed"]), ("Shape", kindBase [kindRecord "circle"])]
  revision := none
  distinct := by decide

def framedLayer : Wire.Layer := ⟨"Frame", "kind", "framed", []⟩

/-- A frame on the wire. -/
def frameShape : Wire.Shape :=
  .tagged "Frame" "kind"
    [("framed", .record "FrameFramed"
      [(⟨"Shape", .flattened⟩,
        .tagged "Shape" "kind" [("circle", .record "ShapeCircle" [])])])]

theorem layered_frameShape : Wire.Layered [framedLayer, circleLayer] frameShape :=
  .nested rfl (fun _ hfield => absurd hfield List.not_mem_nil) rfl rfl (.last rfl)

/-- The tag of the shape is dropped. -/
theorem encode_frameShape :
    frameShape.encode (.tagged "framed" (.record [.tagged "circle" (.record [])])) =
      some (.object [("kind", .string "framed")]) := by
  rfl

theorem frame_shares_tag :
    ∃ model, Model.build frameDocument = .ok model ∧
      IsStack model.types [framedLayer, circleLayer] ∧
      ¬Wire.TagsApart [framedLayer, circleLayer] ∧
      ¬Wire.SharesObject [framedLayer, circleLayer] := by
  have hshown : ((Model.build frameDocument).toOption.map fun model =>
      (model.layer? "FrameFramed", model.layer? "ShapeCircle")) =
      some (some (framedLayer, [⟨none, .reference "Shape"⟩]), some (circleLayer, [])) := by
    decide
  obtain ⟨model, hbuild, hshown⟩ := exists_of_toOption_map_eq_some hshown
  obtain ⟨houter, hinner⟩ := Prod.mk.inj hshown
  refine ⟨model, hbuild, Model.isStack_pair houter List.mem_cons_self hinner (by decide),
    by decide, fun hshares => ?_⟩
  obtain ⟨members, hmembers, htags⟩ := hshares.writes layered_frameShape
    (.nested framedLayer [] (.last circleLayer _)) encode_frameShape
  obtain rfl := Json.object.inj hmembers
  have hcircle := htags circleLayer (List.mem_cons_of_mem _ List.mem_cons_self)
  have hvalue : "framed" = "circle" := Json.string.inj (Option.some.inj hcircle)
  exact absurd hvalue (by decide)

end SchemaCompiler
