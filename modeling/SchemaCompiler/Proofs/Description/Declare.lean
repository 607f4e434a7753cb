import SchemaCompiler.Model.Build
import SchemaCompiler.Proofs.Description.Hierarchy

/-!
# Declarations without descriptions

A declaration takes over descriptions of definitions, properties, items and branches, and asks none
of them for anything else.  So a definition without descriptions declares the types of the
definition, without their descriptions (`Build.declare_undescribed`).
-/

namespace SchemaCompiler

open Fallible

/-! ## Types without descriptions -/

def Field.undescribed (field : Field) : Field :=
  { field with description := none }

def EnumMember.undescribed (member : EnumMember) : EnumMember :=
  { member with description := none }

def CatchAll.undescribed (catchAll : CatchAll) : CatchAll :=
  { catchAll with description := none }

def TypeBody.undescribed : TypeBody → TypeBody
  | .enumeration form members catchAll =>
    .enumeration form (members.map EnumMember.undescribed) (catchAll.map CatchAll.undescribed)
  | .variant base value fields => .variant base value (fields.map Field.undescribed)
  | .record fields => .record (fields.map Field.undescribed)
  | other => other

def TypeDecl.undescribed (type : TypeDecl) : TypeDecl :=
  { type with
    description := none
    body := type.body.undescribed }

def Members.undescribed (members : Members) : Members where
  items := members.items.map EnumMember.undescribed
  catchAll := members.catchAll.map CatchAll.undescribed

namespace Build

variable (document : Document) (origin typeName : String)

theorem map_fst_undescribed {α : Type} (undescribed : α → α) (results : List (α × List Notice)) :
    (results.map (Prod.map undescribed id)).map (·.1) = (results.map (·.1)).map undescribed := by
  rw [List.map_map, List.map_map]
  rfl

/-! ## Fields -/

theorem known_undescribed : known document.undescribed = known document := by
  funext descriptor
  induction descriptor with
  | scalar => rfl
  | reference name => rw [known, known, document.get?_undescribed, Option.isSome_map]
  | array items ih => rw [known, known, ih]
  | nullable inner ih => rw [known, known, ih]
  | dynamic => rfl

theorem isUnresolvedUnion_undescribed (schema : Json) (descriptor : Descriptor) :
    schema.undescribed.object?.any (Node.isUnresolvedUnion · descriptor) =
      schema.object?.any (Node.isUnresolvedUnion · descriptor) := by
  rw [Json.object?_undescribed, Option.any_map]
  refine congrArg (Option.any · schema.object?) (funext fun node => ?_)
  rw [Node.isUnresolvedUnion, Node.contains_undescribed node (by decide),
    Node.contains_undescribed node (by decide), Node.primaryType?_undescribed,
    Node.isUnresolvedUnion]

theorem fieldOf_undescribed (wireName : String) (property : Property) :
    fieldOf document.undescribed origin typeName wireName property.undescribed =
      Prod.map Field.undescribed id (fieldOf document origin typeName wireName property) := by
  have hdefault : property.schema.undescribed.get? "default" = property.schema.get? "default" :=
    property.schema.get?_undescribed_eq (by decide)
  simp only [fieldOf, Property.undescribed, Resolve.ofJson_undescribed, known_undescribed,
    isUnresolvedUnion_undescribed, hdefault, Json.description_undescribed]
  rfl

theorem distinguish_undescribed (used : List String) (field : Field) :
    distinguish origin used field.undescribed =
      Prod.map Field.undescribed id (distinguish origin used field) := by
  unfold distinguish
  show (if used.contains (writtenIdentifier field.member) then _ else _) = _
  split <;> rfl

theorem fieldsFrom_undescribed (set : PropertySet) (used : List String) :
    fieldsFrom document.undescribed origin typeName used set.undescribed =
      Prod.map (·.map Field.undescribed) id (fieldsFrom document origin typeName used set) := by
  induction set generalizing used with
  | nil => rfl
  | cons head rest ih =>
      obtain ⟨wireName, property⟩ := head
      have hcons : PropertySet.undescribed ((wireName, property) :: rest) =
          (wireName, property.undescribed) :: PropertySet.undescribed rest := rfl
      simp only [hcons, fieldsFrom, fieldOf_undescribed, Prod.map_fst, Prod.map_snd,
        distinguish_undescribed, ih]
      rfl

theorem fields_undescribed (set : PropertySet) :
    fields document.undescribed origin typeName set.undescribed =
      Prod.map (·.map Field.undescribed) id (fields document origin typeName set) := by
  rw [fields, PropertySet.sorted_undescribed, fieldsFrom_undescribed, fields]

theorem branchFields_undescribed (node base : Option Node) (property : String) :
    branchFields document.undescribed origin typeName (node.map Node.undescribed)
        (base.map Node.undescribed) property =
      Prod.map (·.map Field.undescribed) id
        (branchFields document origin typeName node base property) := by
  have hshared : ((base.map Node.undescribed).map PropertySet.ofNode).getD [] =
      PropertySet.undescribed ((base.map PropertySet.ofNode).getD []) := by
    cases base with
    | none => rfl
    | some base => exact PropertySet.ofNode_undescribed base
  have hown : ((node.map Node.undescribed).map PropertySet.ofRecord).getD [] =
      PropertySet.undescribed ((node.map PropertySet.ofRecord).getD []) := by
    cases node with
    | none => rfl
    | some node => exact PropertySet.ofRecord_undescribed node
  rw [branchFields, hshared, hown, PropertySet.overlay_undescribed, PropertySet.erase_undescribed,
    fields_undescribed, branchFields]

theorem embedded_undescribed (target : String) (others : List Field) :
    embedded origin target (others.map Field.undescribed) =
      Prod.map Field.undescribed id (embedded origin target others) := by
  have hidentifiers : (others.map Field.undescribed).map (·.identifier) =
      others.map (·.identifier) := by
    rw [List.map_map]
    rfl
  rw [embedded, hidentifiers, embedded]
  rfl

/-! ## Enumerations -/

theorem names_undescribed (members : Members) : members.undescribed.names = members.names := by
  obtain ⟨items, catchAll⟩ := members
  rw [Members.names, Members.undescribed, List.map_map, Option.map_map, Members.names]
  rfl

theorem uniqueName_undescribed (members : Members) (definition base : String) :
    members.undescribed.uniqueName definition base = members.uniqueName definition base := by
  rw [Members.uniqueName, names_undescribed, Members.uniqueName]

theorem push_undescribed (members : Members) (definition name value : String)
    (description : Option String) :
    members.undescribed.push definition name value none =
      Prod.map Members.undescribed id (members.push definition name value description) := by
  have hlisted : members.undescribed.items.any (·.value = value) =
      members.items.any (·.value = value) := by
    rw [Members.undescribed, List.any_map]
    rfl
  rw [Members.push, hlisted, uniqueName_undescribed, Members.push]
  split
  · rfl
  · have hitems (name : String) :
        (members.items ++ [EnumMember.mk name value description]).map EnumMember.undescribed =
          members.items.map EnumMember.undescribed ++ [EnumMember.mk name value none] :=
      List.map_append
    rw [Prod.map, Members.undescribed, Members.undescribed, hitems]
    rfl

theorem openWith_undescribed (members : Members) (definition name : String)
    (description : Option String) :
    members.undescribed.openWith definition name none =
      Prod.map Members.undescribed id (members.openWith definition name description) := by
  have hopen : members.undescribed.catchAll.isSome = members.catchAll.isSome :=
    Option.isSome_map
  rw [Members.openWith, hopen, uniqueName_undescribed, Members.openWith]
  split <;> rfl

theorem toBody_undescribed (members : Members) (form : EnumForm) :
    members.undescribed.toBody form = (members.toBody form).undescribed := by
  obtain ⟨items, catchAll⟩ := members
  cases form with
  | string => rfl
  | integer width => cases items <;> rfl

/-- A body is made of members at the end of a run over values or items. -/
theorem bind_toBody_undescribed (form : EnumForm)
    {run run' : Except SchemaError (Members × List Notice)}
    (h : run' = run.map (Prod.map Members.undescribed id)) :
    (run'.bind fun (members, notices) => .ok (members.toBody form, notices)) =
      (run.bind fun (members, notices) => .ok (members.toBody form, notices)).map
        (Prod.map TypeBody.undescribed id) := by
  rw [h, bind_map_eq, map_bind_eq]
  simp only [Prod.map_fst, Prod.map_snd, toBody_undescribed]
  rfl

theorem membersOfValues_undescribed (definition : String) (form : EnumForm) (members : Members)
    (values : List Json) :
    membersOfValues definition form members.undescribed values =
      (membersOfValues definition form members values).map (Prod.map Members.undescribed id) := by
  induction values generalizing members with
  | nil => rfl
  | cons value rest ih =>
      rw [membersOfValues, membersOfValues]
      cases memberValue definition form value with
      | error error => rfl
      | ok wire =>
          simp only [bind, Except.bind, push_undescribed members _ _ _ none, Prod.map_fst,
            Prod.map_snd, ih]
          cases membersOfValues definition form (members.push definition _ wire none).1 rest <;> rfl

/-- Values have no descriptions to lose. -/
theorem enumOfValues_undescribed (definition : Definition) (values : Json) :
    enumOfValues definition.undescribed values =
      (enumOfValues definition values).map (Prod.map TypeBody.undescribed id) := by
  cases values with
  | array values =>
      rw [enumOfValues, definition.node_undescribed, definition.node.primaryType?_undescribed,
        definition.node.width_undescribed]
      exact bind_toBody_undescribed _ (membersOfValues_undescribed definition.name _ .empty _)
  | _ => rfl

theorem pushItem_undescribed (definition : String) (form : EnumForm) (members : Members)
    (item : Node) :
    pushItem definition form members.undescribed item.undescribed =
      (pushItem definition form members item).map (Prod.map Members.undescribed id) := by
  rw [pushItem, item.get?_undescribed_eq (by decide), item.string?_undescribed (by decide),
    item.description?_undescribed, pushItem]
  cases itemName? ((item.string? "title").filter (!·.isEmpty)) (Entries.get? item "const") with
  | none => rfl
  | some name =>
      cases Entries.get? item "const" with
      | some value =>
          simp only
          cases memberValue definition form value with
          | error error => rfl
          | ok wire => exact congrArg Except.ok (push_undescribed members definition name wire _)
      | none =>
          cases form with
          | integer width =>
              exact congrArg Except.ok (openWith_undescribed members definition name _)
          | string =>
              cases (item.string? "title").filter (!·.isEmpty) with
              | none => rfl
              | some title => 
                  exact congrArg Except.ok (push_undescribed members definition name title _)

theorem membersOfItems_undescribed (definition : String) (form : EnumForm) (members : Members)
    (items : List Node) :
    membersOfItems definition form members.undescribed (items.map Node.undescribed) =
      (membersOfItems definition form members items).map (Prod.map Members.undescribed id) := by
  induction items generalizing members with
  | nil => rfl
  | cons item rest ih =>
      rw [List.map_cons, membersOfItems, membersOfItems, pushItem_undescribed]
      cases pushItem definition form members item with
      | error error => rfl
      | ok pushed =>
          show ((membersOfItems definition form pushed.1.undescribed _).bind fun _ => _) =
            ((membersOfItems definition form pushed.1 rest).bind fun _ => _).map _
          rw [ih, bind_map_eq, map_bind_eq]
          rfl

theorem enumOfItems_undescribed (definition : String) (items : List Json) (form : EnumForm) :
    enumOfItems definition (items.map Json.undescribed) form =
      (enumOfItems definition items form).map (Prod.map TypeBody.undescribed id) := by
  rw [enumOfItems, Node.objectItems_undescribed]
  exact bind_toBody_undescribed form (membersOfItems_undescribed definition form .empty _)

/-! ## Forms of definitions -/

theorem isPlainAlias_undescribed (node : Node) :
    isPlainAlias node.undescribed = isPlainAlias node := by
  have hstructure (isPassed : String → Bool) :
      structuralKeywords.any (fun keyword =>
        isPassed keyword && Entries.contains node.undescribed keyword) =
      structuralKeywords.any fun keyword => isPassed keyword && Entries.contains node keyword := by
    rw [← List.any_filter, ← List.any_filter]
    exact node.any_contains_undescribed (mt List.mem_of_mem_filter (by decide))
  rw [isPlainAlias, node.get?_undescribed_eq (by decide), node.primaryType?_undescribed,
    isPlainAlias]
  simp only [hstructure]

theorem mapM_object?_undescribed (items : List Json) :
    (items.map Json.undescribed).mapM Json.object? =
      (items.mapM Json.object?).map (·.map Node.undescribed) := by
  induction items with
  | nil => rfl
  | cons item rest ih =>
      rw [List.map_cons, List.mapM_cons, List.mapM_cons, ih, Json.object?_undescribed]
      cases item.object? with
      | none => rfl
      | some node => cases rest.mapM Json.object? <;> rfl

theorem enumFormOf?_undescribed (items : List Json) :
    enumFormOf? (items.map Json.undescribed) = enumFormOf? items := by
  have hall (nodes : List Node) (type : Option String) :
      (nodes.map Node.undescribed).all (fun node => node.primaryType? = type &&
        (Entries.contains node "const" || Entries.contains node "title")) =
      nodes.all fun node => node.primaryType? = type &&
        (Entries.contains node "const" || Entries.contains node "title") := by
    rw [List.all_map]
    refine congrArg nodes.all (funext fun node => ?_)
    rw [Function.comp_apply, node.primaryType?_undescribed, node.contains_undescribed (by decide),
      node.contains_undescribed (by decide)]
  rw [enumFormOf?, mapM_object?_undescribed, enumFormOf?]
  cases items.mapM Json.object? with
  | none => rfl
  | some nodes =>
      simp only [Option.map_some, Option.bind_eq_bind, Option.bind_some, List.head?_map, hall,
        Option.bind_map, Function.comp_def, Node.primaryType?_undescribed, Node.width_undescribed]

theorem contribution_undescribed (item : Node) :
    contribution item.undescribed = contribution item := by
  have hkind (typeName : String) :
      alternativeKind? typeName item.undescribed = alternativeKind? typeName item := by
    simp only [alternativeKind?, item.width_undescribed]
  rw [contribution, item.get?_undescribed_eq (by decide), contribution]
  simp only [hkind]

theorem unionOf?_undescribed (items : List Json) :
    unionOf? (items.map Json.undescribed) = unionOf? items := by
  have hproperties (nodes : List Node) :
      (nodes.map Node.undescribed).any (Entries.contains · "properties") =
        nodes.any (Entries.contains · "properties") := by
    rw [List.any_map]
    exact congrArg nodes.any (funext fun node => node.contains_undescribed (by decide))
  have hcontributions (nodes : List Node) :
      (nodes.map Node.undescribed).map contribution = nodes.map contribution := by
    rw [List.map_map]
    exact List.map_congr_left fun node _ => contribution_undescribed node
  simp only [unionOf?, Node.objectItems_undescribed, hproperties, hcontributions]

theorem haveProperties_undescribed (items : List Json) :
    haveProperties (items.map Json.undescribed) = haveProperties items := by
  have hproperties (item : Json) :
      (item.undescribed.get? "properties").isSome = (item.get? "properties").isSome := by
    cases item with
    | object node => exact Node.contains_undescribed node (by decide)
    | _ => rfl
  rw [haveProperties, List.any_map, haveProperties]
  exact congrArg items.any (funext hproperties)

/-! ## Declarations -/

def Source.undescribed (source : Source) : Source where
  document := source.document.undescribed
  hierarchy := source.hierarchy.undescribed

theorem node_undescribed (name : String) :
    (document.undescribed.get? name).map (·.node) =
      ((document.get? name).map (·.node)).map Node.undescribed := by
  rw [document.get?_undescribed, Option.map_map, Option.map_map]
  rfl

/-- The wrapper of a branch, once the fields read from properties are known. -/
def wrapping (definition : Definition) (base : Base) (branch : Branch)
    (own : List Field × List Notice) : TypeDecl × List Notice :=
  let origin := definition.name ++ "[" ++ branch.value ++ "]"
  let (fields, conflicts) :=
    match branch.source with
    | .nested target =>
      let (field, conflicts) := embedded origin target own.1
      (own.1 ++ [field], conflicts)
    | _ => (own.1, [])
  (⟨definition.name, origin, branch.typeName, branch.description,
    .variant base.typeName branch.value fields⟩, own.2 ++ conflicts)

theorem wrapping_undescribed (definition : Definition) (base : Base) (branch : Branch)
    (own : List Field × List Notice) :
    wrapping definition.undescribed base.undescribed branch.undescribed
        (Prod.map (·.map Field.undescribed) id own) =
      Prod.map TypeDecl.undescribed id (wrapping definition base branch own) := by
  obtain ⟨value, caseName, typeName, refName, source, description⟩ := branch
  cases source with
  | nested target =>
      have hembedded := embedded_undescribed (definition.name ++ "[" ++ value ++ "]") target own.1
      have happend (field : Field) : own.1.map Field.undescribed ++ [field.undescribed] =
          (own.1 ++ [field]).map Field.undescribed := by
        rw [List.map_append, List.map_singleton]
      simp only [wrapping, Branch.undescribed, BranchSource.undescribed, Definition.undescribed,
        Prod.map_fst, hembedded, happend]
      rfl
  | promoted name => rfl
  | wrapped name => rfl
  | inline item => rfl

theorem wrapper_undescribed (definition : Definition) (base : Base) (branch : Branch) :
    wrapper document.undescribed definition.undescribed base.undescribed branch.undescribed =
      Prod.map TypeDecl.undescribed id (wrapper document definition base branch) := by
  have hwrapper (node : Option Node) :
      wrapping definition.undescribed base.undescribed branch.undescribed
          (branchFields document.undescribed (definition.name ++ "[" ++ branch.value ++ "]")
            branch.typeName (node.map Node.undescribed)
            ((some definition.node).map Node.undescribed) base.property) =
        Prod.map TypeDecl.undescribed id (wrapping definition base branch
          (branchFields document (definition.name ++ "[" ++ branch.value ++ "]") branch.typeName
            node (some definition.node) base.property)) := by
    rw [branchFields_undescribed, wrapping_undescribed]
  obtain ⟨value, caseName, typeName, refName, source, description⟩ := branch
  cases source with
  | promoted name => exact hwrapper none
  | wrapped name =>
      have hnode := hwrapper ((document.get? name).map (·.node))
      rw [← node_undescribed] at hnode
      exact hnode
  | nested target => exact hwrapper none
  | inline item => exact hwrapper (some item)

theorem tagged_undescribed (definition : Definition) (base : Base) :
    tagged document.undescribed definition.undescribed base.undescribed =
      Prod.map (·.map TypeDecl.undescribed) id (tagged document definition base) := by
  have hcases : base.undescribed.branches.map (fun branch =>
      TaggedCase.mk branch.value branch.caseName branch.typeName) =
      base.branches.map fun branch =>
        TaggedCase.mk branch.value branch.caseName branch.typeName := by
    rw [Base.undescribed, List.map_map]
    rfl
  have hpromoted (branch : Branch) : branch.undescribed.isPromoted = branch.isPromoted := by
    rw [Branch.isPromoted, Branch.undescribed, Branch.isPromoted]
    cases branch.source <;> rfl
  have hwrappers : (base.undescribed.branches.filter (!·.isPromoted)).map
      (wrapper document.undescribed definition.undescribed base.undescribed) =
      ((base.branches.filter (!·.isPromoted)).map (wrapper document definition base)).map
        (Prod.map TypeDecl.undescribed id) := by
    have hfilter : base.undescribed.branches.filter (!·.isPromoted) =
        (base.branches.filter (!·.isPromoted)).map Branch.undescribed := by
      rw [Base.undescribed, List.filter_map]
      simp only [Function.comp_def, hpromoted]
    rw [hfilter, List.map_map, List.map_map]
    exact List.map_congr_left fun branch _ => wrapper_undescribed document definition base branch
  rw [tagged, hcases, hwrappers, definition.description?_undescribed, tagged]
  simp only [map_fst_undescribed, List.flatMap_map]
  rfl

theorem promoted_undescribed (definition : Definition) (derived : Derived) :
    promoted document.undescribed definition.undescribed derived =
      Prod.map TypeBody.undescribed id (promoted document definition derived) := by
  have hbase : (document.undescribed.get? derived.base).map (·.node) =
      ((document.get? derived.base).map (·.node)).map Node.undescribed := by
    rw [document.get?_undescribed, Option.map_map, Option.map_map]
    rfl
  have hfields := branchFields_undescribed document definition.name
    (Naming.typeName definition.name) (some definition.node)
    ((document.get? derived.base).map (·.node)) derived.property
  simp only [promoted, hbase]
  exact congrArg (fun result : List Field × List Notice =>
    (TypeBody.variant (Naming.typeName derived.base) derived.value result.1, result.2)) hfields

theorem untagged_undescribed (base : AbstractBase) :
    untagged document.undescribed base = (untagged document base).undescribed := by
  simp only [untagged, document.get?_undescribed, Option.isSome_map]
  split <;> rfl

theorem structural_undescribed (definition : Definition) :
    structural document.undescribed definition.undescribed =
      (structural document definition).map (Prod.map TypeBody.undescribed id) := by
  have hfields := fields_undescribed document definition.name (Naming.typeName definition.name)
    (PropertySet.ofRecord definition.node)
  rw [structural, definition.node_undescribed, definition.name_undescribed,
    PropertySet.branches?_undescribed, PropertySet.ofRecord_undescribed, hfields, structural]
  cases PropertySet.branches? definition.node with
  | none =>
      have hproperties : Entries.contains definition.node.undescribed "properties" =
          Entries.contains definition.node "properties" :=
        definition.node.contains_undescribed (by decide)
      simp only [Option.map_none, hproperties, known_undescribed, Node.descriptor_undescribed]
      split <;> rfl
  | some items =>
      simp only [Option.map_some, enumFormOf?_undescribed, unionOf?_undescribed,
        haveProperties_undescribed, enumOfItems_undescribed]
      cases enumFormOf? items with
      | some form => rfl
      | none =>
          cases unionOf? items with
          | some union => rfl
          | none =>
              simp only
              split <;> rfl

/-- **A definition without descriptions declares the types of the definition, without their
descriptions.** -/
theorem declare_undescribed (source : Source) (definition : Definition) :
    declare source.undescribed definition.undescribed =
      (declare source definition).map (Prod.map (·.map TypeDecl.undescribed) id) := by
  obtain ⟨document, hierarchy⟩ := source
  have henum : Entries.get? definition.node.undescribed "enum" =
      Entries.get? definition.node "enum" :=
    definition.node.get?_undescribed_eq (by decide)
  have hsingle (result : Except SchemaError (TypeBody × List Notice)) :
      (result.map (Prod.map TypeBody.undescribed id)).map (fun (body, notices) =>
        ([TypeDecl.ofDefinition definition.name none body], notices)) =
      (result.map fun (body, notices) =>
        ([TypeDecl.ofDefinition definition.name definition.description? body], notices)).map
        (Prod.map (·.map TypeDecl.undescribed) id) := by
    cases result <;> rfl
  simp only [declare, Source.undescribed, Definition.name_undescribed,
    Definition.node_undescribed, Definition.description?_undescribed,
    Hierarchy.derived?_undescribed, isPlainAlias_undescribed, henum, Hierarchy.base?_undescribed,
    Hierarchy.abstractBase?_undescribed, promoted_undescribed, known_undescribed,
    Node.descriptor_undescribed, enumOfValues_undescribed, untagged_undescribed,
    structural_undescribed]
  -- the same form fits both definitions
  cases hierarchy.derived? definition.name with
  | some derived => rfl
  | none =>
      simp only
      split
      · rfl
      · cases Entries.get? definition.node "enum" with
        | some values => exact hsingle (enumOfValues definition values)
        | none =>
            cases hierarchy.base? definition.name with
            | some base => exact congrArg Except.ok (tagged_undescribed document definition base)
            | none =>
                cases hierarchy.abstractBase? definition.name with
                | some base => rfl
                | none => exact hsingle (structural document definition)

end Build

end SchemaCompiler
