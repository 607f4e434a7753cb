import SchemaCompiler.Containment
import SchemaCompiler.Hierarchy
import SchemaCompiler.Model.Members
import SchemaCompiler.Model.PropertySet
import SchemaCompiler.Naming.Claims
import SchemaCompiler.Resolve

/-!
# Building the model

One declaration for each definition that is an object, and one more for each wrapper of a branch.
The first form that fits a definition decides: promoted branch, plain alias, enumeration, tagged
type, untagged type, branches that make an enumeration or a union, and at last a record.
-/

namespace SchemaCompiler

namespace Build

open Wire (AlternativeKind)

/-- Whether a value is a literal of a type. -/
def literalFits : Descriptor → Json → Bool
  | .scalar .string, .string _ => true
  | .scalar .boolean, .bool _ => true
  | .scalar .number, .number _ => true
  | .scalar (.integer width), .number number => width.accepts number
  | .array items, .array values => values.all (literalFits items ·)
  | .nullable _, .null => true
  | .nullable inner, value => literalFits inner value
  | .dynamic, _ => true
  | _, _ => false

/-- A reference to a definition without a shape is a dynamic value. -/
def known (document : Document) : Descriptor → Descriptor
  | .reference name => if (document.get? name).isSome then .reference name else .dynamic
  | .array items => .array (known document items)
  | .nullable inner => (known document inner).optional
  | other => other

/-! ## Fields -/

/-- What a field is when it is missing, and a default that cannot be kept. -/
def presenceOf (descriptor : Descriptor) (required : Bool) (default : Option Json) :
    FieldPresence × Option Json :=
  if required then (.required, none)
  else
    match default with
    | none => (.optional, none)
    | some value =>
      if literalFits descriptor value then (.defaulted value, none) else (.optional, some value)

def fieldOf (document : Document) (origin typeName wireName : String) (property : Property) :
    Field × List Notice :=
  let schema := property.schema
  let descriptor := known document (Resolve.ofJson schema)
  let isUnion := schema.object?.any (Node.isUnresolvedUnion · descriptor)
  let (presence, unsupported) := presenceOf descriptor property.required (schema.get? "default")
  let name := Naming.memberName typeName wireName
  let field : Field :=
    { wireName
      member := name.identifier
      renamed := name.renamed
      descriptor
      presence
      boxed := false
      description := (schema.get? "description").bind Json.string?
      unsupportedDefault := unsupported }
  (field,
    (if isUnion then [.dynamicUnion origin wireName] else []) ++
      unsupported.toList.map (Notice.unsupportedDefault origin wireName))

/-- The identifier a member name is written as. -/
def writtenIdentifier (member : String) : String :=
  Naming.escape (Naming.snakeCase member)

/-- A field whose identifier is in use gets a number behind its name. -/
def distinguish (origin : String) (used : List String) (field : Field) : Field × List Notice :=
  if used.contains (writtenIdentifier field.member) then
    let renamed : Field :=
      { field with member := Naming.freshBy writtenIdentifier used field.member, renamed := true }
    (renamed, [.fieldConflict origin field.wireName renamed.identifier])
  else (field, [])

def fieldsFrom (document : Document) (origin typeName : String) (used : List String) :
    PropertySet → List Field × List Notice
  | [] => ([], [])
  | (wireName, property) :: rest =>
    let (field, notices) := fieldOf document origin typeName wireName property
    let (field, conflicts) := distinguish origin used field
    let (fields, more) :=
      fieldsFrom document origin typeName (writtenIdentifier field.member :: used) rest
    (field :: fields, notices ++ conflicts ++ more)

/-- The fields of a type in the order of their wire names. -/
def fields (document : Document) (origin typeName : String) (set : PropertySet) :
    List Field × List Notice :=
  fieldsFrom document origin typeName [] set.sorted

/-- The fields of a branch: the properties of its base, overlaid by its own, without the tag. -/
def branchFields (document : Document) (origin typeName : String) (node base : Option Node)
    (property : String) : List Field × List Notice :=
  let shared := (base.map PropertySet.ofNode).getD []
  let own := (node.map PropertySet.ofRecord).getD []
  fields document origin typeName (Entries.erase (shared.overlay own) property)

/-- The field of a wrapper that holds a nested sum type whole. -/
def embedded (origin target : String) (others : List Field) : Field × List Notice :=
  let base := Naming.typeName target
  let member := Naming.freshBy Naming.snakeCase (others.map (·.identifier)) base
  let field : Field :=
    { wireName := target
      member
      renamed := false
      descriptor := .reference target
      presence := .flattened
      boxed := false
      description := none
      unsupportedDefault := none }
  (field,
    if member = base then [] else [.fieldConflict origin target (Naming.snakeCase member)])

/-! ## Enumerations -/

/-- The text of a member's value. -/
def memberValue (definition : String) (form : EnumForm) (value : Json) :
    Except SchemaError String :=
  match form, value with
  | .string, value => .ok (Wire.literalText value)
  | .integer width, value =>
    let refused : Except SchemaError String :=
      .error (.invalidSchema
        (definition ++ ": enum value " ++ value.text ++ " does not fit " ++ width.tag))
    match value with
    | .number number => if width.accepts number then .ok value.text else refused
    | _ => refused

def membersOfValues (definition : String) (form : EnumForm) (members : Members) :
    List Json → Except SchemaError (Members × List Notice)
  | [] => .ok (members, [])
  | value :: rest => do
    let wire ← memberValue definition form value
    let name := Naming.caseName (Wire.literalText value)
    let (members, notices) := members.push definition name wire none
    let (members, more) ← membersOfValues definition form members rest
    pure (members, notices ++ more)

/-- The members of an `enum`, null left out. -/
def enumOfValues (definition : Definition) (values : Json) :
    Except SchemaError (TypeBody × List Notice) :=
  match values with
  | .array values => do
    let form :=
      if definition.node.primaryType? = some "integer" then
        EnumForm.integer definition.node.width
      else .string
    let listed := values.filter fun value => !value.kind = .null
    let (members, notices) ← membersOfValues definition.name form Members.empty listed
    pure (members.toBody form, notices)
  | _ => .error (.invalidSchema (definition.name ++ ": enum is not an array"))

/-- The name that an item gives its member: its title, or else its constant. -/
def itemName? (title : Option String) (constant : Option Json) : Option String :=
  match title, constant.map Wire.literalText with
  | some title, _ => some (Naming.caseName title)
  | none, some text => if text.isEmpty then none else some (Naming.caseName text)
  | none, none => none

/-- Adds the member of one item, if it has a name.  An integer item without a constant stands for
every value that is not listed. -/
def pushItem (definition : String) (form : EnumForm) (members : Members) (item : Node) :
    Except SchemaError (Members × List Notice) :=
  let constant := Entries.get? item "const"
  let title := (item.string? "title").filter (!·.isEmpty)
  let description := item.description?
  match itemName? title constant with
  | none => .ok (members, [])
  | some name =>
    match constant with
    | some value => do
      let wire ← memberValue definition form value
      pure (members.push definition name wire description)
    | none =>
      match form with
      | .integer _ => .ok (members.openWith definition name description)
      | .string =>
        match title with
        | some title => .ok (members.push definition name title description)
        | none => .ok (members, [])

def membersOfItems (definition : String) (form : EnumForm) (members : Members) :
    List Node → Except SchemaError (Members × List Notice)
  | [] => .ok (members, [])
  | item :: rest => do
    let (members, notices) ← pushItem definition form members item
    let (members, more) ← membersOfItems definition form members rest
    pure (members, notices ++ more)

def enumOfItems (definition : String) (items : List Json) (form : EnumForm) :
    Except SchemaError (TypeBody × List Notice) := do
  let (members, notices) ←
    membersOfItems definition form Members.empty (Node.objectItems items)
  pure (members.toBody form, notices)

/-! ## Forms of definitions -/

/-- The keywords that rule out a plain alias. -/
def structuralKeywords : List String :=
  ["properties", "allOf", "oneOf", "anyOf", "enum", "items", "additionalProperties", "required",
    "discriminator"]

/-- A type keyword without any structure; an array may say what its items are. -/
def isPlainAlias (node : Node) : Bool :=
  let hasType :=
    match Entries.get? node "type" with
    | some (.string _) | some (.array _) => true
    | _ => false
  let isArray := node.primaryType? = some "array"
  hasType &&
    !structuralKeywords.any fun keyword =>
      !(isArray && keyword = "items") && Entries.contains node keyword

/-- Branches that make an enumeration: objects of one string or integer type, each with a constant
or a title. -/
def enumFormOf? (items : List Json) : Option EnumForm := do
  let nodes : List Node ← items.mapM Json.object?
  let first : Node ← nodes.head?
  let type := first.primaryType?
  if nodes.all fun (node : Node) =>
      node.primaryType? = type &&
        (Entries.contains node "const" || Entries.contains node "title") then
    match type with
    | some "string" => some .string
    | some "integer" => some (.integer first.width)
    | _ => none
  else none

/-- The alternative that a JSON type name stands for. -/
def alternativeKind? (typeName : String) (item : Node) : Option AlternativeKind :=
  match typeName with
  | "string" => some .string
  | "integer" => some (.integer item.width)
  | "number" => some .float
  | "boolean" => some .boolean
  | "object" => some .object
  | "array" => some .array
  | _ => none

/-- What one branch contributes to a union: its alternative, and whether it admits null. -/
def contribution (item : Node) : Option AlternativeKind × Bool :=
  match Entries.get? item "type" with
  | some (.array types) =>
    let names := types.filterMap Json.string?
    ((names.find? (· ≠ "null")).bind (alternativeKind? · item), names.contains "null")
  | some (.string "null") => (none, true)
  | some (.string name) => (alternativeKind? name item, false)
  | _ => (none, false)

/-- Branches that make a union: at least two alternatives and no branch with properties. -/
def unionOf? (items : List Json) : Option (List AlternativeKind × Bool) :=
  let nodes := Node.objectItems items
  if nodes.any (Entries.contains · "properties") then none
  else
    let contributions := nodes.map contribution
    let kinds := contributions.filterMap (·.1)
    if kinds.length < 2 then none
    else some (kinds.eraseDups, contributions.any (·.2))

def haveProperties (items : List Json) : Bool :=
  items.any fun item => (item.get? "properties").isSome

/-! ## Declarations -/

structure Source where
  document : Document
  hierarchy : Hierarchy

abbrev Declared := Except SchemaError (List TypeDecl × List Notice)

/-- The wrapper of a branch that is not promoted. -/
def wrapper (document : Document) (definition : Definition) (base : Base) (branch : Branch) :
    TypeDecl × List Notice :=
  let origin := definition.name ++ "[" ++ branch.value ++ "]"
  let node :=
    match branch.source with
    | .wrapped name => (document.get? name).map (·.node)
    | .inline item => some item
    | _ => none
  let (own, notices) :=
    branchFields document origin branch.typeName node (some definition.node) base.property
  let (fields, conflicts) :=
    match branch.source with
    | .nested target =>
      let (field, conflicts) := embedded origin target own
      (own ++ [field], conflicts)
    | _ => (own, [])
  (⟨definition.name, origin, branch.typeName, branch.description,
    .variant base.typeName branch.value fields⟩, notices ++ conflicts)

/-- A tagged type, followed by the wrappers of its branches. -/
def tagged (document : Document) (definition : Definition) (base : Base) :
    List TypeDecl × List Notice :=
  let cases := base.branches.map fun branch =>
    TaggedCase.mk branch.value branch.caseName branch.typeName
  let wrappers := (base.branches.filter (!·.isPromoted)).map (wrapper document definition base)
  (TypeDecl.ofDefinition definition.name definition.description? (.tagged base.property cases) ::
    wrappers.map (·.1), wrappers.flatMap (·.2))

/-- A promoted definition, as the branch it became. -/
def promoted (document : Document) (definition : Definition) (derived : Derived) :
    TypeBody × List Notice :=
  let base := (document.get? derived.base).map (·.node)
  let (fields, notices) :=
    branchFields document definition.name (Naming.typeName definition.name)
      (some definition.node) base derived.property
  (.variant (Naming.typeName derived.base) derived.value fields, notices)

/-- An untagged type; without a child that has a shape, it is a dynamic value. -/
def untagged (document : Document) (base : AbstractBase) : TypeBody :=
  let children := base.children.filter fun child => (document.get? child).isSome
  if children.isEmpty then .aliasOf .dynamic
  else
    .untagged <| children.map fun child =>
      ⟨Naming.typeName child, Naming.typeName child⟩

/-- A definition of no other form, from its branches or its properties. -/
def structural (document : Document) (definition : Definition) :
    Except SchemaError (TypeBody × List Notice) :=
  let record : TypeBody × List Notice :=
    let (fields, notices) :=
      fields document definition.name (Naming.typeName definition.name)
        (PropertySet.ofRecord definition.node)
    (.record fields, notices)
  match PropertySet.branches? definition.node with
  | some items =>
    match enumFormOf? items with
    | some form => enumOfItems definition.name items form
    | none =>
      match unionOf? items with
      | some (alternatives, nullable) => .ok (.union alternatives nullable, [])
      | none =>
        if haveProperties items then .ok record
        else .ok (.aliasOf .dynamic, [.dynamicDefinition definition.name])
  | none =>
    if Entries.contains definition.node "properties" then .ok record
    else .ok (.aliasOf (known document definition.node.descriptor), [])

/-- The declarations of one definition. -/
def declare (source : Source) (definition : Definition) : Declared :=
  let document := source.document
  let node := definition.node
  let single (result : TypeBody × List Notice) : List TypeDecl × List Notice :=
    ([TypeDecl.ofDefinition definition.name definition.description? result.1], result.2)
  match source.hierarchy.derived? definition.name with
  | some derived => .ok (single (promoted document definition derived))
  | none =>
    if isPlainAlias node then .ok (single (.aliasOf (known document node.descriptor), []))
    else
      match Entries.get? node "enum" with
      | some values => (enumOfValues definition values).map single
      | none =>
        match source.hierarchy.base? definition.name with
        | some base => .ok (tagged document definition base)
        | none =>
          match source.hierarchy.abstractBase? definition.name with
          | some base => .ok (single (untagged document base, []))
          | none => (structural document definition).map single

/-- A notice for each name a definition refers to in vain, in the order of the names. -/
def unresolvedNotices (document : Document) (definition : Definition) : List Notice :=
  ((Tally.ofJson (.object definition.node)).unresolved document).map
    (Notice.unresolvedRef definition.name)

def declareAll (source : Source) : List Definition → Declared
  | [] => .ok ([], [])
  | definition :: rest => do
    let (types, notices) ← declare source definition
    let (moreTypes, moreNotices) ← declareAll source rest
    pure (types ++ moreTypes,
      unresolvedNotices source.document definition ++ notices ++ moreNotices)

/-! ## Names and cycles -/

def claimNames (types : List TypeDecl) : Except SchemaError Naming.Claims :=
  types.foldlM (fun claims type => claims.claim type.name type.origin) Naming.Claims.empty

/-- What a type holds in place. -/
def heldBy (type : TypeDecl) : Containment :=
  match type.body with
  | .record fields | .variant _ _ fields =>
    fields.filterMap fun field =>
      field.descriptor.inlineReference?.map fun target =>
        ⟨type.name, Naming.typeName target, some field.wireName⟩
  | .tagged _ cases => cases.map fun case => ⟨type.name, case.typeName, none⟩
  | .untagged cases => cases.map fun case => ⟨type.name, case.typeName, none⟩
  | .aliasOf target =>
    (target.inlineReference?.map fun name => ⟨type.name, Naming.typeName name, none⟩).toList
  | .enumeration _ _ _ | .union _ _ => []

def containment (types : List TypeDecl) : Containment :=
  types.flatMap heldBy

/-- Boxes one field if it needs it. -/
def boxField (edges : Containment) (type : TypeDecl) (field : Field) : Field × List Notice :=
  match field.descriptor.inlineReference? with
  | none => (field, [])
  | some target =>
    if edges.needsBox type.name field.wireName then
      ({ field with boxed := true },
        [.boxedRecursion type.origin field.wireName (Naming.typeName target)])
    else (field, [])

def boxFields (edges : Containment) (type : TypeDecl) : TypeDecl × List Notice :=
  let results := type.fields.map (boxField edges type)
  ({ type with body := type.body.withFields (results.map (·.1)) }, results.flatMap (·.2))

end Build

/-- The outcome of a compilation; the types are in the order in which they are emitted. -/
structure Model where
  types : List TypeDecl
  containment : Containment
  notices : List Notice
  checksum : Checksum
  revision : Option Revision

namespace Model

def type? (model : Model) (name : String) : Option TypeDecl :=
  model.types.find? (·.name = name)

/-- Compiles a document, or refuses it as a whole. -/
def build (document : Document) : Except SchemaError Model := do
  let (hierarchy, found) ← Hierarchy.analyze document
  let (types, declared) ← Build.declareAll ⟨document, hierarchy⟩ document.sorted
  let _ ← Build.claimNames types
  let containment := Build.containment types
  let boxed := types.map (Build.boxFields containment)
  pure
    { types := sortBy (fun a b => a.group.rank ≤ b.group.rank) (boxed.map (·.1))
      containment
      notices := found ++ declared ++ boxed.flatMap (·.2)
      checksum := document.checksum
      revision := document.revision }

end Model

end SchemaCompiler
