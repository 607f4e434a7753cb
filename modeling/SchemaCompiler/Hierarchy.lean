import SchemaCompiler.Naming.Fresh
import SchemaCompiler.Naming.Identifier
import SchemaCompiler.Notice
import SchemaCompiler.Reference
import SchemaCompiler.Wire.Discriminator

/-!
# Hierarchies

Which definitions are sum types, and what their branches are.

* An explicit base has a `discriminator` and a `oneOf`.
* An implicit base is an `anyOf` of references, each with a constant or a title.
* An abstract base is an `anyOf` of references without any constant.

A branch that refers to a plain record referred to nowhere else is promoted: the record itself is
the branch.  Any other branch gets a wrapper of its own, named after the base and the value, so
that a shared definition never belongs to two bases.
-/

namespace SchemaCompiler

inductive BaseForm where
  | explicit
  | implicit
deriving DecidableEq, Repr

/-- Where a branch takes its fields from. -/
inductive BranchSource where
  /-- The definition referred to is the branch. -/
  | promoted (definition : String)
  /-- A wrapper with the fields of a definition. -/
  | wrapped (definition : String)
  /-- A wrapper around another sum type. -/
  | nested (definition : String)
  /-- A wrapper with the fields of the branch itself. -/
  | inline (node : Node)

structure Branch where
  /-- The constant on the wire. -/
  value : String
  caseName : String
  typeName : String
  refName : Option String
  source : BranchSource
  description : Option String

namespace Branch

def isPromoted (branch : Branch) : Bool :=
  match branch.source with
  | .promoted _ => true
  | _ => false

end Branch

/-- A tagged sum type; its branches are in the order of their values. -/
structure Base where
  definition : String
  property : String
  form : BaseForm
  branches : List Branch

def Base.typeName (base : Base) : String :=
  Naming.typeName base.definition

/-- A definition that became a branch, with its base. -/
structure Derived where
  definition : String
  base : String
  property : String
  value : String

/-- A sum type without a tag. -/
structure AbstractBase where
  definition : String
  children : List String

def AbstractBase.typeName (base : AbstractBase) : String :=
  Naming.typeName base.definition

/-- Both lists of bases are in the order of their definitions. -/
structure Hierarchy where
  bases : List Base
  abstractBases : List AbstractBase

namespace Hierarchy

def base? (hierarchy : Hierarchy) (definition : String) : Option Base :=
  hierarchy.bases.find? (·.definition = definition)

def abstractBase? (hierarchy : Hierarchy) (definition : String) : Option AbstractBase :=
  hierarchy.abstractBases.find? (·.definition = definition)

/-- The abstract base that claims a definition. -/
def abstractParent? (hierarchy : Hierarchy) (child : String) : Option String :=
  (hierarchy.abstractBases.find? (·.children.contains child)).map (·.definition)

def derived (hierarchy : Hierarchy) : List Derived :=
  hierarchy.bases.flatMap fun base =>
    base.branches.filterMap fun branch =>
      match branch.source with
      | .promoted definition => some ⟨definition, base.definition, base.property, branch.value⟩
      | _ => none

def derived? (hierarchy : Hierarchy) (definition : String) : Option Derived :=
  hierarchy.derived.find? (·.definition = definition)

/-! ## Finding bases -/

/-- A branch with its value, before it is decided what holds it. -/
structure Candidate where
  refName : Option String
  value : String
  item : Node

/-- A definition that qualifies as a base. -/
structure Pending where
  definition : Definition
  property : String
  form : BaseForm
  candidates : List Candidate

/-- The constant that a node declares for a property. -/
def constantOf? (node : Node) (property : String) : Option Json := do
  let properties ← node.object? "properties"
  let declared ← Node.object? properties property
  Entries.get? declared "const"

/-- A branch of an explicit base, if it or the definition it refers to declares a constant. -/
def explicitCandidate? (document : Document) (property : String) (item : Node) :
    Option Candidate :=
  let refName := item.ref?
  let target := refName.bind document.get?
  let constant := (constantOf? item property).or (target.bind (constantOf? ·.node property))
  constant.map fun value => ⟨refName, Wire.literalText value, item⟩

def explicitBase? (document : Document) (definition : Definition) :
    Except SchemaError (Option Pending) :=
  match definition.node.object? "discriminator", definition.node.array? "oneOf" with
  | some discriminator, some items =>
    match (Node.string? discriminator "propertyName").filter (!·.isEmpty) with
    | none => .error (.missingPropertyName definition.name)
    | some property =>
      match (Node.objectItems items).filterMap (explicitCandidate? document property) with
      | [] => .error (.noConstantVariant definition.name property)
      | candidates => .ok (some ⟨definition, property, .explicit, candidates⟩)
  | _, _ => .ok none

/-- The first property of a node that declares a constant, with that constant. -/
def firstConstant? (node : Node) : Option (String × Json) := do
  let properties ← node.object? "properties"
  properties.findSome? fun (name, property) => (property.get? "const").map (name, ·)

/-- The property and value that an item of an `anyOf` suggests: those of its first constant, or
else its title under the property `type`. -/
def suggestion? (item : Node) : Option (String × String) :=
  match firstConstant? item with
  | some (name, value) => some (name, Wire.literalText value)
  | none =>
    match (item.string? "title").filter (!·.isEmpty) with
    | some title => some ("type", title)
    | none => none

/-- An `anyOf` is an implicit base if at least two of its items suggest a value and no value comes
twice.  The first suggestion decides the property. -/
def implicitBase? (definition : Definition) : Option Pending × List Notice :=
  let node := definition.node
  if Entries.contains node "discriminator" || Entries.contains node "oneOf" then (none, [])
  else
    let items := Node.objectItems ((node.array? "anyOf").getD [])
    if !items.any (·.allOfRef?.isSome) then (none, [])
    else
      let suggested := items.filterMap fun item => (suggestion? item).map (item, ·)
      let candidates := suggested.filterMap fun (item, _, value) =>
        if value.isEmpty then none else some (Candidate.mk item.allOfRef? value item)
      let values := candidates.map (·.value)
      match suggested, candidates with
      | (_, property, _) :: _, _ :: _ :: _ =>
        if values.eraseDups.length = values.length then
          (some ⟨definition, property, .implicit, candidates⟩, [])
        else (none, [])
      | _, [_] => (none, [.undiscriminatedUnion definition.name 1])
      | _, _ => (none, [])

/-! ## Abstract bases -/

def hasConstant (item : Node) : Bool :=
  (firstConstant? item).isSome

/-- The distinct definitions that an `anyOf` refers to, if every item is such a reference and
declares no constant. -/
def abstractChildren? (definition : Definition) : Option (List String) := do
  if Entries.contains definition.node "discriminator" then none
  let items := Node.objectItems (← definition.node.array? "anyOf")
  let children ← items.mapM fun item => if hasConstant item then none else item.allOfRef?
  if children.isEmpty then none else some children.eraseDups

/-- Adds an abstract base, whose children must not belong to another one. -/
def claimChildren (claimed : List AbstractBase) (base : AbstractBase) :
    Except SchemaError (List AbstractBase) :=
  let conflict := base.children.findSome? fun child =>
    (claimed.find? (·.children.contains child)).map fun owner => (child, owner.definition)
  match conflict with
  | some (child, first) => .error (.ambiguousOwner child first base.definition)
  | none => .ok (claimed ++ [base])

def abstractBasesOf (definitions : List Definition) : Except SchemaError (List AbstractBase) :=
  let bases := definitions.filterMap fun definition =>
    (abstractChildren? definition).map (AbstractBase.mk definition.name)
  bases.foldlM claimChildren []

/-! ## Branches -/

/-- A record with properties of its own and no other form. -/
def isPlainRecord (node : Node) : Bool :=
  (Entries.contains node "properties" || node.string? "type" = some "object") &&
    !(["oneOf", "anyOf", "enum", "const", "discriminator"].any (Entries.contains node))

/-- What the branches of all bases are decided from. -/
structure Scope where
  document : Document
  tally : Tally
  /-- The definitions that are sum types. -/
  sums : List String

def isPromotable (scope : Scope) (pending : Pending) (name : String) : Bool :=
  (scope.document.get? name).any (isPlainRecord ·.node) && scope.tally.count name = 1 &&
    pending.candidates.countP (·.refName = some name) = 1

/-- The wrapper of a branch that is not promoted. -/
def wrapperSource (scope : Scope) (candidate : Candidate) : BranchSource :=
  match candidate.refName.bind scope.document.get? with
  | some target =>
    if scope.sums.contains target.name then .nested target.name else .wrapped target.name
  | none => .inline candidate.item

def branchOf (scope : Scope) (pending : Pending) (candidate : Candidate) : Branch :=
  let target := candidate.refName.bind scope.document.get?
  let targetDescription := target.bind (·.description?)
  match candidate.refName.filter (isPromotable scope pending) with
  | some name =>
    { value := candidate.value
      caseName := ""
      typeName := Naming.typeName name
      refName := some name
      source := .promoted name
      description := targetDescription }
  | none =>
    { value := candidate.value
      caseName := ""
      typeName := Naming.typeName pending.definition.name ++ Naming.member candidate.value
      refName := candidate.refName
      source := wrapperSource scope candidate
      description := candidate.item.description?.or targetDescription }

/-- Names the cases after their values, with numbers behind names that come again. -/
def nameCases (used : List String) : List Branch → List Branch
  | [] => []
  | branch :: rest =>
    let caseName := Naming.fresh used (Naming.caseName branch.value)
    { branch with caseName } :: nameCases (caseName :: used) rest

/-- The first value that comes a second time. -/
def repeated? (seen : List String) : List String → Option String
  | [] => none
  | value :: rest =>
    if seen.contains value then some value else repeated? (value :: seen) rest

def baseOf (scope : Scope) (pending : Pending) : Except SchemaError Base :=
  match repeated? [] (pending.candidates.map (·.value)) with
  | some value => .error (.duplicateValue pending.definition.name value)
  | none =>
    let branches := sortBy (fun a b => a.value ≤ b.value)
      (pending.candidates.map (branchOf scope pending))
    .ok
      { definition := pending.definition.name
        property := pending.property
        form := pending.form
        branches := nameCases [] branches }

/-! ## The whole document -/

/-- Classifies every definition.  Faults of explicit bases come first, then children with two
owners, then repeated values. -/
def analyze (document : Document) : Except SchemaError (Hierarchy × List Notice) := do
  let definitions := document.sorted
  let explicit := (← definitions.mapM (explicitBase? document)).filterMap id
  let isExplicit (definition : Definition) : Bool :=
    explicit.any (·.definition.name = definition.name)
  let implicitResults := (definitions.filter (!isExplicit ·)).map implicitBase?
  let pending := explicit ++ implicitResults.filterMap (·.1)
  let baseNames := pending.map (·.definition.name)
  let abstractBases ← abstractBasesOf (definitions.filter (!baseNames.contains ·.name))
  let scope : Scope :=
    { document
      tally := Tally.ofDocument document
      sums := baseNames ++ abstractBases.map (·.definition) }
  let bases ← pending.mapM (baseOf scope)
  let hierarchy : Hierarchy :=
    { bases := sortBy (fun a b => a.definition ≤ b.definition) bases
      abstractBases }
  pure (hierarchy, implicitResults.flatMap (·.2))

end Hierarchy

end SchemaCompiler
