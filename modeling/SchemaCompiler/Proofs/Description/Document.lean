import SchemaCompiler.Model.PropertySet
import SchemaCompiler.Proofs.Document
import SchemaCompiler.Proofs.Entries
import SchemaCompiler.Proofs.Reference
import SchemaCompiler.Resolve

/-!
# Documents without descriptions

A schema loses its own description and those of its properties and of its branches, at any depth;
only text counts as a description.  Constants, defaults, references and everything else under other
keys is kept.  What is read from a schema under another key is the same but for the descriptions
inside (`Node.get?_undescribed`), so a schema without descriptions refers to the same definitions
(`Tally.ofJson_undescribed`) and has the same type (`Resolve.ofJson_undescribed`).
-/

namespace SchemaCompiler

/-- A member that describes the schema it stands in. -/
def isDescription (member : String × Json) : Bool :=
  member.1 = "description" && member.2.string?.isSome

namespace Json

mutual

/-- A schema without its description and those of its properties and branches. -/
def undescribed : Json → Json
  | .object members => .object (undescribedMembers members)
  | other => other

def undescribedMembers : List (String × Json) → List (String × Json)
  | [] => []
  | (key, value) :: rest =>
    if isDescription (key, value) then undescribedMembers rest
    else (key, undescribedUnder key value) :: undescribedMembers rest

/-- What stands under a key of a schema: properties are schemas, and so are branches. -/
def undescribedUnder (key : String) : Json → Json
  | .object members => .object (if key = "properties" then undescribedAll members else members)
  | .array items =>
    .array (if key = "oneOf" || key = "anyOf" then undescribedItems items else items)
  | other => other

def undescribedAll : List (String × Json) → List (String × Json)
  | [] => []
  | (key, value) :: rest => (key, undescribed value) :: undescribedAll rest

def undescribedItems : List Json → List Json
  | [] => []
  | item :: rest => undescribed item :: undescribedItems rest

end

theorem undescribedMembers_eq (members : List (String × Json)) :
    undescribedMembers members =
      (members.filter (!isDescription ·)).map fun (key, value) =>
        (key, undescribedUnder key value) := by
  induction members with
  | nil => rfl
  | cons member rest ih =>
      obtain ⟨key, value⟩ := member
      rw [undescribedMembers, List.filter_cons, ih]
      cases isDescription (key, value) <;> rfl

theorem undescribedAll_eq (members : List (String × Json)) :
    undescribedAll members = members.map fun (key, value) => (key, value.undescribed) := by
  induction members with
  | nil => rfl
  | cons member rest ih => rw [undescribedAll, ih, List.map_cons]

theorem undescribedItems_eq (items : List Json) :
    undescribedItems items = items.map undescribed := by
  induction items with
  | nil => rfl
  | cons item rest ih => rw [undescribedItems, ih, List.map_cons]

theorem get?_undescribedAll (members : List (String × Json)) (key : String) :
    Entries.get? (undescribedAll members) key = (Entries.get? members key).map undescribed := by
  rw [undescribedAll_eq]
  exact Entries.get?_map (fun _ => undescribed) members key

/-- Wherever a description is added to a schema, it is taken away again. -/
theorem undescribed_insert (front back : List (String × Json)) (text : String) :
    (Json.object (front ++ ("description", .string text) :: back)).undescribed =
      (Json.object (front ++ back)).undescribed := by
  have hdescription : isDescription ("description", .string text) = true := rfl
  rw [undescribed, undescribedMembers_eq, List.filter_append, List.filter_cons, hdescription,
    undescribed, undescribedMembers_eq, List.filter_append]
  rfl

@[simp] theorem string?_undescribed (value : Json) : value.undescribed.string? = value.string? := by
  cases value <;> rfl

@[simp] theorem object?_undescribed (value : Json) :
    value.undescribed.object? = value.object?.map undescribedMembers := by
  cases value <;> rfl

@[simp] theorem string?_undescribedUnder (key : String) (value : Json) :
    (undescribedUnder key value).string? = value.string? := by
  cases value <;> rfl

/-- Only properties and branches are looked into. -/
theorem undescribedUnder_eq_self {key : String} (h : key ∉ ["properties", "oneOf", "anyOf"])
    (value : Json) : undescribedUnder key value = value := by
  simp only [List.mem_cons, List.not_mem_nil, or_false, not_or] at h
  cases value with
  | object members => rw [undescribedUnder, if_neg h.1]
  | array items => simp [undescribedUnder, h.2]
  | _ => rfl

end Json

/-! ## Nodes -/

namespace Node

abbrev undescribed (node : Node) : Node :=
  Json.undescribedMembers node

variable (node : Node) {key : String}

theorem get?_undescribed (h : key ≠ "description") :
    Entries.get? node.undescribed key =
      (Entries.get? node key).map (Json.undescribedUnder key) := by
  rw [undescribed, Json.undescribedMembers_eq, Entries.get?_map, Entries.get?_filter]
  intro value
  simp [isDescription, h]

/-- What is neither a description nor a schema is found as it was. -/
@[simp] theorem get?_undescribed_eq (h : key ∉ ["description", "properties", "oneOf", "anyOf"]) :
    Entries.get? node.undescribed key = Entries.get? node key := by
  obtain ⟨hdescription, hschemas⟩ := not_or.mp (mt List.mem_cons.mpr h)
  rw [get?_undescribed node hdescription]
  cases Entries.get? node key with
  | none => rfl
  | some value => exact congrArg some (Json.undescribedUnder_eq_self hschemas value)

@[simp] theorem contains_undescribed (h : key ≠ "description") :
    Entries.contains node.undescribed key = Entries.contains node key := by
  rw [Entries.contains, get?_undescribed node h, Option.isSome_map, Entries.contains]

theorem any_contains_undescribed {keys : List String} (h : "description" ∉ keys) :
    keys.any (Entries.contains node.undescribed) = keys.any (Entries.contains node) := by
  induction keys with
  | nil => rfl
  | cons key rest ih =>
      obtain ⟨hkey, hrest⟩ := not_or.mp (mt List.mem_cons.mpr h)
      rw [List.any_cons, List.any_cons, contains_undescribed node (Ne.symm hkey), ih hrest]

@[simp] theorem string?_undescribed (h : key ≠ "description") :
    node.undescribed.string? key = node.string? key := by
  rw [string?, get?_undescribed node h, Option.bind_map, string?]
  exact Option.bind_congr fun value _ => Json.string?_undescribedUnder key value

@[simp] theorem array?_undescribed_eq (h : key ∉ ["description", "properties", "oneOf", "anyOf"]) :
    node.undescribed.array? key = node.array? key := by
  rw [array?, get?_undescribed_eq node h, array?]

@[simp] theorem object?_undescribed_eq (h : key ∉ ["description", "properties", "oneOf", "anyOf"]) :
    node.undescribed.object? key = node.object? key := by
  rw [object?, get?_undescribed_eq node h, object?]

theorem array?_undescribed_branches (h : key = "oneOf" ∨ key = "anyOf") :
    node.undescribed.array? key = (node.array? key).map (·.map Json.undescribed) := by
  have hkey : key ≠ "description" := by rcases h with rfl | rfl <;> decide
  have hbranches (value : Json) : (Json.undescribedUnder key value).array? =
      value.array?.map (·.map Json.undescribed) := by
    cases value with
    | array items =>
        have hlooks : (decide (key = "oneOf") || decide (key = "anyOf")) = true := by simpa using h
        rw [Json.undescribedUnder, if_pos hlooks, Json.undescribedItems_eq]
        rfl
    | _ => rfl
  rw [array?, get?_undescribed node hkey, Option.bind_map, array?, Option.map_bind]
  exact Option.bind_congr fun value _ => hbranches value

theorem properties_undescribed :
    node.undescribed.object? "properties" =
      (node.object? "properties").map Json.undescribedAll := by
  have hproperties (value : Json) : (Json.undescribedUnder "properties" value).object? =
      value.object?.map Json.undescribedAll := by
    cases value with
    | object members =>
        rw [Json.undescribedUnder, if_pos rfl]
        rfl
    | _ => rfl
  rw [object?, get?_undescribed node (by decide), Option.bind_map, object?, Option.map_bind]
  exact Option.bind_congr fun value _ => hproperties value

@[simp] theorem description?_undescribed : node.undescribed.description? = none := by
  have hkept : ∀ member ∈ node.undescribed, isDescription member = false := by
    rw [undescribed, Json.undescribedMembers_eq]
    refine List.forall_mem_map.mpr fun member hmember => ?_
    have hother := (List.mem_filter.mp hmember).2
    rw [Bool.not_eq_true'] at hother
    rw [isDescription, Json.string?_undescribedUnder]
    exact hother
  rw [description?, string?]
  cases hfound : Entries.get? node.undescribed "description" with
  | none => rfl
  | some value =>
      simpa [isDescription] using hkept _ (Entries.mem_of_get?_eq_some hfound)

@[simp] theorem objectItems_undescribed (items : List Json) :
    objectItems (items.map Json.undescribed) = (objectItems items).map undescribed := by
  rw [objectItems, List.filterMap_map, objectItems, List.map_filterMap]
  exact List.filterMap_congr fun item _ => Json.object?_undescribed item

/-! ### What is read from a node -/

@[simp] theorem directRef?_undescribed : node.undescribed.directRef? = node.directRef? := by
  rw [directRef?, string?_undescribed node (by decide), directRef?]

@[simp] theorem allOfRef?_undescribed : node.undescribed.allOfRef? = node.allOfRef? := by
  rw [allOfRef?, array?_undescribed_eq node (by decide), allOfRef?]

@[simp] theorem ref?_undescribed : node.undescribed.ref? = node.ref? := by
  rw [ref?, directRef?_undescribed, allOfRef?_undescribed, ref?]

@[simp] theorem primaryType?_undescribed : node.undescribed.primaryType? = node.primaryType? := by
  rw [primaryType?, get?_undescribed_eq node (by decide), primaryType?]

@[simp] theorem width_undescribed : node.undescribed.width = node.width := by
  rw [width, string?_undescribed node (by decide), width]

end Node

@[simp] theorem Json.get?_undescribed_eq (value : Json) {key : String}
    (h : key ∉ ["description", "properties", "oneOf", "anyOf"]) :
    value.undescribed.get? key = value.get? key := by
  cases value with
  | object node => exact Node.get?_undescribed_eq node h
  | _ => rfl

theorem Json.description_undescribed (value : Json) :
    (value.undescribed.get? "description").bind Json.string? = none := by
  cases value with
  | object node => exact Node.description?_undescribed node
  | _ => rfl

/-! ## References -/

namespace Tally

mutual

/-- Descriptions hold no references. -/
@[simp] theorem ofJson_undescribed (value : Json) : ofJson value.undescribed = ofJson value :=
  match value with
  | .object members => by
      rw [Json.undescribed, ofJson, ofJson, ofMembers_undescribed members]
  | .null | .bool _ | .number _ | .string _ | .array _ => rfl

theorem ofMembers_undescribed (members : List (String × Json)) :
    ofMembers (Json.undescribedMembers members) = ofMembers members :=
  match members with
  | [] => rfl
  | (key, value) :: rest => by
      rw [Json.undescribedMembers]
      split
      · -- a member that is dropped is a text, and `$ref` is not its key
        rename_i hdescription
        obtain ⟨hkey, htext⟩ := Bool.and_eq_true_iff.mp hdescription
        obtain ⟨text, htext⟩ := Option.isSome_iff_exists.mp htext
        obtain rfl : key = "description" := of_decide_eq_true hkey
        obtain rfl : value = .string text := Json.string?_eq_some_iff.mp htext
        exact ofMembers_undescribed rest
      · rw [ofMembers, ofMembers, Json.string?_undescribedUnder,
          ofJson_undescribedUnder key value, ofMembers_undescribed rest]

theorem ofJson_undescribedUnder (key : String) (value : Json) :
    ofJson (Json.undescribedUnder key value) = ofJson value :=
  match value with
  | .object members => by
      rw [Json.undescribedUnder, ofJson, ofJson]
      split
      · exact ofMembers_undescribedAll members
      · rfl
  | .array items => by
      rw [Json.undescribedUnder, ofJson, ofJson]
      split
      · exact ofItems_undescribed items
      · rfl
  | .null | .bool _ | .number _ | .string _ => rfl

theorem ofMembers_undescribedAll (members : List (String × Json)) :
    ofMembers (Json.undescribedAll members) = ofMembers members :=
  match members with
  | [] => rfl
  | (key, value) :: rest => by
      rw [Json.undescribedAll, ofMembers, ofMembers, Json.string?_undescribed,
        ofJson_undescribed value, ofMembers_undescribedAll rest]

theorem ofItems_undescribed (items : List Json) :
    ofItems (Json.undescribedItems items) = ofItems items :=
  match items with
  | [] => rfl
  | item :: rest => by
      rw [Json.undescribedItems, ofItems, ofItems, ofJson_undescribed item,
        ofItems_undescribed rest]

end

end Tally

/-! ## Types of properties -/

namespace Resolve

theorem typeKeyword_undescribed (node : Node) :
    typeKeyword node.undescribed = typeKeyword node := by
  rw [typeKeyword, node.get?_undescribed_eq (by decide), typeKeyword]

theorem nullableReference?_undescribed (items : List Json) :
    nullableReference? (items.map Json.undescribed) = nullableReference? items := by
  simp [nullableReference?, List.any_map, List.filterMap_map, Function.comp_def]

theorem plain_undescribed (node : Node) (type : TypeKeyword) :
    plain node.undescribed type = plain node type := by
  have hscalar (name : String) :
      Scalar.ofTypeName? name node.undescribed = Scalar.ofTypeName? name node := by
    simp only [Scalar.ofTypeName?, Node.width_undescribed]
  have hreference : (node.undescribed.array? "anyOf").bind nullableReference? =
      (node.array? "anyOf").bind nullableReference? := by
    rw [node.array?_undescribed_branches (Or.inr rfl), Option.bind_map]
    exact Option.bind_congr fun items _ => nullableReference?_undescribed items
  have henum : Entries.contains node.undescribed "enum" = Entries.contains node "enum" :=
    node.contains_undescribed (by decide)
  simp only [plain, henum, hscalar, hreference]

theorem ofItems_undescribed (node : Node) : ofItems node.undescribed = ofItems node := by
  induction node with
  | nil => rfl
  | cons member rest ih =>
      obtain ⟨key, value⟩ := member
      rw [Node.undescribed, Json.undescribedMembers]
      split
      · rename_i hdescription
        obtain ⟨hkey, -⟩ := Bool.and_eq_true_iff.mp hdescription
        obtain rfl : key = "description" := of_decide_eq_true hkey
        rw [ih, ofItems, if_neg (by decide)]
      · rw [ofItems, ofItems, ih]
        split
        · rename_i hkey
          rw [Json.undescribedUnder_eq_self (by rw [hkey]; decide)]
        · rfl

@[simp] theorem ofJson_undescribed (value : Json) : ofJson value.undescribed = ofJson value := by
  cases value with
  | object node =>
      simp only [Json.undescribed, ofJson, Node.ref?_undescribed, typeKeyword_undescribed,
        ofItems_undescribed, plain_undescribed]
  | _ => rfl

end Resolve

@[simp] theorem Node.descriptor_undescribed (node : Node) :
    node.undescribed.descriptor = node.descriptor :=
  Resolve.ofJson_undescribed (.object node)

/-! ## Properties -/

def Property.undescribed (property : Property) : Property where
  schema := property.schema.undescribed
  required := property.required

namespace PropertySet

def undescribed (set : PropertySet) : PropertySet :=
  set.map fun (name, property) => (name, property.undescribed)

@[simp] theorem ofNode_undescribed (node : Node) :
    ofNode node.undescribed = (ofNode node).undescribed := by
  have hrequired : requiredNames node.undescribed = requiredNames node := by
    rw [requiredNames, node.array?_undescribed_eq (by decide), requiredNames]
  have hproperties : (node.undescribed.object? "properties").getD [] =
      Json.undescribedAll ((node.object? "properties").getD []) := by
    rw [node.properties_undescribed]
    exact Option.getD_map Json.undescribedAll [] _
  rw [ofNode, hrequired, hproperties, Json.undescribedAll_eq, List.map_map, undescribed, ofNode,
    List.map_map]
  rfl

theorem overlay_undescribed (set other : PropertySet) :
    set.undescribed.overlay other.undescribed = (set.overlay other).undescribed := by
  rw [overlay, overlay]
  induction other generalizing set with
  | nil => rfl
  | cons head rest ih =>
      obtain ⟨name, property⟩ := head
      show List.foldl _ (Entries.insert set.undescribed name property.undescribed)
        (undescribed rest) = _
      rw [List.foldl_cons, ← ih]
      exact congrArg (List.foldl _ · _) (Entries.insert_map Property.undescribed set name property)

theorem erase_undescribed (set : PropertySet) (key : String) :
    Entries.erase set.undescribed key = undescribed (Entries.erase set key) := by
  rw [Entries.erase, undescribed, List.filter_map, Entries.erase, undescribed]
  rfl

theorem branches?_undescribed (node : Node) :
    branches? node.undescribed = (branches? node).map (·.map Json.undescribed) := by
  have hone := node.array?_undescribed_branches (Or.inl rfl)
  have hany := node.array?_undescribed_branches (Or.inr rfl)
  rw [Node.array?, Node.array?, node.get?_undescribed (by decide)] at hone hany
  rw [branches?, branches?, node.get?_undescribed (by decide), node.get?_undescribed (by decide)]
  cases hfound : Entries.get? node "oneOf" with
  | none => simpa [hfound] using hany
  | some value => simpa [hfound] using hone

theorem branch_properties_undescribed (branch : Json) :
    ((branch.undescribed.get? "properties").bind Json.object?).getD [] =
      Json.undescribedAll (((branch.get? "properties").bind Json.object?).getD []) := by
  cases branch with
  | object node =>
      have hproperties : (Entries.get? (Node.undescribed node) "properties").bind Json.object? =
          ((Entries.get? node "properties").bind Json.object?).map Json.undescribedAll :=
        Node.properties_undescribed node
      show ((Entries.get? (Node.undescribed node) "properties").bind Json.object?).getD [] = _
      rw [hproperties]
      exact Option.getD_map Json.undescribedAll [] _
  | _ => rfl

/-- Whether a set declares a property and requires it. -/
def requires (set : PropertySet) (name : String) : Bool :=
  set.any fun (n, p) => n = name && p.required

/-- The properties of all branches. -/
def ofBranches (isRequired : String → Bool) (branches : List Json) : PropertySet :=
  branches.flatMap fun branch =>
    (((branch.get? "properties").bind Json.object?).getD []).map fun (name, schema) =>
      (name, ⟨schema, isRequired name⟩)

theorem ofRecord_eq (node : Node) :
    ofRecord node = (ofNode node).overlay
      (ofBranches (requires (ofNode node)) ((branches? node).getD [])) :=
  rfl

theorem requires_undescribed (set : PropertySet) : requires set.undescribed = requires set := by
  funext name
  rw [requires, undescribed, List.any_map, requires]
  rfl

theorem ofBranches_undescribed (isRequired : String → Bool) (branches : List Json) :
    ofBranches isRequired (branches.map Json.undescribed) =
      (ofBranches isRequired branches).undescribed := by
  rw [ofBranches, List.flatMap_map, ofBranches, undescribed, List.map_flatMap]
  refine List.flatMap_congr fun branch _ => ?_
  rw [branch_properties_undescribed, Json.undescribedAll_eq, List.map_map, List.map_map]
  rfl

@[simp] theorem ofRecord_undescribed (node : Node) :
    ofRecord node.undescribed = (ofRecord node).undescribed := by
  have hbranches : ((branches? node.undescribed).getD []) =
      ((branches? node).getD []).map Json.undescribed := by
    rw [branches?_undescribed]
    cases branches? node <;> rfl
  rw [ofRecord_eq, ofRecord_eq, ofNode_undescribed, requires_undescribed, hbranches,
    ofBranches_undescribed, overlay_undescribed]

theorem sorted_undescribed (set : PropertySet) : set.undescribed.sorted = set.sorted.undescribed :=
  sortBy_map (fun _ _ => rfl) set

end PropertySet

/-! ## Documents -/

namespace Definition

def undescribed (definition : Definition) : Definition where
  name := definition.name
  node := definition.node.undescribed

variable (definition : Definition)

@[simp] theorem name_undescribed : definition.undescribed.name = definition.name :=
  rfl

@[simp] theorem node_undescribed : definition.undescribed.node = definition.node.undescribed :=
  rfl

@[simp] theorem description?_undescribed : definition.undescribed.description? = none :=
  definition.node.description?_undescribed

end Definition

namespace Document

def undescribed (document : Document) : Document where
  definitions := document.definitions.map fun (name, value) => (name, value.undescribed)
  revision := document.revision
  distinct := by
    rw [Entries.Distinct, Entries.keys, List.map_map]
    exact document.distinct

variable (document : Document)

@[simp] theorem get?_undescribed (name : String) :
    document.undescribed.get? name = (document.get? name).map Definition.undescribed := by
  have hvalue : document.undescribed.definitions.get? name =
      (document.definitions.get? name).map Json.undescribed :=
    Entries.get?_map (fun _ => Json.undescribed) document.definitions name
  rw [get?, hvalue, get?]
  cases document.definitions.get? name with
  | none => rfl
  | some value => cases value <;> rfl

theorem sorted_undescribed :
    document.undescribed.sorted = document.sorted.map Definition.undescribed := by
  have hobjects : document.undescribed.definitions.filterMap definition? =
      (document.definitions.filterMap definition?).map Definition.undescribed := by
    rw [undescribed, List.filterMap_map, List.map_filterMap]
    refine List.filterMap_congr fun entry _ => ?_
    obtain ⟨name, value⟩ := entry
    cases value <;> rfl
  rw [sorted_eq, sorted_eq, hobjects]
  exact sortBy_map (fun _ _ => rfl) _

theorem contains_undescribed (name : String) :
    document.undescribed.definitions.contains name = document.definitions.contains name := by
  have hvalue : document.undescribed.definitions.get? name =
      (document.definitions.get? name).map Json.undescribed :=
    Entries.get?_map (fun _ => Json.undescribed) document.definitions name
  rw [Entries.contains, hvalue, Option.isSome_map, Entries.contains]

theorem tally_undescribed : Tally.ofDocument document.undescribed = Tally.ofDocument document := by
  rw [Tally.ofDocument, undescribed, List.flatMap_map, Tally.ofDocument]
  exact List.flatMap_congr fun entry _ => Tally.ofJson_undescribed entry.2

end Document

end SchemaCompiler
