import SchemaCompiler.Document

/-!
# References

A reference names a definition by the last segment of its path.  `Tally` counts how often each
name is referred to anywhere in the definitions.
-/

namespace SchemaCompiler

/-- The last segment of a path: `#/$defs/SessionId` gives `SessionId`. -/
def refName (path : String) : String :=
  String.ofList ((path.toList.reverse.takeWhile (· ≠ '/')).reverse)

namespace Node

/-- The definition a node refers to itself. -/
def directRef? (node : Node) : Option String :=
  match string? node "$ref" with
  | some path => if path.isEmpty then none else some (refName path)
  | none => none

/-- The first definition referred to inside `allOf`. -/
def allOfRef? (node : Node) : Option String :=
  match array? node "allOf" with
  | some items => (objectItems items).findSome? directRef?
  | none => none

def ref? (node : Node) : Option String :=
  node.directRef?.or node.allOfRef?

/-- The first entry of `type` that is not `null`. -/
def primaryType? (node : Node) : Option String :=
  match Entries.get? node "type" with
  | some (.string type) => some type
  | some (.array types) => (types.filterMap Json.string?).find? (· ≠ "null")
  | _ => none

end Node

/-- The names referred to, once for each reference. -/
abbrev Tally := List String

namespace Tally

mutual

/-- The references inside a value, in document order.  Nothing is counted below a `$ref`. -/
def ofJson : Json → Tally
  | .object members => ofMembers members
  | .array items => ofItems items
  | _ => []

def ofItems : List Json → Tally
  | [] => []
  | item :: rest => ofJson item ++ ofItems rest

def ofMembers : List (String × Json) → Tally
  | [] => []
  | (key, value) :: rest =>
    (if key = "$ref" then (value.string?.map refName).toList else ofJson value) ++ ofMembers rest

end

def ofDocument (document : Document) : Tally :=
  document.definitions.flatMap fun (_, value) => ofJson value

/-- How often a name is referred to. -/
def count (tally : Tally) (name : String) : Nat :=
  List.count name tally

def total (tally : Tally) : Nat :=
  tally.length

/-- The names referred to, in order. -/
def names (tally : Tally) : List String :=
  sortBy (fun a b => a ≤ b) tally.eraseDups

/-- The names referred to without a definition, in order. -/
def unresolved (tally : Tally) (document : Document) : List String :=
  tally.names.filter (!document.definitions.contains ·)

end Tally

end SchemaCompiler
