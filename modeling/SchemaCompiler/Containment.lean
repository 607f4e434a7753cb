import SchemaCompiler.Sorting

/-!
# Containment

Types that hold each other in place have no finite size.  An edge says that one type holds
another, in a named field or as a case.  A field is boxed when the type it leads to leads back to
the type it belongs to; cases are never boxed.
-/

namespace SchemaCompiler

/-- One type holds another. -/
structure Edge where
  source : String
  target : String
  /-- The field that holds it; none for a case. -/
  field : Option String
deriving DecidableEq, Repr

/-- A field that is stored behind a pointer. -/
structure BoxedField where
  type : String
  field : String
  target : String
deriving DecidableEq, Repr

abbrev Containment := List Edge

namespace Containment

/-- Types one step away from the given ones and not among them. -/
def fresh (edges : Containment) (seen : List String) : List String :=
  ((edges.filter fun e => seen.contains e.source && !seen.contains e.target).map
    (·.target)).eraseDups

/-- Adds types step by step until none is new. -/
def grow (edges : Containment) : Nat → List String → List String
  | 0, seen => seen
  | n + 1, seen =>
    match fresh edges seen with
    | [] => seen
    | next => grow edges n (seen ++ next)

/-- Every type that a type leads to, itself included.  Each step but the last reaches a new
target, so there are no more steps than edges. -/
def reachable (edges : Containment) (type : String) : List String :=
  grow edges (edges.length + 1) [type]

/-- Whether one type leads to another in any number of steps. -/
def leadsTo (edges : Containment) (a b : String) : Bool :=
  (reachable edges a).contains b

/-- Whether a type leads back to itself in at least one step. -/
def isCyclic (edges : Containment) (type : String) : Bool :=
  edges.any fun e => e.source = type && leadsTo edges e.target type

def types (edges : Containment) : List String :=
  sortBy (fun a b => a ≤ b) (edges.flatMap fun e => [e.source, e.target]).eraseDups

/-- The cyclic types that lead to each other, each group in order and the groups by their first
member. -/
def groups (edges : Containment) : List (List String) :=
  let cyclic := (types edges).filter (isCyclic edges)
  (cyclic.map fun type =>
    cyclic.filter fun other => leadsTo edges type other && leadsTo edges other type).eraseDups

def needsBox (edges : Containment) (type field : String) : Bool :=
  edges.any fun e =>
    e.source = type && e.field = some field && leadsTo edges e.target e.source

/-- The boxed fields in the order of their types, names and targets. -/
def boxed (edges : Containment) : List BoxedField :=
  let fields := edges.filterMap fun e =>
    match e.field with
    | some field => if leadsTo edges e.target e.source then some ⟨e.source, field, e.target⟩ else none
    | none => none
  let precedes (a b : BoxedField) : Bool :=
    a.type < b.type || a.type = b.type &&
      (a.field < b.field || a.field = b.field && a.target ≤ b.target)
  sortBy precedes fields.eraseDups

end Containment

end SchemaCompiler
