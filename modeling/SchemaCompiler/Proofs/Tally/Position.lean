import Mathlib.Data.List.TakeWhile
import Mathlib.Data.Set.Basic
import SchemaCompiler.Proofs.Json.Distinct
import SchemaCompiler.Proofs.Reference

/-!
# Positions of references

A position in a value is the path that leads to it from the outside in, one step for each array or
object on the way.  A reference to a name is an object with a string under `$ref` whose last
segment is the name, and what stands below a `$ref` is none.  The positions of references inside an
array or an object fall into one piece for each item or member (`Json.refersAt_array_eq`,
`Json.refersAt_object_eq`), told apart by the first step.
-/

namespace SchemaCompiler

namespace Json

/-- A step to the member of an object under a key, or to the item of an array at an index. -/
inductive Step where
  | member (key : String)
  | item (index : Nat)
deriving DecidableEq, Repr

/-- What stands one step inside a value. -/
def step? : Json → Step → Option Json
  | .object members, .member key => Entries.get? members key
  | .array items, .item index => items[index]?
  | _, _ => none

/-- What stands at the end of a path. -/
def at? : Json → List Step → Option Json
  | value, [] => some value
  | value, step :: rest => (value.step? step).bind (at? · rest)

theorem step?_object_iff {members : List (String × Json)} {step : Step} {inner : Json} :
    (object members).step? step = some inner ↔
      ∃ key, step = .member key ∧ Entries.get? members key = some inner := by
  cases step <;> simp [step?]

theorem step?_array_iff {items : List Json} {step : Step} {inner : Json} :
    (array items).step? step = some inner ↔
      ∃ index, step = .item index ∧ items[index]? = some inner := by
  cases step <;> simp [step?]

end Json

/-! ## Last segments -/

/-- The last segment of a path has no slash in it, and one in front of it unless it is the whole
path. -/
def IsLastSegment (path name : String) : Prop :=
  '/' ∉ name.toList ∧ (path = name ∨ ∃ front, path = front ++ "/" ++ name)

theorem isLastSegment_refName (path : String) : IsLastSegment path (refName path) := by
  have hname : (refName path).toList = (path.toList.reverse.takeWhile (· ≠ '/')).reverse := by
    rw [refName, String.toList_ofList]
  have hpath : path.toList =
      (path.toList.reverse.dropWhile (· ≠ '/')).reverse ++ (refName path).toList := by
    rw [hname, ← List.reverse_append, List.takeWhile_append_dropWhile, List.reverse_reverse]
  constructor
  · intro hslash
    rw [hname, List.mem_reverse] at hslash
    simpa using List.mem_takeWhile_imp hslash
  · cases hrest : path.toList.reverse.dropWhile (· ≠ '/') with
    | nil =>
        left
        rw [hrest, List.reverse_nil, List.nil_append] at hpath
        exact String.toList_inj.mp hpath
    | cons c rest =>
        right
        have hc := List.head?_dropWhile_not (· ≠ '/') path.toList.reverse
        rw [hrest] at hc hpath
        obtain rfl : c = '/' := by simpa using hc
        refine ⟨String.ofList rest.reverse, String.toList_inj.mp ?_⟩
        rw [hpath]
        simp

theorem IsLastSegment.refName_eq {path name : String} (h : IsLastSegment path name) :
    refName path = name := by
  obtain ⟨hfree, hpath⟩ := h
  have hkept : ∀ c ∈ name.toList.reverse, decide (c ≠ '/') = true := fun c hc =>
    decide_eq_true (ne_of_mem_of_not_mem (List.mem_reverse.mp hc) hfree)
  rcases hpath with rfl | ⟨front, rfl⟩
  · rw [refName, List.takeWhile_eq_self_iff.mpr hkept, List.reverse_reverse, String.ofList_toList]
  · have hreverse : (front ++ "/" ++ name).toList.reverse =
        name.toList.reverse ++ '/' :: front.toList.reverse := by
      simp
    rw [refName, hreverse, List.takeWhile_append_of_pos hkept,
      List.takeWhile_cons_of_neg (by simp), List.append_nil, List.reverse_reverse,
      String.ofList_toList]

theorem refName_eq_iff {path name : String} : refName path = name ↔ IsLastSegment path name := by
  constructor
  · rintro rfl
    exact isLastSegment_refName path
  · exact IsLastSegment.refName_eq

/-! ## References at positions -/

/-- An object with a string under `$ref` refers to a name.  What stands below a `$ref` refers to
nothing. -/
structure Json.RefersAt (value : Json) (path : List Json.Step) (name : String) : Prop where
  outside : .member "$ref" ∉ path
  refers : ∃ node text, value.at? path = some (.object node) ∧
    Entries.get? node "$ref" = some (.string text) ∧ IsLastSegment text name

/-- A position in a document is a definition and a path inside it. -/
def Document.RefersAt (document : Document) (position : String × List Json.Step)
    (name : String) : Prop :=
  ∃ value, document.definitions.get? position.1 = some value ∧ value.RefersAt position.2 name

namespace Json

variable {value : Json} {name : String}

theorem refersAt_nil_iff : value.RefersAt [] name ↔
    ∃ node text, value = .object node ∧ Entries.get? node "$ref" = some (.string text) ∧
      IsLastSegment text name := by
  constructor
  · rintro ⟨-, node, text, hnode, hrefers⟩
    exact ⟨node, text, Option.some.inj hnode, hrefers⟩
  · rintro ⟨node, text, rfl, hrefers⟩
    exact ⟨List.not_mem_nil, node, text, rfl, hrefers⟩

theorem refersAt_cons_iff {step : Step} {rest : List Step} :
    value.RefersAt (step :: rest) name ↔ step ≠ .member "$ref" ∧
      ∃ inner, value.step? step = some inner ∧ inner.RefersAt rest name := by
  constructor
  · rintro ⟨houtside, node, text, hnode, hrefers⟩
    obtain ⟨inner, hinner, hnode⟩ := Option.bind_eq_some_iff.mp hnode
    rw [List.mem_cons, not_or] at houtside
    exact ⟨Ne.symm houtside.1, inner, hinner, houtside.2, node, text, hnode, hrefers⟩
  · rintro ⟨hstep, inner, hinner, houtside, node, text, hnode, hrefers⟩
    refine ⟨?_, node, text, Option.bind_eq_some_iff.mpr ⟨inner, hinner, hnode⟩, hrefers⟩
    rw [List.mem_cons, not_or]
    exact ⟨Ne.symm hstep, houtside⟩

/-- A value without items and members holds no reference. -/
theorem refersAt_eq_empty (hobject : ∀ node, value ≠ .object node)
    (hstep : ∀ step, value.step? step = none) : {path | value.RefersAt path name} = ∅ := by
  refine Set.eq_empty_of_forall_notMem fun path h => ?_
  cases path with
  | nil =>
      obtain ⟨node, -, hnode, -⟩ := refersAt_nil_iff.mp h
      exact hobject node hnode
  | cons step rest =>
      obtain ⟨-, inner, hinner, -⟩ := refersAt_cons_iff.mp h
      rw [hstep] at hinner
      cases hinner

/-- The references inside an item, seen from the array. -/
def itemPositions (name : String) (item : Json × Nat) : Set (List Step) :=
  List.cons (.item item.2) '' {path | item.1.RefersAt path name}

/-- The references that a member makes up, seen from the object: itself, or those inside it. -/
def memberPositions (name : String) (member : String × Json) : Set (List Step) :=
  if member.1 = "$ref" then
    {path | path = [] ∧ ∃ text, member.2 = .string text ∧ IsLastSegment text name}
  else List.cons (.member member.1) '' {path | member.2.RefersAt path name}

/-- The step that begins the positions of a member; the object itself is where no step leads. -/
def firstStep? (key : String) : Option Step :=
  if key = "$ref" then none else some (.member key)

theorem firstStep?_injective : Function.Injective firstStep? := by
  intro a b h
  unfold firstStep? at h
  split at h <;> split at h
  · rename_i ha hb
    rw [ha, hb]
  · cases h
  · cases h
  · exact Step.member.inj (Option.some.inj h)

theorem head?_of_mem_memberPositions {member : String × Json} {path : List Step}
    (h : path ∈ memberPositions name member) : path.head? = firstStep? member.1 := by
  unfold memberPositions at h
  split at h
  · rename_i hkey
    rw [h.1, firstStep?, if_pos hkey]
    rfl
  · rename_i hkey
    obtain ⟨rest, -, rfl⟩ := h
    rw [firstStep?, if_neg hkey]
    rfl

theorem refersAt_array_eq (items : List Json) (name : String) :
    {path | (array items).RefersAt path name} =
      {path | ∃ item ∈ items.zipIdx, path ∈ itemPositions name item} := by
  ext path
  cases path with
  | nil => simp [refersAt_nil_iff, itemPositions]
  | cons step rest =>
      simp only [Set.mem_ofPred_eq, refersAt_cons_iff, step?_array_iff, itemPositions,
        Set.mem_image, List.cons.injEq, List.mem_zipIdx_iff_getElem?]
      constructor
      · rintro ⟨-, inner, ⟨index, rfl, hinner⟩, hrefers⟩
        exact ⟨(inner, index), hinner, rest, hrefers, rfl, rfl⟩
      · rintro ⟨⟨inner, index⟩, hinner, path, hrefers, rfl, rfl⟩
        exact ⟨by simp, inner, ⟨index, rfl, hinner⟩, hrefers⟩

theorem refersAt_object_eq {members : List (String × Json)} (hdistinct : Entries.Distinct members)
    (name : String) :
    {path | (object members).RefersAt path name} =
      {path | ∃ member ∈ members, path ∈ memberPositions name member} := by
  ext path
  simp only [Set.mem_ofPred_eq, memberPositions]
  constructor
  · intro h
    -- the object itself is in the piece of its `$ref`, all else in the piece of the first step
    cases path with
    | nil =>
        obtain ⟨node, text, hnode, href, hsegment⟩ := refersAt_nil_iff.mp h
        obtain rfl := Json.object.inj hnode
        refine ⟨("$ref", .string text), hdistinct.get?_eq_some_iff.mp href, ?_⟩
        rw [if_pos rfl]
        exact ⟨rfl, text, rfl, hsegment⟩
    | cons step rest =>
        obtain ⟨hstep, inner, hinner, hrefers⟩ := refersAt_cons_iff.mp h
        obtain ⟨key, rfl, hinner⟩ := step?_object_iff.mp hinner
        refine ⟨(key, inner), hdistinct.get?_eq_some_iff.mp hinner, ?_⟩
        rw [if_neg fun hkey => hstep (congrArg Step.member hkey)]
        exact ⟨rest, hrefers, rfl⟩
  · rintro ⟨⟨key, inner⟩, hmember, hpath⟩
    have hinner := hdistinct.get?_eq_some_iff.mpr hmember
    split at hpath
    · rename_i hkey
      obtain rfl : key = "$ref" := hkey
      obtain ⟨rfl, text, htext, hsegment⟩ := hpath
      obtain rfl : inner = .string text := htext
      exact refersAt_nil_iff.mpr ⟨members, text, rfl, hinner, hsegment⟩
    · rename_i hkey
      obtain ⟨rest, hrefers, rfl⟩ := hpath
      refine refersAt_cons_iff.mpr ⟨fun hstep => hkey (Step.member.inj hstep), inner, ?_, hrefers⟩
      exact step?_object_iff.mpr ⟨key, rfl, hinner⟩

end Json

end SchemaCompiler
