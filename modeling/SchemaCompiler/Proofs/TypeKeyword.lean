import SchemaCompiler.Proofs.Document
import SchemaCompiler.Resolve

/-!
# Types that a property lists

The `type` of a property names one JSON type or lists several, and the descriptor of the property
is to admit values of each (`AdmitsType`).  It does so with two exceptions.  A list that has an
array in front of other types is read as an array alone (`HidesType`).  And where several types are
listed beside an `anyOf` of a reference and a null type, that `anyOf` decides (`UnionDecides`).
Apart from these, no listed type is lost and the order of a list does not matter
(`types_admitted`).
-/

namespace SchemaCompiler

/-! ## Types and descriptors -/

/-- The JSON values of a type are values of the descriptor. -/
inductive Descriptor.AdmitsType : Descriptor → String → Prop where
  | dynamic (name : String) : AdmitsType .dynamic name
  | string : AdmitsType (.scalar .string) "string"
  | integer (width : IntWidth) : AdmitsType (.scalar (.integer width)) "integer"
  | number : AdmitsType (.scalar .number) "number"
  | boolean : AdmitsType (.scalar .boolean) "boolean"
  | array (items : Descriptor) : AdmitsType (.array items) "array"
  | null (inner : Descriptor) : AdmitsType (.nullable inner) "null"
  | inner {inner : Descriptor} {name : String} (h : AdmitsType inner name) :
      AdmitsType (.nullable inner) name

theorem Descriptor.admitsType_array_iff {items : Descriptor} {name : String} :
    (array items).AdmitsType name ↔ name = "array" := by
  constructor
  · intro h
    cases h
    rfl
  · rintro rfl
    exact .array items

theorem Descriptor.not_admitsType_reference (target name : String) :
    ¬(reference target).AdmitsType name := by
  intro h
  cases h

theorem Descriptor.admitsType_nullable_iff {inner : Descriptor} {name : String} :
    (nullable inner).AdmitsType name ↔ name = "null" ∨ inner.AdmitsType name := by
  constructor
  · intro h
    cases h with
    | null => exact Or.inl rfl
    | inner h => exact Or.inr h
  · rintro (rfl | h)
    · exact .null inner
    · exact .inner h

theorem Descriptor.AdmitsType.optional {descriptor : Descriptor} {name : String}
    (h : descriptor.AdmitsType name) : descriptor.optional.AdmitsType name := by
  cases descriptor with
  | dynamic => exact h
  | nullable inner => exact h
  | _ => exact h.inner

theorem Descriptor.admitsType_optional_null (descriptor : Descriptor) :
    descriptor.optional.AdmitsType "null" := by
  cases descriptor with
  | dynamic => exact .dynamic "null"
  | _ => exact .null _

theorem Scalar.admitsType_of_ofTypeName? {name : String} {node : Node} {scalar : Scalar}
    (h : ofTypeName? name node = some scalar) : (Descriptor.scalar scalar).AdmitsType name := by
  unfold ofTypeName? at h
  split at h
  · cases h
    exact .string
  · cases h
    exact .integer node.width
  · cases h
    exact .number
  · cases h
    exact .boolean
  · cases h

/-! ## What a node says -/

/-- The strings in a list of types, but for null. -/
def otherTypes (types : List Json) : List String :=
  (types.filterMap Json.string?).filter (· ≠ "null")

theorem mem_otherTypes_iff {types : List Json} {name : String} :
    name ∈ otherTypes types ↔ .string name ∈ types ∧ name ≠ "null" := by
  rw [otherTypes, List.mem_filter, Json.mem_filterMap_string?_iff, decide_eq_true_eq]

namespace Node

/-- The `type` of a node is a JSON type or lists it. -/
inductive ListsType (node : Node) (name : String) : Prop where
  | alone (htype : Entries.get? node "type" = some (.string name))
  | listed {types : List Json} (htype : Entries.get? node "type" = some (.array types))
      (hmem : .string name ∈ types)

/-- An array is the first type of the node besides null, and the name is that of another type. -/
def HidesType (node : Node) (name : String) : Prop :=
  node.primaryType? = some "array" ∧ name ≠ "array" ∧ name ≠ "null"

/-- An array stands in front of another type. -/
def HidesSome (node : Node) : Prop :=
  ∃ name, node.ListsType name ∧ node.HidesType name

/-- A null type, and no reference. -/
def IsNull (node : Node) : Prop :=
  node.directRef? = none ∧ node.string? "type" = some "null"

/-- A reference and a null type, in either order. -/
inductive PairsWithNull : List Json → String → Prop where
  | first {reference null : Node} {target : String} (href : reference.directRef? = some target)
      (hnull : null.IsNull) : PairsWithNull [.object reference, .object null] target
  | last {reference null : Node} {target : String} (hnull : null.IsNull)
      (href : reference.directRef? = some target) :
      PairsWithNull [.object null, .object reference] target

/-- Beside several types of which the first is no array, `anyOf` is such a pair. -/
structure UnionDecides (node : Node) (target : String) : Prop where
  several : ∃ types, Entries.get? node "type" = some (.array types) ∧ 2 ≤ (otherTypes types).length
  first_ne : node.primaryType? ≠ some "array"
  anyOf : ∃ items, node.array? "anyOf" = some items ∧ PairsWithNull items target

/-- The nodes have the same members but for the order of the types in their lists. -/
structure TypesReordered (node other : Node) : Prop where
  get?_eq : ∀ key, key ≠ "type" → Entries.get? node key = Entries.get? other key
  types : ∃ types types', Entries.get? node "type" = some (.array types) ∧
    Entries.get? other "type" = some (.array types') ∧ types.Perm types'

theorem TypesReordered.symm {node other : Node} (h : TypesReordered node other) :
    TypesReordered other node := by
  obtain ⟨types, types', htypes, htypes', hperm⟩ := h.types
  exact ⟨fun key hkey => (h.get?_eq key hkey).symm, types', types, htypes', htypes, hperm.symm⟩

end Node

namespace Resolve

open Node

variable {node other : Node} {name target : String} {types : List Json}

/-! ## The keyword -/

theorem primaryType?_of_list (h : Entries.get? node "type" = some (.array types)) :
    node.primaryType? = (otherTypes types).head? := by
  rw [primaryType?, h, otherTypes, List.head?_filter]

/-- The one type of a list that names no other one. -/
def only? : List String → Option String
  | [only] => some only
  | _ => none

theorem typeKeyword_of_list (h : Entries.get? node "type" = some (.array types)) :
    typeKeyword node = ⟨only? (otherTypes types), (otherTypes types).head? = some "array",
      (types.filterMap Json.string?).contains "null"⟩ := by
  rw [typeKeyword, h]
  rfl

theorem isArray_iff : (typeKeyword node).isArray = true ↔ node.primaryType? = some "array" := by
  cases htype : Entries.get? node "type" with
  | none => simp [typeKeyword, primaryType?, htype]
  | some value =>
      cases value with
      | array types => rw [typeKeyword_of_list htype, primaryType?_of_list htype, decide_eq_true_eq]
      | _ => simp [typeKeyword, primaryType?, htype]

/-- A node that lists null in a list is nullable. -/
theorem nullable_of_listed (h : Entries.get? node "type" = some (.array types))
    (hmem : .string "null" ∈ types) : (typeKeyword node).nullable = true := by
  rw [typeKeyword_of_list h]
  exact List.contains_iff_mem.mpr (Json.mem_filterMap_string?_iff.mpr hmem)

theorem only?_eq_some_iff {names : List String} : only? names = some name ↔ names = [name] := by
  match names with
  | [] => simp [only?]
  | [found] => simp [only?]
  | first :: second :: rest => simp [only?]

/-- A listed type is null in a list, or the one type, or one of several. -/
theorem listed_cases (h : node.ListsType name) :
    (name = "null" ∧ (typeKeyword node).nullable = true) ∨
      (typeKeyword node).single = some name ∨
        (typeKeyword node).single = none ∧ ∃ types,
          Entries.get? node "type" = some (.array types) ∧ 2 ≤ (otherTypes types).length := by
  cases h with
  | alone htype => exact Or.inr (Or.inl (by rw [typeKeyword, htype]))
  | @listed types htype hmem =>
      by_cases hnull : name = "null"
      · subst hnull
        exact Or.inl ⟨rfl, nullable_of_listed htype hmem⟩
      · right
        have hother : name ∈ otherTypes types := mem_otherTypes_iff.mpr ⟨hmem, hnull⟩
        rw [typeKeyword_of_list htype]
        match hnames : otherTypes types with
        | [] => exact absurd (hnames ▸ hother) List.not_mem_nil
        | [found] =>
            rw [hnames] at hother
            exact Or.inl (congrArg some (List.mem_singleton.mp hother).symm)
        | first :: second :: rest => exact Or.inr ⟨rfl, types, htype, by simp [hnames]⟩

/-! ## The pair in `anyOf` -/

theorem nullableReference?_eq_some_iff {items : List Json} :
    nullableReference? items = some target ↔ PairsWithNull items target := by
  constructor
  · intro h
    unfold nullableReference? at h
    split at h
    · cases h
    · rename_i hlength
      obtain ⟨a, b, rfl⟩ := List.length_eq_two.mp (not_not.mp hlength)
      dsimp only at h
      split at h
      · rename_i hany
        obtain ⟨null, hnullMem, hnull⟩ := List.any_eq_true.mp hany
        obtain ⟨reference, hreferenceMem, href⟩ := List.mem_filterMap.mp (List.mem_of_getLast? h)
        have hnull : null.IsNull := by simpa [IsNull] using hnull
        have hne : null ≠ reference := by
          rintro rfl
          cases href.symm.trans hnull.1
        rw [mem_objectItems_iff, List.mem_pair] at hnullMem hreferenceMem
        rcases hnullMem with rfl | rfl <;> rcases hreferenceMem with heq | heq
        · exact absurd (Json.object.inj heq).symm hne
        · exact heq ▸ .last hnull href
        · exact heq ▸ .first href hnull
        · exact absurd (Json.object.inj heq).symm hne
      · cases h
  · intro h
    cases h with
    | first href hnull =>
        obtain ⟨hdirect, htype⟩ := hnull
        simp [nullableReference?, objectItems, Json.object?, href, hdirect, htype]
    | last hnull href =>
        obtain ⟨hdirect, htype⟩ := hnull
        simp [nullableReference?, objectItems, Json.object?, href, hdirect, htype]

/-! ## Admission -/

theorem admitsType_wrap {descriptor : Descriptor} (h : descriptor.AdmitsType name)
    (nullable : Bool) : (wrap nullable descriptor).AdmitsType name := by
  cases nullable with
  | false => exact h
  | true => exact h.optional

theorem admitsType_wrap_null {nullable : Bool} (h : nullable = true) (descriptor : Descriptor) :
    (wrap nullable descriptor).AdmitsType "null" := by
  rw [wrap, if_pos h]
  exact descriptor.admitsType_optional_null

/-- A node without a reference and without an `enum`, its array types aside. -/
theorem descriptor_eq (href : node.ref? = none) :
    node.descriptor =
      if node.primaryType? = some "array" then
        wrap (typeKeyword node).nullable (.array (ofItems node))
      else plain node (typeKeyword node) := by
  rw [Node.descriptor, ofJson, href]
  simp only [isArray_iff]

theorem admitsType_of_array (h : node.ListsType name) (hvisible : ¬node.HidesType name)
    (harray : node.primaryType? = some "array") :
    (wrap (typeKeyword node).nullable (.array (ofItems node))).AdmitsType name := by
  by_cases hname : name = "array"
  · rw [hname]
    exact admitsType_wrap (.array _) _
  · obtain rfl : name = "null" := by
      by_contra hnull
      exact hvisible ⟨harray, hname, hnull⟩
    cases h with
    | alone htype =>
        rw [primaryType?, htype] at harray
        exact absurd (Option.some.inj harray) (by decide)
    | listed htype hmem => exact admitsType_wrap_null (nullable_of_listed htype hmem) _

theorem admitsType_of_plain (henum : Entries.contains node "enum" = false)
    (h : node.ListsType name) (harray : node.primaryType? ≠ some "array")
    (hfree : ∀ target, ¬node.UnionDecides target) :
    (plain node (typeKeyword node)).AdmitsType name := by
  rw [plain, henum, if_neg Bool.false_ne_true]
  split
  · -- one type besides null
    rename_i found hsingle
    split
    · rename_i scalar hscalar
      rcases listed_cases h with ⟨rfl, hnullable⟩ | hname | ⟨hnone, -⟩
      · exact admitsType_wrap_null hnullable _
      · obtain rfl : found = name := Option.some.inj (hsingle.symm.trans hname)
        exact admitsType_wrap (Scalar.admitsType_of_ofTypeName? hscalar) _
      · cases hsingle.symm.trans hnone
    · exact .dynamic name
  · -- none or several
    rename_i hsingle
    split
    · rename_i target htarget
      rcases listed_cases h with ⟨rfl, -⟩ | hname | ⟨-, hseveral⟩
      · exact .null _
      · cases hsingle.symm.trans hname
      · obtain ⟨items, hitems, hpair⟩ := Option.bind_eq_some_iff.mp htarget
        rw [nullableReference?_eq_some_iff] at hpair
        exact absurd ⟨hseveral, harray, items, hitems, hpair⟩ (hfree target)
    · exact .dynamic name

theorem descriptor_of_unionDecides (href : node.ref? = none)
    (henum : Entries.contains node "enum" = false) (h : node.UnionDecides target) :
    node.descriptor = .nullable (.reference target) := by
  obtain ⟨⟨types, htypes, hlength⟩, harray, items, hitems, hpair⟩ := h
  rw [← nullableReference?_eq_some_iff] at hpair
  have hsingle : (typeKeyword node).single = none := by
    rw [typeKeyword_of_list htypes]
    match hnames : otherTypes types with
    | [] => rfl
    | [found] => simp [hnames] at hlength
    | first :: second :: rest => rfl
  rw [descriptor_eq href, if_neg harray, plain, henum, if_neg Bool.false_ne_true, hsingle, hitems,
    Option.bind_some, hpair]

/-! ## The order of a list -/

theorem ofItems_eq (members : List (String × Json)) :
    ofItems members = ((Entries.get? members "items").map ofJson).getD .dynamic := by
  induction members with
  | nil => rfl
  | cons member rest ih =>
      obtain ⟨key, value⟩ := member
      rw [ofItems, Entries.get?_cons, ih]
      split <;> rfl

/-- In a list that hides nothing, an array comes first only if nothing else is listed. -/
theorem primaryType?_of_reordered (h : TypesReordered node other) (hvisible : ¬node.HidesSome)
    (harray : node.primaryType? = some "array") : other.primaryType? = some "array" := by
  obtain ⟨types, types', htypes, htypes', hperm⟩ := h.types
  have hall : ∀ name ∈ otherTypes types', name = "array" := by
    intro name hname
    obtain ⟨hmem, hnull⟩ := mem_otherTypes_iff.mp hname
    by_contra hne
    exact hvisible ⟨name, .listed htypes (hperm.mem_iff.mpr hmem), harray, hne, hnull⟩
  rw [primaryType?_of_list htypes] at harray
  rw [primaryType?_of_list htypes']
  have harray' : "array" ∈ otherTypes types' := by
    obtain ⟨hmem, hnull⟩ := mem_otherTypes_iff.mp (List.mem_of_head? harray)
    exact mem_otherTypes_iff.mpr ⟨hperm.mem_iff.mp hmem, hnull⟩
  match hnames : otherTypes types' with
  | [] => exact absurd (hnames ▸ harray') List.not_mem_nil
  | first :: rest =>
      rw [List.head?_cons, hall first (hnames ▸ List.mem_cons_self)]

theorem only?_eq_of_perm {names names' : List String} (h : names.Perm names') :
    only? names = only? names' := by
  apply Option.ext
  intro name
  rw [only?_eq_some_iff, only?_eq_some_iff]
  constructor
  · rintro rfl
    exact List.singleton_perm.mp h |>.symm
  · rintro rfl
    exact List.perm_singleton.mp h

theorem typeKeyword_of_reordered (h : TypesReordered node other) (hvisible : ¬node.HidesSome)
    (hvisible' : ¬other.HidesSome) : typeKeyword node = typeKeyword other := by
  have harray : node.primaryType? = some "array" ↔ other.primaryType? = some "array" :=
    ⟨primaryType?_of_reordered h hvisible, primaryType?_of_reordered h.symm hvisible'⟩
  obtain ⟨types, types', htypes, htypes', hperm⟩ := h.types
  rw [primaryType?_of_list htypes, primaryType?_of_list htypes'] at harray
  have hnames := hperm.filterMap Json.string?
  have hothers : (otherTypes types).Perm (otherTypes types') := hnames.filter _
  have hnull : (types.filterMap Json.string?).contains "null" =
      (types'.filterMap Json.string?).contains "null" := by
    rw [Bool.eq_iff_iff, List.contains_iff_mem, List.contains_iff_mem, hnames.mem_iff]
  rw [typeKeyword_of_list htypes, typeKeyword_of_list htypes',
    only?_eq_of_perm hothers, hnull]
  simp only [harray]

theorem ref?_of_reordered (h : TypesReordered node other) : node.ref? = other.ref? := by
  have hdirect : node.directRef? = other.directRef? := by
    rw [directRef?, directRef?, string?, string?, h.get?_eq "$ref" (by decide)]
  have hall : node.allOfRef? = other.allOfRef? := by
    rw [allOfRef?, allOfRef?, array?, array?, h.get?_eq "allOf" (by decide)]
  rw [ref?, ref?, hdirect, hall]

theorem plain_of_reordered (h : TypesReordered node other) (type : TypeKeyword) :
    plain node type = plain other type := by
  have hwidth : Node.width node = Node.width other := by
    rw [Node.width, Node.width, string?, string?, h.get?_eq "format" (by decide)]
  have hscalar (name : String) :
      Scalar.ofTypeName? name node = Scalar.ofTypeName? name other := by
    simp only [Scalar.ofTypeName?, hwidth]
  have henum : Entries.contains node "enum" = Entries.contains other "enum" := by
    rw [Entries.contains, Entries.contains, h.get?_eq "enum" (by decide)]
  have hunion : node.array? "anyOf" = other.array? "anyOf" := by
    rw [array?, array?, h.get?_eq "anyOf" (by decide)]
  rw [plain, plain, henum, hunion]
  cases type.single with
  | none => rfl
  | some name => simp only [hscalar, Option.bind_some]

theorem descriptor_of_reordered (h : TypesReordered node other) (hvisible : ¬node.HidesSome)
    (hvisible' : ¬other.HidesSome) : node.descriptor = other.descriptor := by
  have hitems : ofItems node = ofItems other := by
    rw [ofItems_eq, ofItems_eq, h.get?_eq "items" (by decide)]
  rw [Node.descriptor, Node.descriptor, ofJson, ofJson]
  simp only [ref?_of_reordered h, typeKeyword_of_reordered h hvisible hvisible',
    plain_of_reordered h, hitems]

end Resolve

/-- **Which listed types a descriptor admits.**  In a node without a reference of its own and
without an `enum`, they are all those that no array hides, unless `anyOf` decides; then the
descriptor is the reference in it, or null.  The order of a list does not matter where it hides
nothing. -/
theorem Node.types_admitted {node : Node} (href : node.ref? = none)
    (henum : Entries.contains node "enum" = false) :
    (∀ name, node.ListsType name → ¬node.HidesType name →
      (∀ target, ¬node.UnionDecides target) → node.descriptor.AdmitsType name) ∧
    (∀ target, node.UnionDecides target → node.descriptor = .nullable (.reference target)) ∧
    ∀ other, TypesReordered node other → ¬node.HidesSome → ¬other.HidesSome →
      node.descriptor = other.descriptor := by
  refine ⟨?_, ?_, ?_⟩
  · intro name hlists hvisible hfree
    rw [Resolve.descriptor_eq href]
    by_cases harray : node.primaryType? = some "array"
    · rw [if_pos harray]
      exact Resolve.admitsType_of_array hlists hvisible harray
    · rw [if_neg harray]
      exact Resolve.admitsType_of_plain henum hlists harray hfree
  · intro target hdecides
    exact Resolve.descriptor_of_unionDecides href henum hdecides
  · intro other hreordered hvisible hvisible'
    exact Resolve.descriptor_of_reordered hreordered hvisible hvisible'

/-- Null in front of an integer, and behind it. -/
theorem Node.types_admitted_nullable :
    let format : String × Json := ("format", .string "uint16")
    let node : Node := [("type", .array [.string "null", .string "integer"]), format]
    let other : Node := [format, ("type", .array [.string "integer", .string "null"])]
    (node.ref? = none ∧ Entries.contains node "enum" = false ∧ node.ListsType "integer" ∧
      ¬node.HidesType "integer" ∧ (∀ target, ¬node.UnionDecides target) ∧
      TypesReordered node other ∧ ¬node.HidesSome ∧ ¬other.HidesSome) ∧
    node.descriptor.AdmitsType "integer" ∧ node.descriptor = other.descriptor := by
  intro format node other
  have href : node.ref? = none := by decide
  have henum : Entries.contains node "enum" = false := by decide
  have hlists : node.ListsType "integer" := .listed rfl (List.mem_cons_of_mem _ List.mem_cons_self)
  have hfirst : node.primaryType? ≠ some "array" := by decide
  have hfirst' : other.primaryType? ≠ some "array" := by decide
  have hfree : ∀ target, ¬node.UnionDecides target := by
    rintro target ⟨-, -, items, hitems, -⟩
    cases hitems
  have hreordered : TypesReordered node other := by
    refine ⟨fun key hkey => ?_, _, _, rfl, rfl, List.Perm.swap _ _ _⟩
    simp [node, other, format, Entries.get?_cons, Ne.symm hkey]
  have hvisible : ¬node.HidesSome := fun ⟨_, _, hfound, _⟩ => hfirst hfound
  have hvisible' : ¬other.HidesSome := fun ⟨_, _, hfound, _⟩ => hfirst' hfound
  have hinteger : ¬node.HidesType "integer" := fun h => hfirst h.1
  obtain ⟨hadmits, -, horder⟩ := Node.types_admitted href henum
  exact ⟨⟨href, henum, hlists, hinteger, hfree, hreordered, hvisible, hvisible'⟩,
    hadmits "integer" hlists hinteger hfree, horder other hreordered hvisible hvisible'⟩

/-! ## Types that are lost -/

/-- Two types beside a reference or null. -/
def referredNode : Node :=
  [("type", .array [.string "string", .string "object"]),
    ("anyOf", .array [.object [("$ref", .string "#/$defs/Label")],
      .object [("type", .string "null")]])]

/-- An array in front of a string. -/
def arrayFirstNode : Node :=
  [("type", .array [.string "array", .string "string"])]

def arrayLastNode : Node :=
  [("type", .array [.string "string", .string "array"])]

/-- A string is lost to the reference in `anyOf`, and behind an array; in front of the array it is
not. -/
theorem Node.types_lost :
    (referredNode.ref? = none ∧ Entries.contains referredNode "enum" = false ∧
      referredNode.ListsType "string" ∧ ¬referredNode.descriptor.AdmitsType "string") ∧
    arrayFirstNode.ref? = none ∧ Entries.contains arrayFirstNode "enum" = false ∧
      arrayFirstNode.ListsType "string" ∧ ¬arrayFirstNode.descriptor.AdmitsType "string" ∧
      TypesReordered arrayFirstNode arrayLastNode ∧
      arrayFirstNode.descriptor ≠ arrayLastNode.descriptor := by
  have hreferred : referredNode.descriptor = .nullable (.reference "Label") := by decide
  have hfirst : arrayFirstNode.descriptor = .array .dynamic := by decide
  have hlast : arrayLastNode.descriptor = .dynamic := by decide
  have hreordered : TypesReordered arrayFirstNode arrayLastNode := by
    refine ⟨?_, _, _, rfl, rfl, List.Perm.swap _ _ _⟩
    intro key hkey
    simp [arrayFirstNode, arrayLastNode, Entries.get?_cons, Ne.symm hkey]
  refine ⟨⟨by decide, by decide, .listed rfl List.mem_cons_self, ?_⟩, by decide, by decide,
    .listed rfl (List.mem_cons_of_mem _ List.mem_cons_self), ?_, hreordered, ?_⟩
  · rw [hreferred, Descriptor.admitsType_nullable_iff]
    rintro (hnull | h)
    · exact absurd hnull (by decide)
    · exact Descriptor.not_admitsType_reference _ _ h
  · rw [hfirst, Descriptor.admitsType_array_iff]
    decide
  · rw [hfirst, hlast]
    exact Descriptor.noConfusion

end SchemaCompiler
