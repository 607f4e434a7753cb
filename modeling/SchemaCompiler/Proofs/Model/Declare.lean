import SchemaCompiler.Model.Build
import SchemaCompiler.Proofs.Document
import SchemaCompiler.Proofs.Fallible

/-!
# What a definition declares

`Declares` lists the forms of a definition in the order in which they are tried, each with the
reasons why no earlier form applies; `declare` gives exactly what one of them gives
(`declare_eq_ok_iff`).  A document declares what its definitions declare, one after the other.
-/

namespace SchemaCompiler.Build

open Fallible

/-- What has branches is no plain alias. -/
theorem isPlainAlias_eq_false {node : Node} {key : String} (hkey : key ∈ ["oneOf", "anyOf"])
    {items : List Json} (h : node.array? key = some items) : isPlainAlias node = false := by
  have hcontains := Node.contains_of_array? h
  have hstructural : structuralKeywords.any (fun keyword =>
      !(node.primaryType? = some "array" && keyword = "items") &&
        Entries.contains node keyword) = true := by
    refine List.any_eq_true.mpr ⟨key, ?_, ?_⟩
    · rcases List.mem_pair.mp hkey with rfl | rfl <;> decide
    · rcases List.mem_pair.mp hkey with rfl | rfl <;> simp [hcontains]
  rw [isPlainAlias]
  simp only [hstructural, Bool.not_true, Bool.and_false]

/-- The one type that carries the name of a definition. -/
def single (definition : Definition) (result : TypeBody × List Notice) :
    List TypeDecl × List Notice :=
  ([TypeDecl.ofDefinition definition.name definition.description? result.1], result.2)

inductive Declares (source : Source) (definition : Definition) :
    List TypeDecl × List Notice → Prop where
  | promoted {derived : Derived}
      (hderived : source.hierarchy.derived? definition.name = some derived) :
      Declares source definition
        (single definition (promoted source.document definition derived))
  | plainAlias (hderived : source.hierarchy.derived? definition.name = none)
      (halias : isPlainAlias definition.node = true) :
      Declares source definition
        (single definition (.aliasOf (known source.document definition.node.descriptor), []))
  | enumeration {values : Json} {result : TypeBody × List Notice}
      (hderived : source.hierarchy.derived? definition.name = none)
      (halias : isPlainAlias definition.node = false)
      (henum : Entries.get? definition.node "enum" = some values)
      (hresult : enumOfValues definition values = .ok result) :
      Declares source definition (single definition result)
  | tagged {base : Base} (hderived : source.hierarchy.derived? definition.name = none)
      (halias : isPlainAlias definition.node = false)
      (henum : Entries.get? definition.node "enum" = none)
      (hbase : source.hierarchy.base? definition.name = some base) :
      Declares source definition (tagged source.document definition base)
  | untagged {base : AbstractBase}
      (hderived : source.hierarchy.derived? definition.name = none)
      (halias : isPlainAlias definition.node = false)
      (henum : Entries.get? definition.node "enum" = none)
      (hbase : source.hierarchy.base? definition.name = none)
      (habstract : source.hierarchy.abstractBase? definition.name = some base) :
      Declares source definition (single definition (untagged source.document base, []))
  | structural {result : TypeBody × List Notice}
      (hderived : source.hierarchy.derived? definition.name = none)
      (halias : isPlainAlias definition.node = false)
      (henum : Entries.get? definition.node "enum" = none)
      (hbase : source.hierarchy.base? definition.name = none)
      (habstract : source.hierarchy.abstractBase? definition.name = none)
      (hresult : structural source.document definition = .ok result) :
      Declares source definition (single definition result)

theorem declare_eq_ok_iff {source : Source} {definition : Definition}
    {result : List TypeDecl × List Notice} :
    declare source definition = .ok result ↔ Declares source definition result := by
  constructor
  · intro h
    rw [declare] at h
    split at h
    · rename_i derived hderived
      cases h
      exact .promoted hderived
    · rename_i hderived
      split at h
      · rename_i halias
        cases h
        exact .plainAlias hderived halias
      · rename_i halias
        have halias := Bool.eq_false_iff.mpr halias
        split at h
        · rename_i values henum
          obtain ⟨body, hbody, rfl⟩ := map_eq_ok_iff.mp h
          exact .enumeration hderived halias henum hbody
        · rename_i henum
          split at h
          · rename_i base hbase
            cases h
            exact .tagged hderived halias henum hbase
          · rename_i hbase
            split at h
            · rename_i base habstract
              cases h
              exact .untagged hderived halias henum hbase habstract
            · rename_i habstract
              obtain ⟨body, hbody, rfl⟩ := map_eq_ok_iff.mp h
              exact .structural hderived halias henum hbase habstract hbody
  · intro h
    cases h with
    | promoted hderived => simp [declare, hderived, single]
    | plainAlias hderived halias => simp [declare, hderived, halias, single]
    | enumeration hderived halias henum hresult =>
        simp [declare, hderived, halias, henum, hresult, Except.map, single]
    | tagged hderived halias henum hbase => simp [declare, hderived, halias, henum, hbase]
    | untagged hderived halias henum hbase habstract =>
        simp [declare, hderived, halias, henum, hbase, habstract, single]
    | structural hderived halias henum hbase habstract hresult =>
        simp [declare, hderived, halias, henum, hbase, habstract, hresult, Except.map, single]

/-- Whatever its form, a definition declares one type under its own name. -/
theorem Declares.exists_ofDefinition {source : Source} {definition : Definition}
    {result : List TypeDecl × List Notice} (h : Declares source definition result) :
    ∃ body, TypeDecl.ofDefinition definition.name definition.description? body ∈ result.1 := by
  cases h <;> exact ⟨_, List.mem_cons_self⟩

/-! ## The last form -/

theorem exists_toBody_of_enumOfValues {definition : Definition} {values : Json}
    {result : TypeBody × List Notice} (h : enumOfValues definition values = .ok result) :
    ∃ (members : Members) (form : EnumForm), result.1 = members.toBody form := by
  rw [enumOfValues.eq_def] at h
  split at h
  · obtain ⟨⟨members, notices⟩, -, h⟩ := bind_eq_ok_iff.mp h
    cases h
    exact ⟨members, _, rfl⟩
  · cases h

/-- What is left for a definition of no other form. -/
inductive Structured (document : Document) (definition : Definition) : TypeBody → Prop where
  | enumeration (members : Members) (form : EnumForm) :
      Structured document definition (members.toBody form)
  | union (alternatives : List Wire.AlternativeKind) (nullable : Bool) :
      Structured document definition (.union alternatives nullable)
  | record :
      Structured document definition (.record (fields document definition.name
        (Naming.typeName definition.name) (PropertySet.ofRecord definition.node)).1)
  | dynamic : Structured document definition (.aliasOf .dynamic)
  | aliasOf :
      Structured document definition (.aliasOf (known document definition.node.descriptor))

theorem structured_of_structural {document : Document} {definition : Definition}
    {result : TypeBody × List Notice} (h : structural document definition = .ok result) :
    Structured document definition result.1 := by
  rw [structural] at h
  dsimp only at h
  split at h
  · split at h
    · obtain ⟨⟨members, notices⟩, -, h⟩ := bind_eq_ok_iff.mp h
      cases h
      exact .enumeration members _
    · split at h
      · cases h
        exact .union _ _
      · split at h
        · cases h
          exact .record
        · cases h
          exact .dynamic
  · split at h
    · cases h
      exact .record
    · cases h
      exact .aliasOf

/-! ## Tagged types -/

theorem toBody_cases (members : Members) (form : EnumForm) :
    (∃ items catchAll, members.toBody form = .enumeration form items catchAll) ∨
      ∃ width, members.toBody form = .aliasOf (.scalar (.integer width)) := by
  cases form with
  | string => exact Or.inl ⟨_, _, rfl⟩
  | integer width =>
      rw [Members.toBody]
      split
      · exact Or.inr ⟨width, rfl⟩
      · exact Or.inl ⟨_, _, rfl⟩

/-- Members make an enumeration or an alias for integers, and no other body. -/
theorem toBody_ne {body : TypeBody}
    (henum : ∀ form items catchAll, .enumeration form items catchAll ≠ body)
    (halias : ∀ target, .aliasOf target ≠ body) (members : Members) (form : EnumForm) :
    members.toBody form ≠ body := by
  rcases toBody_cases members form with ⟨items, catchAll, hform⟩ | ⟨width, hform⟩
  · rw [hform]
    exact henum form items catchAll
  · rw [hform]
    exact halias _

theorem ne_of_enumOfValues {definition : Definition} {values : Json}
    {result : TypeBody × List Notice} (h : enumOfValues definition values = .ok result)
    {body : TypeBody} (henum : ∀ form items catchAll, .enumeration form items catchAll ≠ body)
    (halias : ∀ target, .aliasOf target ≠ body) : result.1 ≠ body := by
  obtain ⟨members, form, hform⟩ := exists_toBody_of_enumOfValues h
  rw [hform]
  exact toBody_ne henum halias members form

/-- Neither a tagged type nor a case of one. -/
def Independent : TypeBody → Prop
  | .tagged _ _ | .variant _ _ _ => False
  | .aliasOf _ | .enumeration _ _ _ | .untagged _ | .union _ _ | .record _ => True

theorem independent_toBody (members : Members) (form : EnumForm) :
    Independent (members.toBody form) := by
  rcases toBody_cases members form with ⟨items, catchAll, hbody⟩ | ⟨width, hbody⟩
  · rw [hbody]
    exact trivial
  · rw [hbody]
    exact trivial

theorem independent_untagged (document : Document) (base : AbstractBase) :
    Independent (untagged document base) := by
  rw [untagged]
  split <;> exact trivial

theorem Structured.independent {document : Document} {definition : Definition} {body : TypeBody}
    (h : Structured document definition body) : Independent body := by
  cases h with
  | enumeration members form => exact independent_toBody members form
  | _ => exact trivial

/-- How a definition comes to declare a type. -/
inductive DeclaresType (source : Source) (definition : Definition) : TypeDecl → Prop where
  | promoted {derived : Derived}
      (hderived : source.hierarchy.derived? definition.name = some derived) :
      DeclaresType source definition (.ofDefinition definition.name definition.description?
        (promoted source.document definition derived).1)
  | tagged {base : Base} (hderived : source.hierarchy.derived? definition.name = none)
      (halias : isPlainAlias definition.node = false)
      (henum : Entries.get? definition.node "enum" = none)
      (hbase : source.hierarchy.base? definition.name = some base) :
      DeclaresType source definition (.ofDefinition definition.name definition.description?
        (.tagged base.property (base.branches.map fun branch =>
          ⟨branch.value, branch.caseName, branch.typeName⟩)))
  | wrapper {base : Base} (hbase : source.hierarchy.base? definition.name = some base)
      {branch : Branch} (hbranch : branch ∈ base.branches)
      (hpromoted : branch.isPromoted = false) :
      DeclaresType source definition (wrapper source.document definition base branch).1
  | independent {body : TypeBody} (hbody : Independent body) :
      DeclaresType source definition
        (.ofDefinition definition.name definition.description? body)

theorem Declares.declaresType {source : Source} {definition : Definition}
    {result : List TypeDecl × List Notice} (h : Declares source definition result)
    {type : TypeDecl} (htype : type ∈ result.1) : DeclaresType source definition type := by
  cases h with
  | promoted hderived =>
      rw [List.mem_singleton.mp htype]
      exact .promoted hderived
  | plainAlias _ _ =>
      rw [List.mem_singleton.mp htype]
      exact .independent trivial
  | enumeration _ _ _ hresult =>
      rw [List.mem_singleton.mp htype]
      obtain ⟨members, form, hform⟩ := exists_toBody_of_enumOfValues hresult
      exact .independent (hform ▸ independent_toBody members form)
  | tagged hderived halias henum hbase =>
      rcases List.mem_cons.mp htype with hown | hwrapper
      · rw [hown]
        exact .tagged hderived halias henum hbase
      · obtain ⟨declared, hdeclared, rfl⟩ := List.mem_map.mp hwrapper
        obtain ⟨branch, hbranch, rfl⟩ := List.mem_map.mp hdeclared
        obtain ⟨hmem, hpromoted⟩ := List.mem_filter.mp hbranch
        exact .wrapper hbase hmem (by simpa using hpromoted)
  | untagged _ _ _ _ _ =>
      rw [List.mem_singleton.mp htype]
      exact .independent (independent_untagged _ _)
  | structural _ _ _ _ _ hresult =>
      rw [List.mem_singleton.mp htype]
      exact .independent (structured_of_structural hresult).independent

/-- A tagged type is declared for a base, with a case for each of its branches. -/
theorem Declares.exists_base_of_tagged {source : Source} {definition : Definition}
    {result : List TypeDecl × List Notice} (h : Declares source definition result)
    {type : TypeDecl} (htype : type ∈ result.1) {property : String} {cases : List TaggedCase}
    (hbody : type.body = .tagged property cases) :
    ∃ base, source.hierarchy.base? definition.name = some base ∧
      result.1 = (Build.tagged source.document definition base).1 ∧
      type = .ofDefinition definition.name definition.description?
        (.tagged base.property (base.branches.map fun branch =>
          ⟨branch.value, branch.caseName, branch.typeName⟩)) := by
  cases h.declaresType htype with
  | tagged hderived halias henum hbase =>
      have hresult := (declare_eq_ok_iff.mpr h).symm.trans
        (declare_eq_ok_iff.mpr (.tagged hderived halias henum hbase))
      exact ⟨_, hbase, congrArg Prod.fst (Except.ok.inj hresult), rfl⟩
  | promoted _ => cases hbody
  | wrapper _ _ _ => cases hbody
  | independent hindependent =>
      obtain rfl : _ = TypeBody.tagged property cases := hbody
      exact hindependent.elim

/-! ## Bodies of types -/

/-- Where the body of a declared type comes from. -/
inductive BodyOf (source : Source) (definition : Definition) : TypeBody → Prop where
  | variant (base value : String) (fields : List Field) :
      BodyOf source definition (.variant base value fields)
  | tagged (property : String) (cases : List TaggedCase) :
      BodyOf source definition (.tagged property cases)
  | plainAlias :
      BodyOf source definition (.aliasOf (known source.document definition.node.descriptor))
  | enumeration {values : Json} {result : TypeBody × List Notice}
      (henum : Entries.get? definition.node "enum" = some values)
      (hresult : enumOfValues definition values = .ok result) : BodyOf source definition result.1
  | untagged {base : AbstractBase}
      (habstract : source.hierarchy.abstractBase? definition.name = some base) :
      BodyOf source definition (untagged source.document base)
  | structural {result : TypeBody × List Notice}
      (henum : Entries.get? definition.node "enum" = none)
      (hresult : structural source.document definition = .ok result) :
      BodyOf source definition result.1

theorem Declares.bodyOf {source : Source} {definition : Definition}
    {result : List TypeDecl × List Notice} (h : Declares source definition result)
    {type : TypeDecl} (htype : type ∈ result.1) :
    type.definition = definition.name ∧ BodyOf source definition type.body := by
  cases h with
  | promoted hderived =>
      rw [List.mem_singleton.mp htype]
      exact ⟨rfl, .variant _ _ _⟩
  | plainAlias hderived halias =>
      rw [List.mem_singleton.mp htype]
      exact ⟨rfl, .plainAlias⟩
  | enumeration hderived halias henum hresult =>
      rw [List.mem_singleton.mp htype]
      exact ⟨rfl, .enumeration henum hresult⟩
  | tagged hderived halias henum hbase =>
      rcases List.mem_cons.mp htype with rfl | hwrapper
      · exact ⟨rfl, .tagged _ _⟩
      · obtain ⟨declared, hdeclared, rfl⟩ := List.mem_map.mp hwrapper
        obtain ⟨branch, -, rfl⟩ := List.mem_map.mp hdeclared
        exact ⟨rfl, .variant _ _ _⟩
  | untagged hderived halias henum hbase habstract =>
      rw [List.mem_singleton.mp htype]
      exact ⟨rfl, .untagged habstract⟩
  | structural hderived halias henum hbase habstract hresult =>
      rw [List.mem_singleton.mp htype]
      exact ⟨rfl, .structural henum hresult⟩

theorem untagged_cases (document : Document) (base : AbstractBase) :
    untagged document base = .aliasOf .dynamic ∨
      ∃ cases, untagged document base = .untagged cases := by
  rw [untagged]
  split
  · exact Or.inl rfl
  · exact Or.inr ⟨_, rfl⟩

theorem Structured.of_record {document : Document} {definition : Definition} {body : TypeBody}
    (h : Structured document definition body) {found : List Field} (hbody : body = .record found) :
    found = (fields document definition.name (Naming.typeName definition.name)
      (PropertySet.ofRecord definition.node)).1 := by
  cases h with
  | enumeration members form =>
      exact absurd hbody
        (toBody_ne (fun _ _ _ => TypeBody.noConfusion) (fun _ => TypeBody.noConfusion) members form)
  | record => exact (TypeBody.record.inj hbody).symm
  | _ => cases hbody

/-- A record is declared with the fields of its definition. -/
theorem Declares.of_record {source : Source} {definition : Definition}
    {result : List TypeDecl × List Notice} (h : Declares source definition result)
    {type : TypeDecl} (htype : type ∈ result.1) {found : List Field}
    (hbody : type.body = .record found) :
    type.definition = definition.name ∧
      found = (fields source.document definition.name (Naming.typeName definition.name)
        (PropertySet.ofRecord definition.node)).1 := by
  obtain ⟨hname, hsource⟩ := h.bodyOf htype
  generalize type.body = body at hbody hsource
  cases hsource with
  | enumeration henum hresult =>
      exact absurd hbody (ne_of_enumOfValues hresult (fun _ _ _ => TypeBody.noConfusion)
        fun _ => TypeBody.noConfusion)
  | @untagged base habstract =>
      rcases untagged_cases source.document base with hform | ⟨cases, hform⟩
      · cases hform.symm.trans hbody
      · cases hform.symm.trans hbody
  | structural henum hresult =>
      exact ⟨hname, (structured_of_structural hresult).of_record hbody⟩
  | _ => cases hbody

/-! ## All definitions -/

/-- The types of one definition, none if it is refused. -/
def typesOf (source : Source) (definition : Definition) : List TypeDecl :=
  match declare source definition with
  | .ok (types, _) => types
  | .error _ => []

theorem typesOf_eq {source : Source} {definition : Definition} {types : List TypeDecl}
    {notices : List Notice} (h : declare source definition = .ok (types, notices)) :
    typesOf source definition = types := by
  rw [typesOf, h]

theorem declareAll_ok {source : Source} {definitions : List Definition} {types : List TypeDecl}
    {notices : List Notice} (h : declareAll source definitions = .ok (types, notices)) :
    types = definitions.flatMap (typesOf source) ∧
      ∀ definition ∈ definitions, ∃ notices,
        Declares source definition (typesOf source definition, notices) := by
  induction definitions generalizing types notices with
  | nil =>
      cases h
      exact ⟨rfl, fun definition hmem => absurd hmem List.not_mem_nil⟩
  | cons definition rest ih =>
      obtain ⟨⟨own, found⟩, hown, h⟩ := bind_eq_ok_iff.mp h
      obtain ⟨⟨more, moreNotices⟩, hmore, h⟩ := bind_eq_ok_iff.mp h
      cases h
      obtain ⟨rfl, hrest⟩ := ih hmore
      have htypes := typesOf_eq hown
      constructor
      · rw [List.flatMap_cons, htypes]
      · intro other hother
        rcases List.mem_cons.mp hother with rfl | hother
        · exact ⟨found, declare_eq_ok_iff.mp (htypes ▸ hown)⟩
        · exact hrest other hother

end SchemaCompiler.Build
