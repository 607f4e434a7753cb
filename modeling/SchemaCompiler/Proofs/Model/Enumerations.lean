import SchemaCompiler.Proofs.Model.Cases
import SchemaCompiler.Proofs.Model.Members

/-!
# What an enumeration is made of

An enumeration comes from the values of an `enum`, or from branches that are all of one kind and
carry a constant or a title.  Either way it is first decided what each of them adds, and then a run
adds one after the other (`membersOfValues_eq`, `membersOfItems_eq`).  Every emitted enumeration is
the result of such a run (`Compilation.enumerates`).
-/

namespace SchemaCompiler

open Fallible

namespace Build

/-! ## From values and from items -/

/-- What a value of an `enum` adds. -/
def additionOfValue (definition : String) (form : EnumForm) (value : Json) :
    Except SchemaError Addition :=
  (memberValue definition form value).map fun text =>
    .member (Naming.caseName (Wire.literalText value)) text none

/-- The title of an item, unless it is empty. -/
def titleOf? (item : Node) : Option String :=
  (item.string? "title").filter (!·.isEmpty)

/-- What an item adds; nothing if it has no name. -/
def additionOfItem (definition : String) (form : EnumForm) (item : Node) :
    Except SchemaError (Option Addition) :=
  match itemName? (titleOf? item) (Entries.get? item "const") with
  | none => .ok none
  | some name =>
    match Entries.get? item "const" with
    | some value =>
      (memberValue definition form value).map fun text =>
        some (.member name text item.description?)
    | none =>
      match form with
      | .integer _ => .ok (some (.catchAll name item.description?))
      | .string => .ok ((titleOf? item).map fun title => .member name title item.description?)

theorem membersOfValues_eq (definition : String) (form : EnumForm) (members : Members)
    (values : List Json) :
    membersOfValues definition form members values =
      (values.mapM (additionOfValue definition form)).map (members.addAll definition) := by
  induction values generalizing members with
  | nil => rfl
  | cons value rest ih =>
      rw [membersOfValues, List.mapM_cons, additionOfValue]
      cases memberValue definition form value with
      | error e => rfl
      | ok text =>
          simp only [bind, Except.bind, Except.map, ih]
          cases rest.mapM (additionOfValue definition form) with
          | error e => rfl
          | ok additions => rfl

theorem pushItem_eq (definition : String) (form : EnumForm) (members : Members) (item : Node) :
    pushItem definition form members item =
      (additionOfItem definition form item).map fun addition =>
        members.addAll definition addition.toList := by
  rw [pushItem, additionOfItem]
  cases hname : itemName? (titleOf? item) (Entries.get? item "const") with
  | none =>
      simp only [titleOf?] at hname
      simp only [hname]
      rfl
  | some name =>
      simp only [titleOf?] at hname
      simp only [hname]
      cases Entries.get? item "const" with
      | some value =>
          cases hvalue : memberValue definition form value with
          | error e => simp only [hvalue]; rfl
          | ok text =>
              simp only [hvalue, Except.map, Option.toList_some, Members.addAll_singleton]
              rfl
      | none =>
          cases form with
          | integer width => simp [Except.map, Members.addAll_singleton, Members.add]
          | string =>
              rw [titleOf?]
              cases (item.string? "title").filter (!·.isEmpty) with
              | none => rfl
              | some title => simp [Except.map, Members.addAll_singleton, Members.add]

theorem membersOfItems_eq (definition : String) (form : EnumForm) (members : Members)
    (items : List Node) :
    membersOfItems definition form members items =
      (items.mapM (additionOfItem definition form)).map fun found =>
        members.addAll definition (found.filterMap id) := by
  induction items generalizing members with
  | nil => rfl
  | cons item rest ih =>
      rw [membersOfItems, List.mapM_cons, pushItem_eq]
      cases additionOfItem definition form item with
      | error e => rfl
      | ok addition =>
          simp only [bind, Except.bind, Except.map, ih]
          cases rest.mapM (additionOfItem definition form) with
          | error e => rfl
          | ok found =>
              have hcons : (addition :: found).filterMap id =
                  addition.toList ++ found.filterMap id := by
                cases addition <;> rfl
              simp only [pure, Except.pure, hcons, Members.addAll_append]

/-- What the values of an `enum` are, from the type of the node. -/
def formOfValues (node : Node) : EnumForm :=
  if node.primaryType? = some "integer" then .integer node.width else .string

/-- What a definition adds to the members of its enumeration, in order. -/
inductive Enumerates (definition : Definition) : EnumForm → List Addition → Prop where
  | values {listed : List Json} {additions : List Addition}
      (henum : Entries.get? definition.node "enum" = some (.array listed))
      (hadditions : (listed.filter (!·.kind = .null)).mapM
        (additionOfValue definition.name (formOfValues definition.node)) = .ok additions) :
      Enumerates definition (formOfValues definition.node) additions
  | items {items : List Json} {form : EnumForm} {found : List (Option Addition)}
      (henum : Entries.get? definition.node "enum" = none)
      (hitems : PropertySet.branches? definition.node = some items)
      (hform : enumFormOf? items = some form)
      (hfound : (Node.objectItems items).mapM (additionOfItem definition.name form) = .ok found) :
      Enumerates definition form (found.filterMap id)

/-- Whatever is added is what some value or some item adds. -/
theorem Enumerates.exists_source {definition : Definition} {form : EnumForm}
    {additions : List Addition} (h : Enumerates definition form additions) {addition : Addition}
    (haddition : addition ∈ additions) :
    (∃ value, additionOfValue definition.name form value = .ok addition) ∨
      ∃ item, additionOfItem definition.name form item = .ok (some addition) := by
  cases h with
  | values henum hadditions =>
      obtain ⟨value, -, hvalue⟩ := exists_of_mem_of_mapM hadditions haddition
      exact Or.inl ⟨value, hvalue⟩
  | items henum hitems hform hfound =>
      obtain ⟨item, -, hitem⟩ := exists_of_mem_filterMap_of_mapM hfound haddition
      exact Or.inr ⟨item, hitem⟩

/-- The members that a run gives a definition. -/
def membersOf (definition : String) (additions : List Addition) : Members :=
  (Members.empty.addAll definition additions).1

theorem exists_enumerates_of_enumOfValues {definition : Definition} {values : Json}
    {result : TypeBody × List Notice}
    (henum : Entries.get? definition.node "enum" = some values)
    (h : enumOfValues definition values = .ok result) :
    ∃ form additions, Enumerates definition form additions ∧
      result.1 = (membersOf definition.name additions).toBody form := by
  rw [enumOfValues.eq_def] at h
  split at h
  · obtain ⟨⟨members, notices⟩, hmembers, h⟩ := bind_eq_ok_iff.mp h
    cases h
    rw [membersOfValues_eq] at hmembers
    obtain ⟨additions, hadditions, hrun⟩ := map_eq_ok_iff.mp hmembers
    exact ⟨_, additions, .values henum hadditions,
      congrArg (fun run : Members × List Notice => run.1.toBody _) hrun.symm⟩
  · cases h

theorem exists_enumerates_of_structural {document : Document} {definition : Definition}
    {result : TypeBody × List Notice} {form : EnumForm} {members : List EnumMember}
    {catchAll : Option CatchAll}
    (henum : Entries.get? definition.node "enum" = none)
    (h : structural document definition = .ok result)
    (hbody : result.1 = .enumeration form members catchAll) :
    ∃ form additions, Enumerates definition form additions ∧
      result.1 = (membersOf definition.name additions).toBody form := by
  rw [structural] at h
  dsimp only at h
  split at h
  · rename_i items hitems
    split at h
    · rename_i form hform
      obtain ⟨⟨members, notices⟩, hmembers, h⟩ := bind_eq_ok_iff.mp h
      cases h
      rw [membersOfItems_eq] at hmembers
      obtain ⟨found, hfound, hrun⟩ := map_eq_ok_iff.mp hmembers
      exact ⟨form, _, .items henum hitems hform hfound,
        congrArg (fun run : Members × List Notice => run.1.toBody _) hrun.symm⟩
    · split at h
      · cases h
        cases hbody
      · split at h
        · cases h
          cases hbody
        · cases h
          cases hbody
  · split at h
    · cases h
      cases hbody
    · cases h
      cases hbody

/-- An enumeration has the items it was made from, and some if it is one of integers. -/
theorem of_toBody_eq_enumeration {members : Members} {form form' : EnumForm}
    {items : List EnumMember} {catchAll : Option CatchAll}
    (h : members.toBody form = .enumeration form' items catchAll) :
    form = form' ∧ members.items = items ∧ (catchAll = none ∨ catchAll = members.catchAll) ∧
      (form' ≠ .string → items ≠ []) := by
  cases form with
  | string =>
      obtain ⟨rfl, rfl, rfl⟩ := TypeBody.enumeration.inj h
      exact ⟨rfl, rfl, Or.inl rfl, fun hform => absurd rfl hform⟩
  | integer width =>
      rw [Members.toBody] at h
      split at h
      · cases h
      · rename_i hitems
        obtain ⟨rfl, rfl, rfl⟩ := TypeBody.enumeration.inj h
        exact ⟨rfl, rfl, Or.inr rfl, fun _ => by simpa using hitems⟩

/-- An enumeration has the values that were added, each once. -/
theorem values_of_toBody {name : String} {additions : List Addition} {form form' : EnumForm}
    {items : List EnumMember} {catchAll : Option CatchAll}
    (h : (membersOf name additions).toBody form = .enumeration form' items catchAll) :
    items.map (·.value) = (additions.filterMap Addition.value?).eraseDups := by
  obtain ⟨-, hitems, -, -⟩ := of_toBody_eq_enumeration h
  rw [← hitems]
  exact Members.values_addAll_empty name additions

/-- An enumeration that a definition declares is the result of a run. -/
theorem Declares.enumerates {source : Source} {definition : Definition}
    {result : List TypeDecl × List Notice} (h : Declares source definition result)
    {type : TypeDecl} (htype : type ∈ result.1) {form : EnumForm} {members : List EnumMember}
    {catchAll : Option CatchAll} (hbody : type.body = .enumeration form members catchAll) :
    type.definition = definition.name ∧ ∃ additions, Enumerates definition form additions ∧
      (membersOf definition.name additions).toBody form = .enumeration form members catchAll := by
  have hfound {body : TypeBody} (hform : ∃ form additions, Enumerates definition form additions ∧
      body = (membersOf definition.name additions).toBody form)
      (hbody : body = .enumeration form members catchAll) :
      ∃ additions, Enumerates definition form additions ∧
        (membersOf definition.name additions).toBody form =
          .enumeration form members catchAll := by
    obtain ⟨form', additions, henumerates, hrun⟩ := hform
    have htoBody := hrun.symm.trans hbody
    obtain ⟨rfl, -⟩ := of_toBody_eq_enumeration htoBody
    exact ⟨additions, henumerates, htoBody⟩
  obtain ⟨hname, hsource⟩ := h.bodyOf htype
  generalize type.body = body at hbody hsource
  cases hsource with
  | enumeration henum hresult =>
      exact ⟨hname, hfound (exists_enumerates_of_enumOfValues henum hresult) hbody⟩
  | @untagged base habstract =>
      rcases untagged_cases source.document base with hform | ⟨cases, hform⟩
      · cases hform.symm.trans hbody
      · cases hform.symm.trans hbody
  | structural henum hresult =>
      exact ⟨hname, hfound (exists_enumerates_of_structural henum hresult hbody) hbody⟩
  | _ => cases hbody

end Build

namespace Compilation

variable {document : Document} (run : Compilation document)

theorem enumeration_emitted_iff {type : TypeDecl} {form : EnumForm} {members : List EnumMember}
    {catchAll : Option CatchAll} :
    (run.emitted type).body = .enumeration form members catchAll ↔
      type.body = .enumeration form members catchAll :=
  run.body_emitted_iff (fun _ => TypeBody.noConfusion) fun _ _ _ => TypeBody.noConfusion

/-- Every emitted enumeration is the result of a run over what its definition lists. -/
theorem enumerates {type : TypeDecl} (htype : type ∈ run.model.types) {form : EnumForm}
    {members : List EnumMember} {catchAll : Option CatchAll}
    (hbody : type.body = .enumeration form members catchAll) :
    ∃ definition, document.get? type.definition = some definition ∧
      ∃ additions, Build.Enumerates definition form additions ∧
        (Build.membersOf definition.name additions).toBody form =
          .enumeration form members catchAll := by
  obtain ⟨declared, hdeclared, rfl⟩ := run.mem_model_types_iff.mp htype
  obtain ⟨definition, hdefinition, hmem⟩ := run.mem_types_iff.mp hdeclared
  obtain ⟨notices, hdeclares⟩ := run.declares hdefinition
  obtain ⟨hname, henumerates⟩ :=
    hdeclares.enumerates hmem (run.enumeration_emitted_iff.mp hbody)
  have hlookup : document.get? declared.definition = some definition := by
    rw [hname]
    exact Document.get?_of_mem_sorted hdefinition
  exact ⟨definition, hlookup, henumerates⟩

end Compilation

/-! ## Enumerations by name -/

/-- The form and the members of an enumeration. -/
def TypeBody.enumeration? : TypeBody → Option (EnumForm × List EnumMember × Option CatchAll)
  | .enumeration form members catchAll => some (form, members, catchAll)
  | _ => none

theorem TypeBody.eq_of_enumeration? {body : TypeBody} {form : EnumForm}
    {members : List EnumMember} {catchAll : Option CatchAll}
    (h : body.enumeration? = some (form, members, catchAll)) :
    body = .enumeration form members catchAll := by
  cases body with
  | enumeration => cases h; rfl
  | _ => cases h

/-- The enumeration of a name, with the definition it comes from. -/
def Model.enumeration? (model : Model) (name : String) :
    Option (String × EnumForm × List EnumMember × Option CatchAll) :=
  (model.type? name).bind fun type => type.body.enumeration?.map (type.definition, ·)

/-- What a lookup in a compiled document shows of an enumeration. -/
theorem Model.exists_enumeration {document : Document} {name definition : String}
    {form : EnumForm} {members : List EnumMember} {catchAll : Option CatchAll}
    (h : (Model.build document).toOption.map (·.enumeration? name) =
      some (some (definition, form, members, catchAll))) :
    ∃ model, Model.build document = .ok model ∧ ∃ type ∈ model.types,
      type.definition = definition ∧ type.name = name ∧
        type.body = .enumeration form members catchAll := by
  obtain ⟨model, hbuild, hshown⟩ := exists_of_toOption_map_eq_some h
  obtain ⟨type, hfound, hshown⟩ := Option.bind_eq_some_iff.mp hshown
  obtain ⟨found, hbody, hshown⟩ := Option.map_eq_some_iff.mp hshown
  obtain ⟨rfl, rfl⟩ := Prod.mk.inj hshown
  obtain ⟨htype, hname⟩ := of_find?_name_eq_some hfound
  exact ⟨model, hbuild, type, htype, rfl, hname, TypeBody.eq_of_enumeration? hbody⟩

end SchemaCompiler
