import SchemaCompiler.Proofs.Hierarchy.Declared

/-!
# Explicit bases

The values of an explicit base are the texts of the constants that its items declare for the tag
property, each of them once and in order, and no two of its cases have one name.  An analysis has
three ways to fail, tried one after the other: a discriminator without a property or without a
constant (`TagFault`), two untagged sum types with a common child (`SharesChild`), and a base with
two items for one value (`RepeatsValue`).  Within each, the definitions are tried in the order of
their names (`explicit_values`).
-/

namespace SchemaCompiler.Hierarchy

open Fallible

/-! ## Candidates and constants -/

section Candidates

variable {document : Document} {definition : Definition} {discriminator : Node}
  {items : List Json} {property : String}

theorem Discriminates.mem_objectItems {item : Node} (h : Discriminates definition discriminator items)
    {constant : Json} (hdeclares : DeclaresBranch document definition property item constant) :
    item ∈ Node.objectItems items := by
  obtain ⟨found, hfound, hitem⟩ := hdeclares.item_mem
  obtain rfl : items = found := Option.some.inj (h.items_eq.symm.trans hfound)
  exact List.mem_filterMap.mpr ⟨_, hitem, rfl⟩

/-- A candidate was drawn from an item that declares its value. -/
theorem Discriminates.declaresBranch (h : Discriminates definition discriminator items)
    (hproperty : Node.string? discriminator "propertyName" = some property) {item : Node}
    (hitem : item ∈ Node.objectItems items) {candidate : Candidate}
    (hcandidate : explicitCandidate? document property item = some candidate) :
    ∃ constant, DeclaresBranch document definition property item constant ∧
      candidate.value = Wire.literalText constant := by
  obtain ⟨value, hvalue, hobject⟩ := List.mem_filterMap.mp hitem
  cases value with
  | object members =>
      obtain rfl : members = item := Option.some.inj hobject
      unfold explicitCandidate? at hcandidate
      obtain ⟨constant, hconstant, rfl⟩ := Option.map_eq_some_iff.mp hcandidate
      refine ⟨constant, ⟨⟨_, h.discriminator_eq, hproperty⟩, ⟨_, h.items_eq, hvalue⟩, ?_⟩, rfl⟩
      -- the constant of the item itself comes first
      rcases Option.or_eq_some_iff.mp hconstant with hown | ⟨hnone, htarget⟩
      · exact Or.inl hown
      · obtain ⟨target, htarget, hconstant⟩ := Option.bind_eq_some_iff.mp htarget
        obtain ⟨name, hname, htarget⟩ := Option.bind_eq_some_iff.mp htarget
        exact Or.inr ⟨hnone, name, target, hname, htarget, hconstant⟩
  | _ => cases hobject

/-- The texts of the constants that the items declare, in document order. -/
def declaredTexts (document : Document) (property : String) (items : List Json) : List String :=
  (explicitCandidates document property items).map (·.value)

theorem Discriminates.mem_declaredTexts_iff (h : Discriminates definition discriminator items)
    (hproperty : Node.string? discriminator "propertyName" = some property) {value : String} :
    value ∈ declaredTexts document property items ↔
      ∃ item constant, DeclaresBranch document definition property item constant ∧
        value = Wire.literalText constant := by
  unfold declaredTexts
  constructor
  · intro hvalue
    obtain ⟨candidate, hcandidate, rfl⟩ := List.mem_map.mp hvalue
    obtain ⟨item, hitem, hdrawn⟩ := List.mem_filterMap.mp hcandidate
    obtain ⟨constant, hdeclares, htext⟩ := h.declaresBranch hproperty hitem hdrawn
    exact ⟨item, constant, hdeclares, htext⟩
  · rintro ⟨item, constant, hdeclares, rfl⟩
    exact List.mem_map.mpr ⟨_, List.mem_filterMap.mpr
      ⟨item, h.mem_objectItems hdeclares, hdeclares.candidate⟩, rfl⟩

theorem Discriminates.explicitCandidates_eq_nil_iff
    (h : Discriminates definition discriminator items)
    (hproperty : Node.string? discriminator "propertyName" = some property) :
    explicitCandidates document property items = [] ↔
      ∀ item constant, ¬DeclaresBranch document definition property item constant := by
  rw [← List.map_eq_nil_iff (f := Candidate.value), List.eq_nil_iff_forall_not_mem]
  constructor
  · intro hnone item constant hdeclares
    exact hnone _ ((h.mem_declaredTexts_iff hproperty).mpr ⟨item, constant, hdeclares, rfl⟩)
  · intro hnone value hvalue
    obtain ⟨item, constant, hdeclares, -⟩ := (h.mem_declaredTexts_iff hproperty).mp hvalue
    exact hnone item constant hdeclares

end Candidates

/-! ## Faults of discriminators -/

/-- A discriminator that names no property, or for whose property no item declares a constant. -/
inductive TagFault (document : Document) (definition : Definition) : SchemaError → Prop where
  | noProperty {discriminator : Node} {items : List Json}
      (h : Discriminates definition discriminator items)
      (hproperty : ∀ property, Node.string? discriminator "propertyName" = some property →
        property = "") :
      TagFault document definition (.missingPropertyName definition.name)
  | noConstant {discriminator : Node} {items : List Json}
      (h : Discriminates definition discriminator items) {property : String}
      (hproperty : Node.string? discriminator "propertyName" = some property)
      (hnonempty : property ≠ "")
      (hnone : ∀ item constant, ¬DeclaresBranch document definition property item constant) :
      TagFault document definition (.noConstantVariant definition.name property)

theorem explicitBase?_eq_error_iff {document : Document} {definition : Definition}
    {fault : SchemaError} :
    explicitBase? document definition = .error fault ↔ TagFault document definition fault := by
  rw [explicitBase?_eq_iff]
  constructor
  · intro hfault
    cases hfault with
    | noProperty h hproperty => exact .noProperty h hproperty
    | noConstant h hproperty hnonempty hcandidates =>
        exact .noConstant h hproperty hnonempty
          ((h.explicitCandidates_eq_nil_iff hproperty).mp hcandidates)
  · intro hfault
    cases hfault with
    | noProperty h hproperty => exact .noProperty h hproperty
    | noConstant h hproperty hnonempty hnone =>
        exact .noConstant h hproperty hnonempty
          ((h.explicitCandidates_eq_nil_iff hproperty).mpr hnone)

theorem exists_explicitBase?_eq_ok {document : Document} {definition : Definition}
    (h : ∀ fault, ¬TagFault document definition fault) :
    ∃ result, explicitBase? document definition = .ok result := by
  cases hresult : explicitBase? document definition with
  | ok result => exact ⟨result, rfl⟩
  | error fault => exact absurd (explicitBase?_eq_error_iff.mp hresult) (h fault)

/-! ## Later faults -/

/-- An untagged sum type with its children. -/
structure Unites (definition : Definition) (children : List String) : Prop where
  untagged : (implicitBase? definition).1 = none
  children_eq : abstractChildren? definition = some children

/-- Two untagged sum types with a common child. -/
def SharesChild (document : Document) : Prop :=
  ∃ first ∈ document.sorted, ∃ second ∈ document.sorted, first.name < second.name ∧
    ∃ children children', Unites first children ∧ Unites second children' ∧
      ∃ child ∈ children, child ∈ children'

/-- Two items of a discriminated definition declare constants with one text. -/
inductive RepeatsValue (document : Document) (definition : Definition) (value : String) :
    Prop where
  | intro {discriminator : Node} {items : List Json}
      (h : Discriminates definition discriminator items) {property : String}
      {first second : Node} (hplaces : [first, second].Sublist (Node.objectItems items))
      {constant constant' : Json}
      (hfirst : DeclaresBranch document definition property first constant)
      (hsecond : DeclaresBranch document definition property second constant')
      (htext : Wire.literalText constant = value)
      (htext' : Wire.literalText constant' = value)

theorem exists_of_pair_sublist_filterMap {α β : Type} {f : α → Option β} {items : List α}
    {first second : β} (h : [first, second].Sublist (items.filterMap f)) :
    ∃ item item', [item, item'].Sublist items ∧ f item = some first ∧ f item' = some second := by
  obtain ⟨front, back, hsplit, hfirst, hsecond⟩ := List.cons_sublist_iff.mp h
  obtain ⟨front', back', rfl, rfl, rfl⟩ := List.filterMap_eq_append_iff.mp hsplit
  obtain ⟨item, hitem, hitemFirst⟩ := List.mem_filterMap.mp hfirst
  obtain ⟨item', hitem', hitemSecond⟩ :=
    List.mem_filterMap.mp (List.singleton_sublist.mp hsecond)
  refine ⟨item, item', ?_, hitemFirst, hitemSecond⟩
  exact (List.singleton_sublist.mpr hitem).append (List.singleton_sublist.mpr hitem')

theorem Discriminates.repeatsValue_iff {document : Document} {definition : Definition}
    {discriminator : Node} {items : List Json} (h : Discriminates definition discriminator items)
    {property : String} (hproperty : Node.string? discriminator "propertyName" = some property)
    {value : String} :
    RepeatsValue document definition value ↔
      [value, value].Sublist (declaredTexts document property items) := by
  constructor
  · rintro ⟨h', hplaces, hfirst, hsecond, rfl, htext⟩
    obtain rfl := Option.some.inj (h.items_eq.symm.trans h'.items_eq)
    obtain ⟨discriminator', hdiscriminator, hname⟩ := hfirst.property_eq
    obtain rfl := Option.some.inj (h.discriminator_eq.symm.trans hdiscriminator)
    obtain rfl := Option.some.inj (hproperty.symm.trans hname)
    have hdrawn := (hplaces.filterMap (explicitCandidate? document property)).map (·.value)
    simp only [List.filterMap_cons, hfirst.candidate, hsecond.candidate, List.filterMap_nil,
      List.map_cons, List.map_nil, htext] at hdrawn
    exact hdrawn
  · intro htwice
    obtain ⟨drawn, hdrawn, hvalues⟩ := List.sublist_map_iff.mp htwice
    obtain ⟨first, rest, rfl, hfirst, hrest⟩ := List.map_eq_cons_iff.mp hvalues.symm
    obtain ⟨second, rest, rfl, hsecond, hrest⟩ := List.map_eq_cons_iff.mp hrest
    obtain rfl := List.map_eq_nil_iff.mp hrest
    obtain ⟨item, item', hplaces, hitem, hitem'⟩ := exists_of_pair_sublist_filterMap hdrawn
    obtain ⟨constant, hdeclares, htext⟩ := h.declaresBranch hproperty
      (hplaces.subset List.mem_cons_self) hitem
    obtain ⟨constant', hdeclares', htext'⟩ := h.declaresBranch hproperty
      (hplaces.subset (List.mem_cons_of_mem _ List.mem_cons_self)) hitem'
    exact ⟨h, hplaces, hdeclares, hdeclares', htext.symm.trans hfirst, htext'.symm.trans hsecond⟩

/-! ## The run of an analysis -/

section Run

variable {document : Document} {qualified : List (Option Pending)}

/-- What qualified as an explicit base has a discriminator with a property. -/
theorem exists_discriminates_of_explicitBase? {definition : Definition} {pending : Pending}
    (h : explicitBase? document definition = .ok (some pending)) :
    ∃ discriminator items, Discriminates definition discriminator items ∧
      Node.string? discriminator "propertyName" = some pending.property ∧
      pending.candidates.map (·.value) = declaredTexts document pending.property items := by
  cases explicitBase?_eq_iff.mp h with
  | base hdiscriminates hproperty _ _ => exact ⟨_, _, hdiscriminates, hproperty, rfl⟩

theorem Discriminates.exists_pending {definition : Definition} {discriminator : Node}
    {items : List Json} (h : Discriminates definition discriminator items)
    {result : Option Pending} (hresult : explicitBase? document definition = .ok result) :
    ∃ pending, result = some pending := by
  cases explicitBase?_eq_iff.mp hresult with
  | nothing hnothing => exact absurd h (hnothing discriminator items)
  | base _ _ _ _ => exact ⟨_, rfl⟩

/-- Values of an explicit base come twice exactly if two of its items declare one text. -/
theorem values_nodup_iff_of_explicitBase? {definition : Definition} {pending : Pending}
    (h : explicitBase? document definition = .ok (some pending)) :
    (pending.candidates.map (·.value)).Nodup ↔
      ∀ value, ¬RepeatsValue document definition value := by
  obtain ⟨discriminator, items, hdiscriminates, hproperty, hvalues⟩ :=
    exists_discriminates_of_explicitBase? h
  rw [hvalues, List.nodup_iff_sublist]
  exact forall_congr' fun value => not_congr (hdiscriminates.repeatsValue_iff hproperty).symm

/-- What qualifies as an implicit base is pending, in one form or the other. -/
theorem mem_pendingOf_names {definition : Definition} (hdefinition : definition ∈ document.sorted)
    {pending : Pending} (h : (implicitBase? definition).1 = some pending)
    (explicit : List Pending) :
    definition.name ∈ (pendingOf document explicit).map (·.definition.name) := by
  rw [pendingOf, List.map_append, List.mem_append]
  by_cases hexplicit : explicit.any (·.definition.name = definition.name) = true
  · left
    obtain ⟨other, hother, hname⟩ := List.any_eq_true.mp hexplicit
    exact List.mem_map.mpr ⟨other, hother, of_decide_eq_true hname⟩
  · right
    refine List.mem_map.mpr ⟨pending, List.mem_filterMap.mpr ⟨implicitBase? definition, ?_, h⟩, ?_⟩
    · refine List.mem_map_of_mem (List.mem_filter.mpr ⟨hdefinition, ?_⟩)
      rw [Bool.not_eq_true', ← Bool.not_eq_true]
      exact hexplicit
    · rw [(draw_of_implicitBase? h).1]

/-- Sum types without a tag get their children if no two of them have one in common. -/
theorem exists_abstractBasesOf_eq_ok (hshares : ¬SharesChild document) (explicit : List Pending) :
    ∃ bases, abstractBasesOf (document.sorted.filter fun definition =>
      !((pendingOf document explicit).map (·.definition.name)).contains definition.name) =
        .ok bases := by
  refine ⟨_, foldlM_claimChildren_of_disjoint ?_⟩
  rw [List.nil_append, List.pairwise_filterMap]
  refine (document.sorted_pairwise.filter _).imp_of_mem ?_
  intro first second hfirst hsecond hlt base hbase base' hbase' child hchild hchild'
  obtain ⟨children, hchildren, rfl⟩ := Option.map_eq_some_iff.mp hbase
  obtain ⟨children', hchildren', rfl⟩ := Option.map_eq_some_iff.mp hbase'
  -- what is left over is no implicit base
  have hunites : ∀ definition ∈ document.sorted.filter (fun definition =>
      !((pendingOf document explicit).map (·.definition.name)).contains definition.name),
      ∀ children, abstractChildren? definition = some children → Unites definition children := by
    intro definition hdefinition children hchildren
    obtain ⟨hsorted, hleft⟩ := List.mem_filter.mp hdefinition
    rw [Bool.not_eq_true', ← Bool.not_eq_true, List.contains_iff_mem] at hleft
    refine ⟨Option.eq_none_iff_forall_not_mem.mpr fun pending himplicit => ?_, hchildren⟩
    exact hleft (mem_pendingOf_names hsorted himplicit explicit)
  exact hshares ⟨first, (List.mem_filter.mp hfirst).1, second, (List.mem_filter.mp hsecond).1, hlt,
    children, children', hunites first hfirst _ hchildren, hunites second hsecond _ hchildren',
    child, hchild, hchild'⟩

theorem analyze_of_tagFault {definition : Definition} (hdefinition : definition ∈ document.sorted)
    {fault : SchemaError} (hfault : TagFault document definition fault)
    (hearlier : ∀ earlier ∈ document.sorted, earlier.name < definition.name →
      ∀ fault, ¬TagFault document earlier fault) :
    analyze document = .error fault := by
  obtain ⟨front, back, hsplit, hfront⟩ :=
    exists_split_of_pairwise document.sorted_pairwise hdefinition
  have hqualified : document.sorted.mapM (explicitBase? document) = .error fault := by
    rw [hsplit]
    refine mapM_eq_error (fun earlier hmem => ?_) (explicitBase?_eq_error_iff.mpr hfault)
    refine exists_explicitBase?_eq_ok (hearlier earlier ?_ (hfront earlier hmem))
    rw [hsplit]
    exact List.mem_append_left _ hmem
  exact bind_eq_error hqualified

theorem of_mem_explicit (hqualified : document.sorted.mapM (explicitBase? document) = .ok qualified)
    {pending : Pending} (h : pending ∈ qualified.filterMap id) :
    pending.definition ∈ document.sorted ∧
      explicitBase? document pending.definition = .ok (some pending) := by
  obtain ⟨result, hresult, rfl⟩ := List.mem_filterMap.mp h
  obtain ⟨owner, howner, hdecided⟩ := exists_of_mem_of_mapM hqualified hresult
  obtain rfl : pending.definition = owner := (draw_of_explicitBase? hdecided).1
  exact ⟨howner, hdecided⟩

theorem explicit_pairwise
    (hqualified : document.sorted.mapM (explicitBase? document) = .ok qualified) :
    (qualified.filterMap id).Pairwise fun first second =>
      first.definition.name < second.definition.name := by
  have hordered := document.sorted_pairwise.sublist (explicit_sublist_of_qualified hqualified)
  rw [List.pairwise_map] at hordered
  exact hordered

/-- Of the explicit bases, the first one with a repeated value fails. -/
theorem exists_mapM_baseOf_eq_error
    (hqualified : document.sorted.mapM (explicitBase? document) = .ok qualified)
    {pending : Pending} (hpending : pending ∈ qualified.filterMap id) {value : String}
    (hrepeats : RepeatsValue document pending.definition value)
    (hearlier : ∀ earlier ∈ document.sorted, earlier.name < pending.definition.name →
      ∀ value, ¬RepeatsValue document earlier value) (scope : Scope) :
    ∃ value, RepeatsValue document pending.definition value ∧
      (pendingOf document (qualified.filterMap id)).mapM (baseOf scope) =
        .error (.duplicateValue pending.definition.name value) := by
  obtain ⟨-, hdecided⟩ := of_mem_explicit hqualified hpending
  obtain ⟨front, back, hsplit, hfront⟩ :=
    exists_split_of_pairwise (explicit_pairwise hqualified) hpending
  have hbefore : ∀ earlier ∈ front, ∃ base, baseOf scope earlier = .ok base := by
    intro earlier hmem
    have hexplicit : earlier ∈ qualified.filterMap id := by
      rw [hsplit]
      exact List.mem_append_left _ hmem
    obtain ⟨hsorted, hqualifies⟩ := of_mem_explicit hqualified hexplicit
    refine exists_baseOf_eq_ok ((values_nodup_iff_of_explicitBase? hqualifies).mpr ?_)
    exact hearlier _ hsorted (hfront earlier hmem)
  obtain ⟨discriminator, items, hdiscriminates, hproperty, hvalues⟩ :=
    exists_discriminates_of_explicitBase? hdecided
  have hrepeated : ¬(pending.candidates.map (·.value)).Nodup := fun hnodup =>
    (values_nodup_iff_of_explicitBase? hdecided).mp hnodup value hrepeats
  obtain ⟨repeated, htwice, hfails⟩ := exists_baseOf_eq_error scope hrepeated
  rw [hvalues] at htwice
  refine ⟨repeated, (hdiscriminates.repeatsValue_iff hproperty).mpr htwice, ?_⟩
  rw [pendingOf, hsplit, List.append_assoc, List.cons_append]
  exact mapM_eq_error hbefore hfails

theorem analyze_of_repeatsValue {definition : Definition}
    (hdefinition : definition ∈ document.sorted) {value : String}
    (hrepeats : RepeatsValue document definition value)
    (hfaults : ∀ other ∈ document.sorted, ∀ fault, ¬TagFault document other fault)
    (hshares : ¬SharesChild document)
    (hearlier : ∀ earlier ∈ document.sorted, earlier.name < definition.name →
      ∀ value, ¬RepeatsValue document earlier value) :
    ∃ value, RepeatsValue document definition value ∧
      analyze document = .error (.duplicateValue definition.name value) := by
  obtain ⟨qualified, hqualified⟩ := exists_mapM_eq_ok fun other hother =>
    exists_explicitBase?_eq_ok (hfaults other hother)
  obtain ⟨abstractBases, habstract⟩ :=
    exists_abstractBasesOf_eq_ok hshares (qualified.filterMap id)
  obtain ⟨result, hresult, hdecided⟩ := exists_result_of_mem_of_mapM hqualified hdefinition
  obtain ⟨pending, rfl⟩ : ∃ pending, result = some pending := by
    cases hrepeats with
    | intro h => exact h.exists_pending hdecided
  obtain rfl : pending.definition = definition := (draw_of_explicitBase? hdecided).1
  obtain ⟨repeated, hrepeated, hbases⟩ := exists_mapM_baseOf_eq_error hqualified
    (List.mem_filterMap.mpr ⟨_, hresult, rfl⟩) hrepeats hearlier
    (scopeOf document (pendingOf document (qualified.filterMap id)) abstractBases)
  refine ⟨repeated, hrepeated, ?_⟩
  exact (bind_of_eq_ok hqualified).trans ((bind_of_eq_ok habstract).trans (bind_eq_error hbases))

end Run

/-! ## The values of explicit bases -/

/-- A base with the tag property of its discriminator, a value for every declared constant and
nothing twice. -/
structure KeepsConstants (document : Document) (definition : Definition) (discriminator : Node)
    (base : Base) : Prop where
  form_eq : base.form = .explicit
  property_eq : Node.string? discriminator "propertyName" = some base.property
  values_pairwise : (base.branches.map (·.value)).Pairwise (· < ·)
  mem_values_iff : ∀ value, value ∈ base.branches.map (·.value) ↔
    ∃ item constant, DeclaresBranch document definition base.property item constant ∧
      value = Wire.literalText constant
  caseNames_nodup : (base.branches.map (·.caseName)).Nodup

theorem Analysis.exists_base_of_discriminates {document : Document} (run : Analysis document)
    {definition : Definition} (hdefinition : definition ∈ document.sorted) {discriminator : Node}
    {items : List Json} (h : Discriminates definition discriminator items) :
    ∃ base, run.hierarchy.base? definition.name = some base ∧
      KeepsConstants document definition discriminator base := by
  obtain ⟨property, hproperty, hpending⟩ :=
    run.exists_pending_of_discriminator hdefinition h.discriminator_eq h.items_eq
  obtain ⟨base, hdecided, hbase⟩ := run.base?_of_mem_pending hpending
  refine ⟨base, hbase, ?_⟩
  have hvalues := mem_values_of_baseOf hdecided
  obtain ⟨-, hform⟩ := baseOf_eq_ok_iff.mp hdecided
  exact
    { form_eq := by rw [hform]
      property_eq := by rw [hform, hproperty]
      values_pairwise := values_pairwise_of_baseOf hdecided
      mem_values_iff := by
        intro value
        have htag : base.property = property := by rw [hform]
        rw [hvalues, htag]
        exact h.mem_declaredTexts_iff hproperty
      caseNames_nodup := caseNames_nodup_of_baseOf hdecided }

/-- **Explicit bases have the declared values.**  In a successful analysis, a definition with a
discriminator beside a `oneOf` is a base with the values that its items declare.  Without any such
value, or with one of them declared twice, the analysis fails there, unless it fails earlier. -/
theorem explicit_values {document : Document} {definition : Definition}
    (hdefinition : definition ∈ document.sorted) {discriminator : Node} {items : List Json}
    (h : Discriminates definition discriminator items) :
    (∀ hierarchy notices, analyze document = .ok (hierarchy, notices) →
      ∃ base, hierarchy.base? definition.name = some base ∧
        KeepsConstants document definition discriminator base) ∧
    ((∀ earlier ∈ document.sorted, earlier.name < definition.name →
        ∀ fault, ¬TagFault document earlier fault) →
      ∀ property, Node.string? discriminator "propertyName" = some property → property ≠ "" →
        (∀ item constant, ¬DeclaresBranch document definition property item constant) →
          analyze document = .error (.noConstantVariant definition.name property)) ∧
    ((∀ other ∈ document.sorted, ∀ fault, ¬TagFault document other fault) →
      ¬SharesChild document →
      (∀ earlier ∈ document.sorted, earlier.name < definition.name →
        ∀ value, ¬RepeatsValue document earlier value) →
      ∀ value, RepeatsValue document definition value →
        ∃ value, RepeatsValue document definition value ∧
          analyze document = .error (.duplicateValue definition.name value)) := by
  refine ⟨fun hierarchy notices hanalyze => ?_, ?_, ?_⟩
  · obtain ⟨run, rfl, -⟩ := analyze_eq_ok_iff.mp hanalyze
    exact run.exists_base_of_discriminates hdefinition h
  · intro hearlier property hproperty hnonempty hnone
    exact analyze_of_tagFault hdefinition (.noConstant h hproperty hnonempty hnone) hearlier
  · intro hfaults hshares hearlier value hrepeats
    exact analyze_of_repeatsValue hdefinition hrepeats hfaults hshares hearlier

/-! ## A base with and without faults -/

def signal (items : List Json) : Definition where
  name := "Signal"
  node :=
    [("discriminator", .object [("propertyName", .string "op")]), ("oneOf", .array items)]

theorem discriminates_signal (items : List Json) :
    Discriminates (signal items) [("propertyName", .string "op")] items :=
  ⟨rfl, rfl⟩

def signalDocument (items : List Json) : Document where
  definitions :=
    [("Signal", .object (signal items).node),
      ("Wake", .object [("properties", .object [("op", .object [("const", .string "wake")])])])]
  revision := none
  distinct := by simp [Entries.Distinct, Entries.keys]

theorem signal_mem_sorted (items : List Json) : signal items ∈ (signalDocument items).sorted :=
  Document.mem_sorted_iff.mpr List.mem_cons_self

theorem not_sharesChild_signal (items : List Json) : ¬SharesChild (signalDocument items) := by
  rintro ⟨first, hfirst, second, hsecond, -, children, -, hunites, hunites', -⟩
  have hnone (definition : Definition) (hdefinition : definition ∈ (signalDocument items).sorted) :
      abstractChildren? definition = none := by
    obtain ⟨name, node⟩ := definition
    rcases List.mem_pair.mp (Document.mem_sorted_iff.mp hdefinition) with heq | heq
    · cases heq
      rfl
    · cases heq
      rfl
  have hchildren := hunites.children_eq
  rw [hnone first hfirst] at hchildren
  cases hchildren

def haltItem : Json :=
  .object [("properties", .object [("op", .object [("const", .string "halt")])])]

def wakeItem : Json :=
  .object [("allOf", .array [.object [("$ref", .string "#/$defs/Wake")]])]

def titledItem : Json :=
  .object [("title", .string "Note")]

theorem not_tagFault_signal {items : List Json}
    (hconstants : declaredTexts (signalDocument items) "op" items ≠ []) {other : Definition}
    (hother : other ∈ (signalDocument items).sorted) (fault : SchemaError) :
    ¬TagFault (signalDocument items) other fault := by
  intro hfault
  have herror := explicitBase?_eq_error_iff.mpr hfault
  obtain ⟨name, node⟩ := other
  rcases List.mem_pair.mp (Document.mem_sorted_iff.mp hother) with heq | heq
  · cases heq
    have hok := explicitBase?_eq_iff.mpr (.base (discriminates_signal items) rfl (by decide)
      fun hnil => hconstants (List.map_eq_nil_iff.mpr hnil))
    have hclash := hok.symm.trans herror
    cases hclash
  · cases heq
    cases herror

theorem not_lt_signal {items : List Json} {earlier : Definition}
    (hearlier : earlier ∈ (signalDocument items).sorted) : ¬earlier.name < "Signal" := by
  obtain ⟨name, node⟩ := earlier
  rcases List.mem_pair.mp (Document.mem_sorted_iff.mp hearlier) with heq | heq
  · cases heq
    exact String.lt_irrefl "Signal"
  · cases heq
    exact (by decide : ¬"Wake" < "Signal")

theorem explicit_values_signal :
    (∃ hierarchy notices base,
      analyze (signalDocument [wakeItem, .bool true, titledItem, haltItem]) =
        .ok (hierarchy, notices) ∧ hierarchy.base? "Signal" = some base ∧
        KeepsConstants (signalDocument [wakeItem, .bool true, titledItem, haltItem])
          (signal [wakeItem, .bool true, titledItem, haltItem]) [("propertyName", .string "op")]
            base) ∧
      analyze (signalDocument [titledItem]) = .error (.noConstantVariant "Signal" "op") ∧
      ∃ value, analyze (signalDocument [haltItem, wakeItem, haltItem]) =
        .error (.duplicateValue "Signal" value) := by
  refine ⟨?_, ?_, ?_⟩
  · have hok : (analyze
        (signalDocument [wakeItem, .bool true, titledItem, haltItem])).toOption.isSome = true := by
      decide
    cases hanalyze : analyze (signalDocument [wakeItem, .bool true, titledItem, haltItem]) with
    | error fault =>
        rw [hanalyze] at hok
        cases hok
    | ok found =>
        obtain ⟨hierarchy, notices⟩ := found
        obtain ⟨base, hbase, hkeeps⟩ := (explicit_values (signal_mem_sorted _)
          (discriminates_signal _)).1 hierarchy notices hanalyze
        exact ⟨hierarchy, notices, base, rfl, hbase, hkeeps⟩
  · refine (explicit_values (signal_mem_sorted _) (discriminates_signal _)).2.1 ?_ "op" rfl
      (by decide) ?_
    · exact fun earlier hearlier hlt => absurd hlt (not_lt_signal hearlier)
    · intro item constant hdeclares
      have hmem := ((discriminates_signal _).mem_declaredTexts_iff rfl).mpr
        ⟨item, constant, hdeclares, rfl⟩
      have hnone : declaredTexts (signalDocument [titledItem]) "op" [titledItem] = [] := by decide
      rw [hnone] at hmem
      exact absurd hmem List.not_mem_nil
  · have htwice : ["halt", "halt"].Sublist (declaredTexts
        (signalDocument [haltItem, wakeItem, haltItem]) "op" [haltItem, wakeItem, haltItem]) := by
      decide
    obtain ⟨value, -, hvalue⟩ := (explicit_values (signal_mem_sorted _)
      (discriminates_signal _)).2.2 (fun other hother => not_tagFault_signal (by decide) hother)
      (not_sharesChild_signal _) (fun earlier hearlier hlt => absurd hlt (not_lt_signal hearlier))
      "halt" (((discriminates_signal _).repeatsValue_iff rfl).mpr htwice)
    exact ⟨value, hvalue⟩

end SchemaCompiler.Hierarchy
