import Mathlib.Data.List.Pairwise
import SchemaCompiler.Proofs.Hierarchy.Explicit

/-!
# Children and their owners

An untagged sum type claims its children one base after the other.  A claim is granted if no
earlier base has one of the children, and refused with such a child and its owner otherwise
(`claims_claimChildren`).  A run of claims leaves lists of children that are disjoint, or it stops
at two bases with a common child.  So in a successful analysis the parent of a definition is the
one base that has it as a child, and no two claimants of one child get past the analysis
(`children_have_one_owner`).
-/

namespace SchemaCompiler.Hierarchy

open Fallible

/-! ## Claims -/

/-- What becomes of a base that claims its children after the bases before it. -/
inductive Claims (claimed : List AbstractBase) (base : AbstractBase) :
    Except SchemaError (List AbstractBase) → Prop where
  | granted (h : ∀ owner ∈ claimed, owner.children.Disjoint base.children) :
      Claims claimed base (.ok (claimed ++ [base]))
  | refused {owner : AbstractBase} (howner : owner ∈ claimed) {child : String}
      (hchild : child ∈ owner.children) (hclaim : child ∈ base.children) :
      Claims claimed base (.error (.ambiguousOwner child owner.definition base.definition))

theorem claims_claimChildren (claimed : List AbstractBase) (base : AbstractBase) :
    Claims claimed base (claimChildren claimed base) := by
  by_cases h : ∀ owner ∈ claimed, owner.children.Disjoint base.children
  · rw [claimChildren_of_disjoint h]
    exact .granted h
  · unfold claimChildren
    dsimp only
    split
    · rename_i child first hconflict
      obtain ⟨found, hclaim, hfound⟩ := List.exists_of_findSome?_eq_some hconflict
      obtain ⟨owner, howner, hpair⟩ := Option.map_eq_some_iff.mp hfound
      obtain ⟨rfl, rfl⟩ := Prod.mk.inj hpair
      have hcontains := List.find?_some howner
      exact .refused (List.mem_of_find?_eq_some howner) (List.contains_iff_mem.mp hcontains) hclaim
    · rename_i hconflict
      refine absurd (fun owner howner child hchild hclaim => ?_) h
      have hnone := Option.map_eq_none_iff.mp (List.findSome?_eq_none_iff.mp hconflict child hclaim)
      exact List.find?_eq_none.mp hnone owner howner (List.contains_iff_mem.mpr hchild)

/-- Two bases that claim one child, the first before the second. -/
structure Clash (bases : List AbstractBase) (child : String) (first second : AbstractBase) :
    Prop where
  places : [first, second].Sublist bases
  first_mem : child ∈ first.children
  second_mem : child ∈ second.children

theorem pairwise_of_foldlM {bases claimed result : List AbstractBase}
    (h : bases.foldlM claimChildren claimed = .ok result)
    (hclaimed : claimed.Pairwise fun a b => a.children.Disjoint b.children) :
    result.Pairwise fun a b => a.children.Disjoint b.children := by
  induction bases generalizing claimed with
  | nil =>
      obtain rfl : claimed = result := Except.ok.inj h
      exact hclaimed
  | cons base rest ih =>
      rw [List.foldlM_cons] at h
      obtain ⟨next, hnext, hrest⟩ := bind_eq_ok_iff.mp h
      have hclaims := claims_claimChildren claimed base
      rw [hnext] at hclaims
      cases hclaims with
      | granted hdisjoint =>
          refine ih hrest (List.pairwise_append.mpr ⟨hclaimed, List.pairwise_singleton _ _, ?_⟩)
          intro owner howner other hother
          obtain rfl := List.mem_singleton.mp hother
          exact hdisjoint owner howner

theorem exists_clash_of_foldlM {bases claimed : List AbstractBase} {fault : SchemaError}
    (h : bases.foldlM claimChildren claimed = .error fault) :
    ∃ child first second, Clash (claimed ++ bases) child first second ∧
      fault = .ambiguousOwner child first.definition second.definition := by
  induction bases generalizing claimed with
  | nil => cases h
  | cons base rest ih =>
      rw [List.foldlM_cons] at h
      have hclaims := claims_claimChildren claimed base
      generalize hnext : claimChildren claimed base = next at h hclaims
      cases hclaims with
      | granted =>
          obtain ⟨child, first, second, hclash, hfault⟩ := ih h
          rw [List.append_assoc, List.singleton_append] at hclash
          exact ⟨child, first, second, hclash, hfault⟩
      | refused howner hchild hclaim =>
          obtain rfl : _ = fault := Except.error.inj h
          refine ⟨_, _, base, ⟨?_, hchild, hclaim⟩, rfl⟩
          exact (List.singleton_sublist.mpr howner).append
            (List.singleton_sublist.mpr List.mem_cons_self)

theorem disjoint_of_ne {bases : List AbstractBase}
    (h : bases.Pairwise fun a b => a.children.Disjoint b.children) {base other : AbstractBase}
    (hbase : base ∈ bases) (hother : other ∈ bases) (hne : base ≠ other) :
    base.children.Disjoint other.children := by
  have hsymm : Std.Symm fun a b : AbstractBase => a.children.Disjoint b.children :=
    ⟨fun _ _ hdisjoint child hchild hchild' => hdisjoint hchild' hchild⟩
  exact h.forall hbase hother hne

/-! ## Claimants -/

/-- An untagged sum type that has the definition among its children. -/
structure Claimant (document : Document) (child : String) (owner : Definition) : Prop where
  owner_mem : owner ∈ document.sorted
  claims : ∃ children, Unites owner children ∧ child ∈ children

section Run

variable {document : Document} {qualified : List (Option Pending)}

/-- The definitions that are left over after the tagged sum types. -/
def leftOver (document : Document) (qualified : List (Option Pending)) : List Definition :=
  document.sorted.filter fun definition =>
    !((pendingOf document (qualified.filterMap id)).map (·.definition.name)).contains
      definition.name

theorem mem_leftOver_iff {definition : Definition} :
    definition ∈ leftOver document qualified ↔ definition ∈ document.sorted ∧
      definition.name ∉ (pendingOf document (qualified.filterMap id)).map (·.definition.name) := by
  rw [leftOver, List.mem_filter, Bool.not_eq_true', ← Bool.not_eq_true, List.contains_iff_mem]

theorem Unites.contains_discriminator {definition : Definition} {children : List String}
    (h : Unites definition children) :
    Entries.contains definition.node "discriminator" = false :=
  (exists_items_of_abstractChildren? h.children_eq).1

/-- A definition with children of its own is not tagged in either form. -/
theorem Unites.mem_leftOver
    (hqualified : document.sorted.mapM (explicitBase? document) = .ok qualified)
    {definition : Definition} (hdefinition : definition ∈ document.sorted)
    {children : List String} (h : Unites definition children) :
    definition ∈ leftOver document qualified := by
  rw [mem_leftOver_iff]
  refine ⟨hdefinition, fun hpending => ?_⟩
  rw [pendingOf, List.map_append, List.mem_append] at hpending
  rcases hpending with hexplicit | himplicit
  · obtain ⟨pending, hmem, hname⟩ := List.mem_map.mp hexplicit
    obtain ⟨hsorted, hdecided⟩ := of_mem_explicit hqualified hmem
    obtain rfl := Document.eq_of_name_eq hsorted hdefinition hname
    obtain ⟨discriminator, items, hdiscriminates, -⟩ :=
      exists_discriminates_of_explicitBase? hdecided
    have hcontains := Node.contains_of_object? hdiscriminates.discriminator_eq
    rw [h.contains_discriminator] at hcontains
    cases hcontains
  · obtain ⟨pending, hmem, hname⟩ := List.mem_map.mp himplicit
    obtain ⟨result, hresult, hpending⟩ := List.mem_filterMap.mp hmem
    obtain ⟨owner, howner, rfl⟩ := List.mem_map.mp hresult
    obtain rfl : pending.definition = owner := (draw_of_implicitBase? hpending).1
    obtain rfl := Document.eq_of_name_eq (List.mem_filter.mp howner).1 hdefinition hname
    rw [h.untagged] at hpending
    cases hpending

theorem unites_of_mem_leftOver {definition : Definition}
    (h : definition ∈ leftOver document qualified) {children : List String}
    (hchildren : abstractChildren? definition = some children) : Unites definition children := by
  rw [mem_leftOver_iff] at h
  obtain ⟨hsorted, hleft⟩ := h
  refine ⟨Option.eq_none_iff_forall_not_mem.mpr fun pending himplicit => ?_, hchildren⟩
  exact hleft (mem_pendingOf_names hsorted himplicit _)

/-- The bases that claim children, in the order of their names. -/
def claiming (document : Document) (qualified : List (Option Pending)) : List AbstractBase :=
  (leftOver document qualified).filterMap fun definition =>
    (abstractChildren? definition).map (AbstractBase.mk definition.name)

theorem claiming_pairwise (document : Document) (qualified : List (Option Pending)) :
    (claiming document qualified).Pairwise fun a b => a.definition < b.definition := by
  rw [claiming, List.pairwise_filterMap]
  refine (document.sorted_pairwise.filter _).imp ?_
  intro a b hlt base hbase base' hbase'
  obtain ⟨children, -, rfl⟩ := Option.map_eq_some_iff.mp hbase
  obtain ⟨children', -, rfl⟩ := Option.map_eq_some_iff.mp hbase'
  exact hlt

theorem mem_claiming_iff
    (hqualified : document.sorted.mapM (explicitBase? document) = .ok qualified)
    {base : AbstractBase} :
    base ∈ claiming document qualified ↔
      ∃ definition ∈ document.sorted, definition.name = base.definition ∧
        Unites definition base.children := by
  constructor
  · intro h
    obtain ⟨definition, hdefinition, hbase⟩ := List.mem_filterMap.mp h
    obtain ⟨children, hchildren, rfl⟩ := Option.map_eq_some_iff.mp hbase
    exact ⟨definition, (mem_leftOver_iff.mp hdefinition).1, rfl,
      unites_of_mem_leftOver hdefinition hchildren⟩
  · rintro ⟨definition, hdefinition, hname, hunites⟩
    refine List.mem_filterMap.mpr ⟨definition, hunites.mem_leftOver hqualified hdefinition, ?_⟩
    rw [hunites.children_eq, hname]
    rfl

/-- A clash between two bases is one between two claimants, in the order of their names. -/
theorem Clash.exists_claimants
    (hqualified : document.sorted.mapM (explicitBase? document) = .ok qualified)
    {child : String} {first second : AbstractBase}
    (h : Clash (claiming document qualified) child first second) :
    ∃ owner rival, Claimant document child owner ∧ Claimant document child rival ∧
      owner.name = first.definition ∧ rival.name = second.definition ∧ owner.name < rival.name := by
  have hordered := (claiming_pairwise document qualified).sublist h.places
  have hlt : first.definition < second.definition := by simpa using hordered
  have hclaimant {base : AbstractBase} (hbase : base ∈ [first, second])
      (hchild : child ∈ base.children) :
      ∃ owner, Claimant document child owner ∧ owner.name = base.definition := by
    obtain ⟨owner, howner, hname, hunites⟩ :=
      (mem_claiming_iff hqualified).mp (h.places.subset hbase)
    exact ⟨owner, ⟨howner, _, hunites, hchild⟩, hname⟩
  obtain ⟨owner, howner, hfirst⟩ := hclaimant List.mem_cons_self h.first_mem
  obtain ⟨rival, hrival, hsecond⟩ :=
    hclaimant (List.mem_cons_of_mem _ List.mem_cons_self) h.second_mem
  exact ⟨owner, rival, howner, hrival, hfirst, hsecond, by rw [hfirst, hsecond]; exact hlt⟩

end Run

/-! ## The owner of a child -/

/-- The untagged sum types of a hierarchy are those of the document, with children that belong to
one of them only. -/
structure OwnsChildren (document : Document) (hierarchy : Hierarchy) : Prop where
  mem_iff : ∀ base, base ∈ hierarchy.abstractBases ↔
    ∃ definition ∈ document.sorted, definition.name = base.definition ∧
      Unites definition base.children
  ordered : hierarchy.abstractBases.Pairwise fun a b => a.definition < b.definition
  children_nodup : ∀ base ∈ hierarchy.abstractBases, base.children.Nodup
  disjoint : ∀ base ∈ hierarchy.abstractBases, ∀ other ∈ hierarchy.abstractBases, base ≠ other →
    base.children.Disjoint other.children
  parent_iff : ∀ child owner, hierarchy.abstractParent? child = some owner ↔
    ∃ base ∈ hierarchy.abstractBases, base.definition = owner ∧ child ∈ base.children

theorem children_nodup_of_abstractChildren? {definition : Definition} {children : List String}
    (h : abstractChildren? definition = some children) : children.Nodup := by
  unfold abstractChildren? at h
  split at h
  · cases h
  · obtain ⟨items, -, h⟩ := Option.bind_eq_some_iff.mp h
    obtain ⟨found, -, h⟩ := Option.bind_eq_some_iff.mp h
    split at h
    · cases h
    · obtain rfl : found.eraseDups = children := Option.some.inj h
      exact nodup_eraseDups found

theorem abstractParent?_eq_some_iff {hierarchy : Hierarchy}
    (hdisjoint : ∀ base ∈ hierarchy.abstractBases, ∀ other ∈ hierarchy.abstractBases,
      base ≠ other → base.children.Disjoint other.children) {child owner : String} :
    hierarchy.abstractParent? child = some owner ↔
      ∃ base ∈ hierarchy.abstractBases, base.definition = owner ∧ child ∈ base.children := by
  unfold abstractParent?
  constructor
  · intro h
    obtain ⟨base, hfound, hname⟩ := Option.map_eq_some_iff.mp h
    have hchild := List.find?_some hfound
    exact ⟨base, List.mem_of_find?_eq_some hfound, hname, List.contains_iff_mem.mp hchild⟩
  · rintro ⟨base, hbase, hname, hchild⟩
    have hsome : (hierarchy.abstractBases.find? (·.children.contains child)).isSome = true :=
      List.find?_isSome.mpr ⟨base, hbase, List.contains_iff_mem.mpr hchild⟩
    obtain ⟨found, hfound⟩ := Option.isSome_iff_exists.mp hsome
    have hshared : child ∈ found.children := by
      have hcontains := List.find?_some hfound
      exact List.contains_iff_mem.mp hcontains
    have heq : found = base := by
      by_contra hne
      exact hdisjoint found (List.mem_of_find?_eq_some hfound) base hbase hne hshared hchild
    rw [hfound, heq, Option.map_some, hname]

theorem Analysis.ownsChildren {document : Document} (run : Analysis document) :
    OwnsChildren document run.hierarchy := by
  have hbases : run.hierarchy.abstractBases = claiming document run.qualified :=
    abstractBasesOf_eq_ok run.abstractBases_eq
  have hmem (base : AbstractBase) : base ∈ run.hierarchy.abstractBases ↔
      ∃ definition ∈ document.sorted, definition.name = base.definition ∧
        Unites definition base.children := by
    rw [hbases]
    exact mem_claiming_iff run.qualified_eq
  have hpairwise : run.hierarchy.abstractBases.Pairwise fun a b =>
      a.children.Disjoint b.children :=
    pairwise_of_foldlM run.abstractBases_eq List.Pairwise.nil
  have hdisjoint : ∀ base ∈ run.hierarchy.abstractBases,
      ∀ other ∈ run.hierarchy.abstractBases, base ≠ other →
        base.children.Disjoint other.children := by
    intro base hbase other hother hne
    exact disjoint_of_ne hpairwise hbase hother hne
  exact
    { mem_iff := hmem
      ordered := by
        rw [hbases]
        exact claiming_pairwise document run.qualified
      children_nodup := by
        intro base hbase
        obtain ⟨definition, -, -, hunites⟩ := (hmem base).mp hbase
        exact children_nodup_of_abstractChildren? hunites.children_eq
      disjoint := hdisjoint
      parent_iff := fun child owner => abstractParent?_eq_some_iff hdisjoint }

/-! ## Contested children -/

/-- Without a fault of a discriminator, the analysis gets past the explicit bases. -/
theorem exists_qualified {document : Document}
    (hproperty : ∀ name, analyze document ≠ .error (.missingPropertyName name))
    (hconstant : ∀ name property,
      analyze document ≠ .error (.noConstantVariant name property)) :
    ∃ qualified, document.sorted.mapM (explicitBase? document) = .ok qualified := by
  cases hqualified : document.sorted.mapM (explicitBase? document) with
  | ok qualified => exact ⟨qualified, rfl⟩
  | error fault =>
      have hanalyze : analyze document = .error fault := bind_eq_error hqualified
      obtain ⟨definition, -, hdecided⟩ := exists_of_mapM_eq_error hqualified
      cases explicitBase?_eq_error_iff.mp hdecided with
      | noProperty => exact absurd hanalyze (hproperty _)
      | noConstant => exact absurd hanalyze (hconstant _ _)

/-- Where every claim is granted, a child has one claimant. -/
theorem Claimant.unique {document : Document} {qualified : List (Option Pending)}
    (hqualified : document.sorted.mapM (explicitBase? document) = .ok qualified)
    {bases : List AbstractBase} (hgranted : abstractBasesOf (leftOver document qualified) = .ok bases)
    {child : String} {first second : Definition} (hfirst : Claimant document child first)
    (hsecond : Claimant document child second) : first = second := by
  have hdisjoint : (claiming document qualified).Pairwise fun a b =>
      a.children.Disjoint b.children := by
    obtain rfl : bases = claiming document qualified := abstractBasesOf_eq_ok hgranted
    exact pairwise_of_foldlM hgranted List.Pairwise.nil
  obtain ⟨hmem, children, hunites, hchild⟩ := hfirst
  obtain ⟨hmem', children', hunites', hchild'⟩ := hsecond
  have hbase : ⟨first.name, children⟩ ∈ claiming document qualified :=
    (mem_claiming_iff hqualified).mpr ⟨first, hmem, rfl, hunites⟩
  have hbase' : ⟨second.name, children'⟩ ∈ claiming document qualified :=
    (mem_claiming_iff hqualified).mpr ⟨second, hmem', rfl, hunites'⟩
  by_contra hne
  have hbases : AbstractBase.mk first.name children ≠ ⟨second.name, children'⟩ := by
    intro heq
    exact hne (Document.eq_of_name_eq hmem hmem' (AbstractBase.mk.inj heq).1)
  exact disjoint_of_ne hdisjoint hbase hbase' hbases hchild hchild'

/-- **Children have one owner.**  In a successful analysis the untagged sum types have disjoint
lists of children, and the parent of a definition is the one that lists it.  If two definitions
claim one child and no discriminator is at fault, then the analysis fails with a child that two
definitions claim, in the order of their names. -/
theorem children_have_one_owner (document : Document) :
    (∀ hierarchy notices, analyze document = .ok (hierarchy, notices) →
      OwnsChildren document hierarchy) ∧
    ((∀ name, analyze document ≠ .error (.missingPropertyName name)) →
      (∀ name property, analyze document ≠ .error (.noConstantVariant name property)) →
      ∀ child first second, Claimant document child first → Claimant document child second →
        first ≠ second →
        ∃ child first second, Claimant document child first ∧ Claimant document child second ∧
          first.name < second.name ∧
          analyze document = .error (.ambiguousOwner child first.name second.name)) := by
  refine ⟨fun hierarchy notices hanalyze => ?_, ?_⟩
  · obtain ⟨run, rfl, -⟩ := analyze_eq_ok_iff.mp hanalyze
    exact run.ownsChildren
  · intro hproperty hconstant child first second hfirst hsecond hne
    obtain ⟨qualified, hqualified⟩ := exists_qualified hproperty hconstant
    cases hclaims : abstractBasesOf (leftOver document qualified) with
    | ok bases => exact absurd (hfirst.unique hqualified hclaims hsecond) hne
    | error fault =>
        obtain ⟨contested, owner, rival, hclash, rfl⟩ := exists_clash_of_foldlM hclaims
        obtain ⟨first, second, hfirst, hsecond, howner, hrival, hlt⟩ :=
          Clash.exists_claimants hqualified hclash
        refine ⟨contested, first, second, hfirst, hsecond, hlt, ?_⟩
        rw [howner, hrival]
        exact (bind_of_eq_ok hqualified).trans (bind_eq_error hclaims)

def member (name : String) : Json :=
  .object [("allOf", .array [.object [("$ref", .string ("#/$defs/" ++ name))]])]

def vehicle (name : String) (members : List String) : Definition where
  name := name
  node := [("anyOf", .array (members.map member))]

def fleet (boats cars : List String) : Document where
  definitions :=
    [("Boat", .object (vehicle "Boat" boats).node), ("Car", .object (vehicle "Car" cars).node)]
  revision := none
  distinct := by simp [Entries.Distinct, Entries.keys]

theorem children_have_one_owner_fleet :
    (∃ hierarchy notices, analyze (fleet ["Ferry", "Kayak", "Ferry"] ["Van"]) =
        .ok (hierarchy, notices) ∧
      OwnsChildren (fleet ["Ferry", "Kayak", "Ferry"] ["Van"]) hierarchy) ∧
    ∃ child, ∃ first second : Definition, first.name < second.name ∧
      analyze (fleet ["Ferry", "Amphibian"] ["Van", "Amphibian"]) =
        .error (.ambiguousOwner child first.name second.name) := by
  constructor
  · have hshown : ((analyze (fleet ["Ferry", "Kayak", "Ferry"] ["Van"])).toOption.map fun found =>
        found.1.abstractParent? "Kayak") = some (some "Boat") := by
      decide
    obtain ⟨⟨hierarchy, notices⟩, hanalyze, -⟩ := exists_of_toOption_map_eq_some hshown
    exact ⟨hierarchy, notices, hanalyze, (children_have_one_owner _).1 hierarchy notices hanalyze⟩
  · have hfails : analyze (fleet ["Ferry", "Amphibian"] ["Van", "Amphibian"]) =
        .error (.ambiguousOwner "Amphibian" "Boat" "Car") := rfl
    have hboat : Unites (vehicle "Boat" ["Ferry", "Amphibian"]) ["Ferry", "Amphibian"] :=
      ⟨by decide, by decide⟩
    have hcar : Unites (vehicle "Car" ["Van", "Amphibian"]) ["Van", "Amphibian"] :=
      ⟨by decide, by decide⟩
    obtain ⟨child, first, second, -, -, hlt, hanalyze⟩ :=
      (children_have_one_owner (fleet ["Ferry", "Amphibian"] ["Van", "Amphibian"])).2
        (fun name heq => by cases hfails.symm.trans heq)
        (fun name property heq => by cases hfails.symm.trans heq) "Amphibian" _ _
        ⟨Document.mem_sorted_iff.mpr List.mem_cons_self, _, hboat, by decide⟩
        ⟨Document.mem_sorted_iff.mpr (List.mem_cons_of_mem _ List.mem_cons_self), _, hcar,
          by decide⟩
        (fun heq => absurd (congrArg Definition.name heq) (by decide))
    exact ⟨child, first, second, hlt, hanalyze⟩

end SchemaCompiler.Hierarchy
