import SchemaCompiler.Proofs.Hierarchy.Promotion

/-!
# Sum types are not promoted

Every sum type is a `oneOf` or an `anyOf`, and a record that may be promoted is neither.  So a sum
type, tagged or not, is never promoted (`derived?_eq_none_of_mem_sums`), and looking up the base of
a tagged one finds what was decided for it (`base?_of_mem_pending`).
-/

namespace SchemaCompiler.Hierarchy

open Fallible

theorem isPlainRecord_eq_false {node : Node} {key : String} (hkey : key ∈ ["oneOf", "anyOf"])
    {items : List Json} (h : node.array? key = some items) : isPlainRecord node = false := by
  have hcontains := Node.contains_of_array? h
  have hany : ["oneOf", "anyOf", "enum", "const", "discriminator"].any (Entries.contains node) =
      true := by
    refine List.any_eq_true.mpr ⟨key, ?_, hcontains⟩
    rcases List.mem_pair.mp hkey with rfl | rfl <;> decide
  rw [isPlainRecord, hany, Bool.not_true, Bool.and_false]

/-! ## Abstract bases -/

theorem claimChildren_eq_ok {claimed next : List AbstractBase} {base : AbstractBase}
    (h : claimChildren claimed base = .ok next) : next = claimed ++ [base] := by
  unfold claimChildren at h
  dsimp only at h
  split at h
  · cases h
  · exact (Except.ok.inj h).symm

theorem foldlM_claimChildren_eq_ok {bases claimed result : List AbstractBase}
    (h : bases.foldlM claimChildren claimed = .ok result) : result = claimed ++ bases := by
  induction bases generalizing claimed with
  | nil =>
      obtain rfl : claimed = result := Except.ok.inj h
      rw [List.append_nil]
  | cons base rest ih =>
      rw [List.foldlM_cons] at h
      obtain ⟨next, hnext, hrest⟩ := bind_eq_ok_iff.mp h
      rw [ih hrest, claimChildren_eq_ok hnext, List.append_assoc, List.singleton_append]

theorem claimChildren_of_disjoint {claimed : List AbstractBase} {base : AbstractBase}
    (h : ∀ other ∈ claimed, other.children.Disjoint base.children) :
    claimChildren claimed base = .ok (claimed ++ [base]) := by
  have hnone : (base.children.findSome? fun child =>
      (claimed.find? (·.children.contains child)).map fun owner =>
        (child, owner.definition)) = none := by
    refine List.findSome?_eq_none_iff.mpr fun child hchild => ?_
    refine Option.map_eq_none_iff.mpr (List.find?_eq_none.mpr fun other hother hclaimed => ?_)
    exact h other hother (List.contains_iff_mem.mp hclaimed) hchild
  rw [claimChildren, hnone]

/-- Abstract bases without common children do not get in each other's way. -/
theorem foldlM_claimChildren_of_disjoint {bases claimed : List AbstractBase}
    (h : (claimed ++ bases).Pairwise fun first second =>
      first.children.Disjoint second.children) :
    bases.foldlM claimChildren claimed = .ok (claimed ++ bases) := by
  induction bases generalizing claimed with
  | nil =>
      rw [List.append_nil]
      rfl
  | cons base rest ih =>
      have hbase := claimChildren_of_disjoint fun other hother =>
        (List.pairwise_append.mp h).2.2 other hother base List.mem_cons_self
      have happend : claimed ++ base :: rest = claimed ++ [base] ++ rest := by
        rw [List.append_assoc, List.singleton_append]
      rw [List.foldlM_cons, hbase, happend]
      rw [happend] at h
      exact ih h

theorem abstractBasesOf_eq_ok {definitions : List Definition} {bases : List AbstractBase}
    (h : abstractBasesOf definitions = .ok bases) :
    bases = definitions.filterMap fun definition =>
      (abstractChildren? definition).map (AbstractBase.mk definition.name) :=
  foldlM_claimChildren_eq_ok h

/-- The children of an abstract base are references of the items of its `anyOf`. -/
theorem exists_items_of_abstractChildren? {definition : Definition} {children : List String}
    (h : abstractChildren? definition = some children) :
    Entries.contains definition.node "discriminator" = false ∧
      ∃ items, definition.node.array? "anyOf" = some items ∧
        ∀ child ∈ children, ∃ item ∈ Node.objectItems items, item.allOfRef? = some child := by
  unfold abstractChildren? at h
  split at h
  · cases h
  · rename_i hdiscriminator
    obtain ⟨items, hitems, h⟩ := Option.bind_eq_some_iff.mp h
    obtain ⟨found, hfound, h⟩ := Option.bind_eq_some_iff.mp h
    refine ⟨Bool.eq_false_iff.mpr hdiscriminator, items, hitems, fun child hchild => ?_⟩
    split at h
    · cases h
    · obtain rfl : found.eraseDups = children := Option.some.inj h
      obtain ⟨item, hitem, href⟩ :=
        exists_of_mem_of_mapM_some hfound (List.mem_eraseDups.mp hchild)
      refine ⟨item, hitem, ?_⟩
      split at href
      · cases href
      · exact href

namespace Analysis

variable {document : Document} (run : Analysis document)

theorem exists_definition_of_mem_abstractBases {base : AbstractBase}
    (h : base ∈ run.abstractBases) :
    ∃ definition ∈ document.sorted, definition.name = base.definition ∧
      definition.name ∉ run.pending.map (·.definition.name) ∧
      abstractChildren? definition = some base.children := by
  rw [abstractBasesOf_eq_ok run.abstractBases_eq] at h
  obtain ⟨definition, hdefinition, hbase⟩ := List.mem_filterMap.mp h
  obtain ⟨hsorted, hpending⟩ := List.mem_filter.mp hdefinition
  obtain ⟨children, hchildren, rfl⟩ := Option.map_eq_some_iff.mp hbase
  rw [Bool.not_eq_true', ← Bool.not_eq_true, List.contains_iff_mem] at hpending
  exact ⟨definition, hsorted, rfl, hpending, hchildren⟩

/-! ## Sum types -/

theorem mem_sums_iff {name : String} :
    name ∈ run.scope.sums ↔
      (∃ pending ∈ run.pending, pending.definition.name = name) ∨
        ∃ base ∈ run.abstractBases, base.definition = name := by
  show name ∈ run.pending.map (·.definition.name) ++ run.abstractBases.map (·.definition) ↔ _
  rw [List.mem_append, List.mem_map, List.mem_map]

theorem isPlainRecord_of_mem_sums {definition : Definition}
    (hdefinition : definition ∈ document.sorted) (h : definition.name ∈ run.scope.sums) :
    isPlainRecord definition.node = false := by
  rcases run.mem_sums_iff.mp h with ⟨pending, hpending, hname⟩ | ⟨base, hbase, hname⟩
  · obtain ⟨draw⟩ := run.draw_of_mem_pending hpending
    obtain rfl := run.definition_eq_of_name_eq hpending hdefinition hname
    exact isPlainRecord_eq_false draw.keyword_mem draw.items_eq
  · obtain ⟨owner, howner, hbaseName, -, hchildren⟩ :=
      run.exists_definition_of_mem_abstractBases hbase
    obtain rfl : owner = definition :=
      Document.eq_of_name_eq howner hdefinition (hbaseName.trans hname)
    obtain ⟨-, items, hitems, -⟩ := exists_items_of_abstractChildren? hchildren
    exact isPlainRecord_eq_false (by decide) hitems

theorem not_isPromotable_of_mem_sums {name : String} (h : name ∈ run.scope.sums)
    (pending : Pending) : ¬isPromotable run.scope pending name = true := by
  intro hpromotable
  obtain ⟨⟨definition, hdefinition, hrecord⟩, -, -⟩ := isPromotable_iff.mp hpromotable
  obtain rfl := Document.name_of_get? hdefinition
  have hfalse := run.isPlainRecord_of_mem_sums (Document.mem_sorted_of_get? hdefinition) h
  rw [hrecord] at hfalse
  cases hfalse

/-! ## Promoted definitions -/

/-- A promoted definition comes from a candidate for it. -/
theorem exists_candidate_of_mem_derived {derived : Derived} (h : derived ∈ run.hierarchy.derived) :
    ∃ pending ∈ run.pending, derived.base = pending.definition.name ∧
      isPromotable run.scope pending derived.definition = true ∧
      ∃ candidate ∈ pending.candidates, candidate.refName = some derived.definition := by
  obtain ⟨base, hbase, branch, hbranch, name, hsource, rfl⟩ := mem_derived_iff.mp h
  obtain ⟨pending, hpending, hdecided⟩ :=
    run.exists_pending_of_mem_bases (run.mem_hierarchy_bases.mp hbase)
  obtain ⟨candidate, hcandidate, href, -, hpromotable, -⟩ :=
    exists_candidate_of_promoted hdecided hbranch hsource
  exact ⟨pending, hpending, definition_of_baseOf hdecided, hpromotable, candidate, hcandidate,
    href⟩

theorem exists_definition_of_mem_derived {derived : Derived}
    (h : derived ∈ run.hierarchy.derived) :
    ∃ definition, document.get? derived.definition = some definition := by
  obtain ⟨pending, -, -, hpromotable, -⟩ := run.exists_candidate_of_mem_derived h
  obtain ⟨⟨definition, hdefinition, -⟩, -⟩ := isPromotable_iff.mp hpromotable
  exact ⟨definition, hdefinition⟩

theorem derived?_eq_none_of_mem_sums {name : String} (h : name ∈ run.scope.sums) :
    run.hierarchy.derived? name = none := by
  cases hderived : run.hierarchy.derived? name with
  | none => rfl
  | some derived =>
      obtain ⟨hmem, rfl⟩ := of_find?_name_eq_some hderived
      obtain ⟨pending, -, -, hpromotable, -⟩ := run.exists_candidate_of_mem_derived hmem
      exact absurd hpromotable (run.not_isPromotable_of_mem_sums h pending)

/-! ## Looking up bases -/

/-- In a successful analysis, a discriminator beside a `oneOf` makes an explicit base. -/
theorem exists_pending_of_discriminator {definition : Definition}
    (hdefinition : definition ∈ document.sorted) {discriminator : Node}
    (hdiscriminator : definition.node.object? "discriminator" = some discriminator)
    {items : List Json} (hitems : definition.node.array? "oneOf" = some items) :
    ∃ property, discriminator.string? "propertyName" = some property ∧
      Pending.mk definition property .explicit
        ((Node.objectItems items).filterMap (explicitCandidate? document property)) ∈
          run.pending := by
  obtain ⟨result, hresult, hbase⟩ := exists_result_of_mem_of_mapM run.qualified_eq hdefinition
  cases explicitBase?_eq_iff.mp hbase with
  | nothing hnothing => exact absurd ⟨hdiscriminator, hitems⟩ (hnothing discriminator items)
  | base h hproperty _ _ =>
      obtain rfl := Option.some.inj (h.discriminator_eq.symm.trans hdiscriminator)
      obtain rfl := Option.some.inj (h.items_eq.symm.trans hitems)
      refine ⟨_, hproperty, ?_⟩
      rw [pending_eq]
      exact List.mem_append_left _ (List.mem_filterMap.mpr ⟨_, hresult, rfl⟩)

theorem base?_of_mem_pending {pending : Pending} (h : pending ∈ run.pending) :
    ∃ base, baseOf run.scope pending = .ok base ∧
      run.hierarchy.base? pending.definition.name = some base := by
  obtain ⟨base, hbase, hdecided⟩ := exists_result_of_mem_of_mapM run.bases_eq h
  refine ⟨base, hdecided, ?_⟩
  refine find?_name_eq_some (run.mem_hierarchy_bases.mpr hbase) (definition_of_baseOf hdecided) ?_
  intro found hfound hname
  obtain ⟨other, hother, hfoundDecided⟩ :=
    run.exists_pending_of_mem_bases (run.mem_hierarchy_bases.mp hfound)
  rw [definition_of_baseOf hfoundDecided] at hname
  obtain rfl : other = pending :=
    List.inj_on_of_nodup_map run.pending_names_nodup hother h hname
  exact Except.ok.inj (hfoundDecided.symm.trans hdecided)

theorem notMem_pending_names_of_base? {name : String} (h : run.hierarchy.base? name = none) :
    name ∉ run.pending.map (·.definition.name) := by
  intro hmem
  obtain ⟨pending, hpending, rfl⟩ := List.mem_map.mp hmem
  obtain ⟨base, -, hbase⟩ := run.base?_of_mem_pending hpending
  rw [h] at hbase
  cases hbase

theorem notMem_pending_names_of_derived? {name : String} {derived : Derived}
    (h : run.hierarchy.derived? name = some derived) :
    name ∉ run.pending.map (·.definition.name) := by
  intro hmem
  obtain ⟨pending, hpending, hname⟩ := List.mem_map.mp hmem
  rw [run.derived?_eq_none_of_mem_sums (run.mem_sums_iff.mpr (Or.inl ⟨pending, hpending, hname⟩))]
    at h
  cases h

theorem exists_pending_of_base? {definition : Definition}
    (hdefinition : definition ∈ document.sorted) {base : Base}
    (h : run.hierarchy.base? definition.name = some base) :
    ∃ pending ∈ run.pending, pending.definition = definition ∧
      baseOf run.scope pending = .ok base := by
  obtain ⟨hbase, hname⟩ := of_find?_name_eq_some h
  obtain ⟨pending, hpending, hdecided⟩ :=
    run.exists_pending_of_mem_bases (run.mem_hierarchy_bases.mp hbase)
  rw [definition_of_baseOf hdecided] at hname
  exact ⟨pending, hpending, run.definition_eq_of_name_eq hpending hdefinition hname, hdecided⟩

theorem exists_definition_of_abstractBase? {definition : Definition}
    (hdefinition : definition ∈ document.sorted) {base : AbstractBase}
    (h : run.hierarchy.abstractBase? definition.name = some base) :
    definition.name ∉ run.pending.map (·.definition.name) ∧
      abstractChildren? definition = some base.children := by
  obtain ⟨hmem, hname⟩ := of_find?_name_eq_some h
  obtain ⟨owner, howner, hbase, hpending, hchildren⟩ :=
    run.exists_definition_of_mem_abstractBases hmem
  obtain rfl : owner = definition :=
    Document.eq_of_name_eq howner hdefinition (hbase.trans hname)
  exact ⟨hpending, hchildren⟩

end Analysis

end SchemaCompiler.Hierarchy
