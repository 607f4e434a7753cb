import SchemaCompiler.Proofs.Hierarchy.Sums

/-!
# Constants of explicit bases

An item of an explicit base that declares a constant for the tag property, itself or through the
definition it refers to, is a candidate with the text of the constant, and what is looked up for
the definition has a branch for it (`Analysis.exists_branch_of_declaresBranch`).
-/

namespace SchemaCompiler.Hierarchy

/-- An item of an explicit base declares a constant for the tag property: its own, or else that of
the definition it refers to. -/
structure DeclaresBranch (document : Document) (definition : Definition) (property : String)
    (item : Node) (constant : Json) : Prop where
  property_eq : ∃ discriminator, definition.node.object? "discriminator" = some discriminator ∧
    Node.string? discriminator "propertyName" = some property
  item_mem : ∃ items, definition.node.array? "oneOf" = some items ∧ Json.object item ∈ items
  constant_eq : constantOf? item property = some constant ∨
    constantOf? item property = none ∧ ∃ name target, item.ref? = some name ∧
      document.get? name = some target ∧ constantOf? target.node property = some constant

variable {document : Document} {definition : Definition} {property : String} {item : Node}
  {constant : Json}

theorem DeclaresBranch.candidate (h : DeclaresBranch document definition property item constant) :
    explicitCandidate? document property item =
      some ⟨item.ref?, Wire.literalText constant, item⟩ := by
  rw [explicitCandidate?]
  rcases h.constant_eq with hown | ⟨hnone, name, target, href, htarget, hconstant⟩
  · rw [hown]
    rfl
  · rw [hnone, href, Option.bind_some, htarget, Option.bind_some, hconstant]
    rfl

theorem Analysis.exists_pending_of_declaresBranch (run : Analysis document)
    (hdefinition : definition ∈ document.sorted)
    (h : DeclaresBranch document definition property item constant) :
    ∃ pending ∈ run.pending, pending.definition = definition ∧ pending.property = property ∧
      Candidate.mk item.ref? (Wire.literalText constant) item ∈ pending.candidates := by
  obtain ⟨discriminator, hdiscriminator, hname⟩ := h.property_eq
  obtain ⟨items, hitems, hitem⟩ := h.item_mem
  obtain ⟨found, hfound, hpending⟩ :=
    run.exists_pending_of_discriminator hdefinition hdiscriminator hitems
  obtain rfl : property = found := Option.some.inj (hname.symm.trans hfound)
  refine ⟨_, hpending, rfl, rfl, List.mem_filterMap.mpr ⟨item, ?_, h.candidate⟩⟩
  exact List.mem_filterMap.mpr ⟨_, hitem, rfl⟩

/-- The branch of a decided base that a candidate became. -/
theorem exists_branch_of_candidate {scope : Scope} {pending : Pending} {base : Base}
    (h : baseOf scope pending = .ok base) {candidate : Candidate}
    (hcandidate : candidate ∈ pending.candidates) :
    ∃ branch ∈ base.branches, branch.value = candidate.value ∧
      branch.typeName = (branchOf scope pending candidate).typeName ∧
      branch.source = (branchOf scope pending candidate).source := by
  have hmem := (branches_perm_of_baseOf h).mem_iff.mpr
    (List.mem_map_of_mem (f := branchOf scope pending) hcandidate)
  obtain ⟨branch, hbranch, hdecided⟩ := List.mem_map.mp hmem
  have hvalue : (branchOf scope pending candidate).value = candidate.value :=
    value_branchOf candidate
  refine ⟨branch, hbranch, ?_, ?_, ?_⟩
  · rw [← hvalue, ← hdecided]
    rfl
  · rw [← hdecided]
    rfl
  · rw [← hdecided]
    rfl

theorem typeName_branchOf (scope : Scope) (pending : Pending) (candidate : Candidate) :
    (∃ name, candidate.refName = some name ∧
      (branchOf scope pending candidate).typeName = Naming.typeName name) ∨
      (branchOf scope pending candidate).typeName =
        Naming.typeName pending.definition.name ++ Naming.member candidate.value := by
  cases hfilter : candidate.refName.filter (isPromotable scope pending) with
  | none =>
      right
      rw [branchOf_wrapper hfilter]
  | some name =>
      left
      rw [branchOf_promoted hfilter]
      exact ⟨name, (Option.filter_eq_some_iff.mp hfilter).1, rfl⟩

/-- What is looked up for an explicit base has a branch for each constant that it declares. -/
theorem Analysis.exists_branch_of_declaresBranch (run : Analysis document)
    (hdefinition : definition ∈ document.sorted)
    (h : DeclaresBranch document definition property item constant) {base : Base}
    (hbase : run.hierarchy.base? definition.name = some base) :
    base.property = property ∧ (base.branches.map (·.value)).Nodup ∧
      ∃ branch ∈ base.branches, branch.value = Wire.literalText constant ∧
        ((∃ name, item.ref? = some name ∧ branch.typeName = Naming.typeName name) ∨
          branch.typeName = Naming.typeName definition.name ++
            Naming.member (Wire.literalText constant)) := by
  obtain ⟨decided, hdecided, hsame, hbaseOf⟩ := run.exists_pending_of_base? hdefinition hbase
  obtain ⟨pending, hpending, rfl, rfl, hcandidate⟩ :=
    run.exists_pending_of_declaresBranch hdefinition h
  obtain rfl : decided = pending :=
    List.inj_on_of_nodup_map run.pending_names_nodup hdecided hpending (by rw [hsame])
  have hproperty : base.property = decided.property := by
    obtain ⟨-, rfl⟩ := baseOf_eq_ok_iff.mp hbaseOf
    rfl
  obtain ⟨branch, hbranch, hvalue, hname, -⟩ := exists_branch_of_candidate hbaseOf hcandidate
  refine ⟨hproperty, values_nodup_of_baseOf hbaseOf, branch, hbranch, hvalue, ?_⟩
  rw [hname]
  exact typeName_branchOf run.scope decided ⟨item.ref?, Wire.literalText constant, item⟩

end SchemaCompiler.Hierarchy
