import SchemaCompiler.Hierarchy
import SchemaCompiler.Proofs.Document
import SchemaCompiler.Proofs.Naming.Fresh

/-!
# Branches of a base

Sorting and naming the cases moves branches around but changes nothing else about them: the
branches of a base are the decided candidates (`mem_branches_of_baseOf`), their values are distinct
(`values_nodup_of_baseOf`), and a branch is either a promoted record under its own name or a
wrapper named after base and value.
-/

namespace SchemaCompiler

/-- A branch before its case has a name. -/
def Branch.unnamed (branch : Branch) : Branch :=
  { branch with caseName := "" }

namespace Hierarchy

/-! ## Case names and repeated values -/

theorem map_nameCases {β : Type} {f : Branch → β} (hf : ∀ branch, f branch.unnamed = f branch)
    (branches : List Branch) (used : List String) :
    (nameCases used branches).map f = branches.map f := by
  induction branches generalizing used with
  | nil => rfl
  | cons branch rest ih =>
      have hnamed (caseName : String) : f { branch with caseName } = f branch :=
        (hf { branch with caseName }).symm.trans (hf branch)
      rw [nameCases, List.map_cons, List.map_cons, ih, hnamed]

/-- Every case is named apart from the names in use and from the cases before it. -/
theorem caseNames_nodup (branches : List Branch) (used : List String) :
    ((nameCases used branches).map (·.caseName)).Nodup ∧
      ∀ name ∈ (nameCases used branches).map (·.caseName), name ∉ used := by
  induction branches generalizing used with
  | nil => exact ⟨List.nodup_nil, fun _ hname => absurd hname List.not_mem_nil⟩
  | cons branch rest ih =>
      have hfresh := Naming.fresh_notMem used (Naming.caseName branch.value)
      obtain ⟨hnodup, hapart⟩ := ih (Naming.fresh used (Naming.caseName branch.value) :: used)
      rw [nameCases, List.map_cons, List.nodup_cons]
      refine ⟨⟨fun hmem => hapart _ hmem List.mem_cons_self, hnodup⟩, fun name hname => ?_⟩
      rcases List.mem_cons.mp hname with rfl | hname
      · exact hfresh
      · exact fun hused => hapart name hname (List.mem_cons_of_mem _ hused)

theorem repeated?_eq_none_iff {values : List String} {seen : List String} :
    repeated? seen values = none ↔ values.Nodup ∧ ∀ value ∈ values, value ∉ seen := by
  induction values generalizing seen with
  | nil => simp [repeated?]
  | cons value rest ih =>
      rw [repeated?]
      by_cases hseen : value ∈ seen
      · rw [if_pos (List.contains_iff_mem.mpr hseen)]
        constructor
        · intro h
          cases h
        · rintro ⟨-, h⟩
          exact absurd hseen (h value List.mem_cons_self)
      · rw [if_neg (mt List.contains_iff_mem.mp hseen), ih, List.nodup_cons]
        constructor
        · rintro ⟨hnodup, hrest⟩
          refine ⟨⟨fun hmem => hrest value hmem List.mem_cons_self, hnodup⟩, ?_⟩
          intro other hother
          rcases List.mem_cons.mp hother with rfl | hother
          · exact hseen
          · exact fun hmem => hrest other hother (List.mem_cons_of_mem _ hmem)
        · rintro ⟨⟨hvalue, hnodup⟩, hall⟩
          refine ⟨hnodup, fun other hother => ?_⟩
          rw [List.mem_cons, not_or]
          exact ⟨fun heq => hvalue (heq ▸ hother), hall other (List.mem_cons_of_mem _ hother)⟩

/-- A repeated value stands twice, or once with the values that were seen before. -/
theorem of_repeated?_eq_some {values : List String} {seen : List String} {value : String}
    (h : repeated? seen values = some value) :
    value ∈ values ∧ (value ∈ seen ∨ [value, value].Sublist values) := by
  induction values generalizing seen with
  | nil => cases h
  | cons first rest ih =>
      rw [repeated?] at h
      split at h
      · rename_i hseen
        obtain rfl := Option.some.inj h
        exact ⟨List.mem_cons_self, Or.inl (List.contains_iff_mem.mp hseen)⟩
      · obtain ⟨hmem, htwice⟩ := ih h
        refine ⟨List.mem_cons_of_mem _ hmem, ?_⟩
        rcases htwice with hseen | htwice
        · rcases List.mem_cons.mp hseen with rfl | hseen
          · exact Or.inr (List.Sublist.cons_cons _ (List.singleton_sublist.mpr hmem))
          · exact Or.inl hseen
        · exact Or.inr (htwice.cons first)

/-! ## Deciding one candidate -/

variable {scope : Scope} {pending : Pending}

theorem isPromotable_iff {name : String} :
    isPromotable scope pending name = true ↔
      (∃ definition, scope.document.get? name = some definition ∧
        isPlainRecord definition.node = true) ∧
      scope.tally.count name = 1 ∧
      pending.candidates.countP (·.refName = some name) = 1 := by
  unfold isPromotable
  rw [Bool.and_eq_true, Bool.and_eq_true, Option.any_eq_true, decide_eq_true_eq,
    decide_eq_true_eq, and_assoc]

theorem branchOf_promoted {candidate : Candidate} {name : String}
    (h : candidate.refName.filter (isPromotable scope pending) = some name) :
    branchOf scope pending candidate =
      { value := candidate.value
        caseName := ""
        typeName := Naming.typeName name
        refName := some name
        source := .promoted name
        description :=
          (candidate.refName.bind scope.document.get?).bind (·.description?) } := by
  rw [branchOf, h]

theorem branchOf_wrapper {candidate : Candidate}
    (h : candidate.refName.filter (isPromotable scope pending) = none) :
    branchOf scope pending candidate =
      { value := candidate.value
        caseName := ""
        typeName := Naming.typeName pending.definition.name ++ Naming.member candidate.value
        refName := candidate.refName
        source := wrapperSource scope candidate
        description := candidate.item.description?.or
          ((candidate.refName.bind scope.document.get?).bind (·.description?)) } := by
  rw [branchOf, h]

@[simp] theorem value_branchOf (candidate : Candidate) :
    (branchOf scope pending candidate).value = candidate.value := by
  cases h : candidate.refName.filter (isPromotable scope pending) with
  | none => rw [branchOf_wrapper h]
  | some name => rw [branchOf_promoted h]

@[simp] theorem caseName_branchOf (candidate : Candidate) :
    (branchOf scope pending candidate).caseName = "" := by
  cases h : candidate.refName.filter (isPromotable scope pending) with
  | none => rw [branchOf_wrapper h]
  | some name => rw [branchOf_promoted h]

theorem wrapperSource_ne_promoted (candidate : Candidate) (name : String) :
    wrapperSource scope candidate ≠ .promoted name := by
  rw [wrapperSource]
  split
  · split <;> exact fun h => BranchSource.noConfusion h
  · exact fun h => BranchSource.noConfusion h

/-- A promoted branch carries the name of the record it refers to, which may be promoted. -/
theorem of_branchOf_promoted {candidate : Candidate} {name : String}
    (h : (branchOf scope pending candidate).source = .promoted name) :
    candidate.refName = some name ∧ isPromotable scope pending name = true ∧
      (branchOf scope pending candidate).typeName = Naming.typeName name := by
  cases hfilter : candidate.refName.filter (isPromotable scope pending) with
  | none =>
      rw [branchOf_wrapper hfilter] at h
      exact absurd h (wrapperSource_ne_promoted candidate name)
  | some other =>
      rw [branchOf_promoted hfilter] at h ⊢
      obtain rfl : other = name := BranchSource.promoted.inj h
      obtain ⟨href, hpromotable⟩ := Option.filter_eq_some_iff.mp hfilter
      exact ⟨href, hpromotable, rfl⟩

/-- Any other branch carries the name of its base and its value. -/
theorem typeName_branchOf_of_not_promoted {candidate : Candidate}
    (h : (branchOf scope pending candidate).isPromoted = false) :
    (branchOf scope pending candidate).typeName =
      Naming.typeName pending.definition.name ++ Naming.member candidate.value := by
  cases hfilter : candidate.refName.filter (isPromotable scope pending) with
  | none => rw [branchOf_wrapper hfilter]
  | some name =>
      rw [branchOf_promoted hfilter] at h
      exact absurd h (by simp [Branch.isPromoted])

/-! ## What a wrapper holds -/

theorem source_branchOf_of_not_promoted {candidate : Candidate}
    (h : (branchOf scope pending candidate).isPromoted = false) :
    (branchOf scope pending candidate).source = wrapperSource scope candidate := by
  cases hfilter : candidate.refName.filter (isPromotable scope pending) with
  | none => rw [branchOf_wrapper hfilter]
  | some name =>
      rw [branchOf_promoted hfilter] at h
      exact absurd h (by simp [Branch.isPromoted])

theorem of_wrapperSource_wrapped {candidate : Candidate} {name : String}
    (h : wrapperSource scope candidate = .wrapped name) :
    (∃ target, scope.document.get? name = some target) ∧ name ∉ scope.sums := by
  unfold wrapperSource at h
  split at h
  · rename_i target htarget
    split at h
    · cases h
    · rename_i hsum
      obtain rfl := BranchSource.wrapped.inj h
      obtain ⟨name, -, hname⟩ := Option.bind_eq_some_iff.mp htarget
      obtain rfl := Document.name_of_get? hname
      exact ⟨⟨target, hname⟩, mt List.contains_iff_mem.mpr hsum⟩
  · cases h

theorem of_wrapperSource_nested {candidate : Candidate} {name : String}
    (h : wrapperSource scope candidate = .nested name) : name ∈ scope.sums := by
  unfold wrapperSource at h
  split at h
  · split at h
    · rename_i hsum
      obtain rfl := BranchSource.nested.inj h
      exact List.contains_iff_mem.mp hsum
    · cases h
  · cases h

theorem of_wrapperSource_inline {candidate : Candidate} {item : Node}
    (h : wrapperSource scope candidate = .inline item) :
    candidate.item = item ∧ candidate.refName.bind scope.document.get? = none := by
  unfold wrapperSource at h
  split at h
  · split at h <;> cases h
  · rename_i hnone
    exact ⟨BranchSource.inline.inj h, hnone⟩

/-! ## The branches of a decided base -/

theorem baseOf_eq_ok_iff {base : Base} :
    baseOf scope pending = .ok base ↔
      (pending.candidates.map (·.value)).Nodup ∧
        base =
          { definition := pending.definition.name
            property := pending.property
            form := pending.form
            branches := nameCases [] (sortBy (fun a b => a.value ≤ b.value)
              (pending.candidates.map (branchOf scope pending))) } := by
  rw [baseOf]
  cases h : repeated? [] (pending.candidates.map (·.value)) with
  | some value =>
      constructor
      · intro hbase
        cases hbase
      · rintro ⟨hnodup, -⟩
        have hnone : repeated? [] (pending.candidates.map (·.value)) = none :=
          repeated?_eq_none_iff.mpr ⟨hnodup, fun _ _ => List.not_mem_nil⟩
        rw [hnone] at h
        cases h
  | none =>
      have hnodup := (repeated?_eq_none_iff.mp h).1
      constructor
      · intro hbase
        cases hbase
        exact ⟨hnodup, rfl⟩
      · rintro ⟨-, rfl⟩
        rfl

theorem exists_baseOf_eq_ok (h : (pending.candidates.map (·.value)).Nodup) :
    ∃ base, baseOf scope pending = .ok base := by
  simp only [baseOf_eq_ok_iff]
  exact ⟨_, h, rfl⟩

/-- A base fails on a value that two of its candidates have. -/
theorem exists_baseOf_eq_error (scope : Scope)
    (h : ¬(pending.candidates.map (·.value)).Nodup) :
    ∃ value, [value, value].Sublist (pending.candidates.map (·.value)) ∧
      baseOf scope pending = .error (.duplicateValue pending.definition.name value) := by
  cases hrepeated : repeated? [] (pending.candidates.map (·.value)) with
  | none => exact absurd (repeated?_eq_none_iff.mp hrepeated).1 h
  | some value =>
      refine ⟨value, ?_, ?_⟩
      · exact (of_repeated?_eq_some hrepeated).2.resolve_left List.not_mem_nil
      · rw [baseOf, hrepeated]

variable {base : Base}

theorem values_pairwise_of_baseOf (h : baseOf scope pending = .ok base) :
    (base.branches.map (·.value)).Pairwise (· < ·) := by
  rw [baseOf_eq_ok_iff] at h
  obtain ⟨hnodup, rfl⟩ := h
  have hvalues : (pending.candidates.map (branchOf scope pending)).map (·.value) =
      pending.candidates.map (·.value) := by
    rw [List.map_map]
    exact List.map_congr_left fun candidate _ => value_branchOf candidate
  show ((nameCases [] _).map (·.value)).Pairwise (· < ·)
  rw [map_nameCases fun _ => rfl, List.pairwise_map]
  exact sortBy_key_pairwise_lt (hvalues ▸ hnodup)

theorem caseNames_nodup_of_baseOf (h : baseOf scope pending = .ok base) :
    (base.branches.map (·.caseName)).Nodup := by
  rw [baseOf_eq_ok_iff] at h
  obtain ⟨-, rfl⟩ := h
  exact (caseNames_nodup _ []).1

theorem branches_perm_of_baseOf (h : baseOf scope pending = .ok base) :
    (base.branches.map Branch.unnamed).Perm (pending.candidates.map (branchOf scope pending)) := by
  rw [baseOf_eq_ok_iff] at h
  obtain ⟨-, rfl⟩ := h
  show ((nameCases [] _).map Branch.unnamed).Perm _
  rw [map_nameCases fun _ => rfl]
  have hsorted := (sortBy_perm (fun a b => a.value ≤ b.value)
    (pending.candidates.map (branchOf scope pending))).map Branch.unnamed
  have hunnamed : ((pending.candidates.map (branchOf scope pending)).map Branch.unnamed) =
      pending.candidates.map (branchOf scope pending) := by
    rw [List.map_map]
    refine List.map_congr_left fun candidate _ => ?_
    have hcase : (branchOf scope pending candidate).caseName = "" := caseName_branchOf candidate
    show { branchOf scope pending candidate with caseName := "" } = _
    rw [← hcase]
  rwa [hunnamed] at hsorted

theorem mem_branches_of_baseOf (h : baseOf scope pending = .ok base) {branch : Branch}
    (hbranch : branch ∈ base.branches) :
    ∃ candidate ∈ pending.candidates, branchOf scope pending candidate = branch.unnamed := by
  have hmem := (branches_perm_of_baseOf h).mem_iff.mp (List.mem_map_of_mem hbranch)
  exact List.mem_map.mp hmem

theorem values_perm_of_baseOf (h : baseOf scope pending = .ok base) :
    (base.branches.map (·.value)).Perm (pending.candidates.map (·.value)) := by
  have hperm := (branches_perm_of_baseOf h).map (·.value)
  rw [List.map_map, List.map_map] at hperm
  have hvalues : (fun candidate => (branchOf scope pending candidate).value) =
      fun candidate : Candidate => candidate.value := funext fun candidate => value_branchOf _
  simp only [Function.comp_def, hvalues] at hperm
  exact hperm

theorem mem_values_of_baseOf (h : baseOf scope pending = .ok base) (value : String) :
    value ∈ base.branches.map (·.value) ↔ value ∈ pending.candidates.map (·.value) :=
  (values_perm_of_baseOf h).mem_iff

theorem values_nodup_of_baseOf (h : baseOf scope pending = .ok base) :
    (base.branches.map (·.value)).Nodup := by
  have hperm := values_perm_of_baseOf h
  rw [baseOf_eq_ok_iff] at h
  exact hperm.symm.nodup h.1

theorem definition_of_baseOf (h : baseOf scope pending = .ok base) :
    base.definition = pending.definition.name := by
  rw [baseOf_eq_ok_iff] at h
  obtain ⟨-, rfl⟩ := h
  rfl

/-- A promoted branch of a decided base comes from a candidate for the definition promoted. -/
theorem exists_candidate_of_promoted (h : baseOf scope pending = .ok base) {branch : Branch}
    (hbranch : branch ∈ base.branches) {name : String} (hsource : branch.source = .promoted name) :
    ∃ candidate ∈ pending.candidates, candidate.refName = some name ∧
      candidate.value = branch.value ∧ isPromotable scope pending name = true ∧
      branch.typeName = Naming.typeName name := by
  obtain ⟨candidate, hcandidate, hdecided⟩ := mem_branches_of_baseOf h hbranch
  have hpromoted : (branchOf scope pending candidate).source = .promoted name := by
    rw [hdecided]
    exact hsource
  obtain ⟨href, hpromotable, hname⟩ := of_branchOf_promoted hpromoted
  have hvalue : (branchOf scope pending candidate).value = candidate.value :=
    value_branchOf candidate
  rw [hdecided] at hname hvalue
  exact ⟨candidate, hcandidate, href, hvalue.symm, hpromotable, hname⟩

/-- Any other branch is a wrapper of what one candidate refers to or is. -/
theorem exists_candidate_of_not_promoted (h : baseOf scope pending = .ok base) {branch : Branch}
    (hbranch : branch ∈ base.branches) (hpromoted : branch.isPromoted = false) :
    ∃ candidate ∈ pending.candidates, branch.source = wrapperSource scope candidate := by
  obtain ⟨candidate, hcandidate, hdecided⟩ := mem_branches_of_baseOf h hbranch
  have hwrapper : (branchOf scope pending candidate).isPromoted = false := by
    rw [hdecided]
    exact hpromoted
  have hsource := source_branchOf_of_not_promoted hwrapper
  rw [hdecided] at hsource
  exact ⟨candidate, hcandidate, hsource⟩

/-- What holds of a base whatever it was decided from. -/
structure Coherent (base : Base) : Prop where
  values_nodup : (base.branches.map (·.value)).Nodup
  typeName_promoted : ∀ branch ∈ base.branches, ∀ name, branch.source = .promoted name →
    branch.typeName = Naming.typeName name
  typeName_wrapper : ∀ branch ∈ base.branches, branch.isPromoted = false →
    branch.typeName = Naming.typeName base.definition ++ Naming.member branch.value

theorem coherent_of_baseOf (h : baseOf scope pending = .ok base) : Coherent base where
  values_nodup := values_nodup_of_baseOf h
  typeName_promoted := by
    intro branch hbranch name hsource
    obtain ⟨-, -, -, -, -, hname⟩ := exists_candidate_of_promoted h hbranch hsource
    exact hname
  typeName_wrapper := by
    intro branch hbranch hsource
    obtain ⟨candidate, -, hcandidate⟩ := mem_branches_of_baseOf h hbranch
    have hwrapper : (branchOf scope pending candidate).isPromoted = false := by
      rw [hcandidate]
      exact hsource
    have hname := typeName_branchOf_of_not_promoted hwrapper
    have hvalue : (branchOf scope pending candidate).value = candidate.value :=
      value_branchOf candidate
    rw [hcandidate] at hname hvalue
    rw [definition_of_baseOf h, show branch.value = candidate.value from hvalue]
    exact hname

end Hierarchy

end SchemaCompiler
