import SchemaCompiler.Proofs.Hierarchy.Analysis
import SchemaCompiler.Proofs.Hierarchy.Branches
import SchemaCompiler.Proofs.Reference

/-!
# Promoted definitions

The candidates of a base are drawn from items of its definition, and the tally counts every
reference in them.  A definition that is referred to once therefore is a candidate of one base
only, and there only once: a promoted definition has one base and one value
(`promoted_unique`), and they are what is looked up for it (`derived?_of_promoted`).
-/

namespace SchemaCompiler.Hierarchy

open Fallible

/-! ## Drawing candidates -/

/-- How the candidates of a base are drawn from the items of one list of its definition. -/
structure Draw (pending : Pending) where
  keyword : String
  keyword_mem : keyword ∈ ["oneOf", "anyOf"]
  items : List Json
  items_eq : pending.definition.node.array? keyword = some items
  candidate? : Node → Option Candidate
  candidates_eq : pending.candidates = (Node.objectItems items).filterMap candidate?
  item_eq : ∀ item candidate, candidate? item = some candidate → candidate.item = item
  refName_eq : ∀ item candidate, candidate? item = some candidate →
    candidate.refName = item.ref? ∨ candidate.refName = item.allOfRef?

theorem Draw.keyword_ne {pending : Pending} (draw : Draw pending) {key : String}
    (hkey : key ∉ ["oneOf", "anyOf"]) : draw.keyword ≠ key := by
  intro heq
  exact hkey (heq ▸ draw.keyword_mem)

theorem Draw.candidate?_item {pending : Pending} (draw : Draw pending) {candidate : Candidate}
    (h : candidate ∈ pending.candidates) :
    candidate.item ∈ Node.objectItems draw.items ∧
      draw.candidate? candidate.item = some candidate := by
  rw [draw.candidates_eq] at h
  obtain ⟨item, hitem, hcandidate⟩ := List.mem_filterMap.mp h
  rw [draw.item_eq item candidate hcandidate]
  exact ⟨hitem, hcandidate⟩

theorem Draw.mem_ofMembers {pending : Pending} (draw : Draw pending) {candidate : Candidate}
    (h : candidate ∈ pending.candidates) {name : String} (href : candidate.refName = some name) :
    name ∈ Tally.ofMembers candidate.item := by
  rcases draw.refName_eq _ _ (draw.candidate?_item h).2 with hitem | hitem
  · exact Tally.mem_ofMembers_of_ref? (hitem.symm.trans href)
  · exact Tally.mem_ofMembers_of_allOfRef? (hitem.symm.trans href)

theorem Draw.countP_le {pending : Pending} (draw : Draw pending) (name : String) :
    pending.candidates.countP (·.refName = some name) ≤
      (Tally.ofMembers pending.definition.node).count name := by
  rw [draw.candidates_eq, List.countP_filterMap]
  refine Tally.countP_le_count_of_array? draw.items_eq (draw.keyword_ne (by decide))
    fun item hitem => ?_
  cases hcandidate : draw.candidate? item with
  | none =>
      rw [hcandidate] at hitem
      cases hitem
  | some candidate =>
      rw [hcandidate] at hitem
      have hname : candidate.refName = some name := of_decide_eq_true hitem
      rcases draw.refName_eq item candidate hcandidate with href | href
      · exact Tally.mem_ofMembers_of_ref? (href.symm.trans hname)
      · exact Tally.mem_ofMembers_of_allOfRef? (href.symm.trans hname)

theorem drawn_of_explicitCandidate? {document : Document} {property : String} {item : Node}
    {candidate : Candidate} (h : explicitCandidate? document property item = some candidate) :
    candidate.item = item ∧ candidate.refName = item.ref? := by
  rw [explicitCandidate?] at h
  obtain ⟨value, -, rfl⟩ := Option.map_eq_some_iff.mp h
  exact ⟨rfl, rfl⟩

theorem draw_of_explicitBase? {document : Document} {definition : Definition} {pending : Pending}
    (h : explicitBase? document definition = .ok (some pending)) :
    pending.definition = definition ∧ Nonempty (Draw pending) := by
  cases explicitBase?_eq_iff.mp h with
  | @base discriminator items hdiscriminates property _ _ _ =>
      exact ⟨rfl, ⟨⟨"oneOf", by decide, items, hdiscriminates.items_eq,
        explicitCandidate? document property, rfl,
        fun item candidate hcandidate => (drawn_of_explicitCandidate? hcandidate).1,
        fun item candidate hcandidate =>
          Or.inl (drawn_of_explicitCandidate? hcandidate).2⟩⟩⟩

/-- The candidate of one item of an `anyOf`. -/
def implicitCandidate? (item : Node) : Option Candidate :=
  (suggestion? item).bind fun (_, value) =>
    if value.isEmpty then none else some ⟨item.allOfRef?, value, item⟩

theorem drawn_of_implicitCandidate? {item : Node} {candidate : Candidate}
    (h : implicitCandidate? item = some candidate) :
    candidate.item = item ∧ candidate.refName = item.allOfRef? := by
  obtain ⟨⟨_, value⟩, -, hvalue⟩ := Option.bind_eq_some_iff.mp h
  dsimp only at hvalue
  split at hvalue
  · cases hvalue
  · obtain rfl := Option.some.inj hvalue
    exact ⟨rfl, rfl⟩

/-- An implicit base takes its candidates from the items of its `anyOf`, and its property from the
first of them that suggests one. -/
structure ImplicitForm (definition : Definition) (pending : Pending) (items : List Json) :
    Prop where
  definition_eq : pending.definition = definition
  items_eq : definition.node.array? "anyOf" = some items
  form_eq : pending.form = .implicit
  candidates_eq : pending.candidates = (Node.objectItems items).filterMap implicitCandidate?
  candidates_ne_nil : pending.candidates ≠ []
  property_eq : ((Node.objectItems items).filterMap suggestion?).head?.map (·.1) =
    some pending.property

theorem of_implicitBase? {definition : Definition} {pending : Pending}
    (h : (implicitBase? definition).1 = some pending) :
    ∃ items, ImplicitForm definition pending items := by
  rw [implicitBase?] at h
  split at h
  · cases h
  · cases hitems : definition.node.array? "anyOf" with
    | none =>
        rw [hitems] at h
        cases h
    | some items =>
        rw [hitems, Option.getD_some] at h
        dsimp only at h
        split at h
        · cases h
        · split at h
          · rename_i first property value rest _ _ _ hsuggested hcandidates
            split at h
            · obtain rfl : _ = pending := Option.some.inj h
              refine ⟨items, rfl, hitems, rfl, ?_, ?_, ?_⟩
              · show List.filterMap _ (List.filterMap _ _) = _
                rw [List.filterMap_filterMap]
                refine congrArg (List.filterMap · _) (funext fun item => ?_)
                rw [implicitCandidate?]
                cases suggestion? item <;> rfl
              · show List.filterMap _ (List.filterMap _ _) ≠ _
                rw [hcandidates]
                exact List.cons_ne_nil _ _
              · have hsuggestions : (Node.objectItems items).filterMap suggestion? =
                    ((Node.objectItems items).filterMap fun item =>
                      (suggestion? item).map (item, ·)).map (·.2) := by
                  rw [List.map_filterMap]
                  refine congrArg (List.filterMap · _) (funext fun item => ?_)
                  cases suggestion? item <;> rfl
                rw [hsuggestions, hsuggested]
                rfl
            · cases h
          · cases h
          · cases h

theorem draw_of_implicitBase? {definition : Definition} {pending : Pending}
    (h : (implicitBase? definition).1 = some pending) :
    pending.definition = definition ∧ Nonempty (Draw pending) := by
  obtain ⟨items, hform⟩ := of_implicitBase? h
  obtain rfl := hform.definition_eq
  exact ⟨rfl, ⟨⟨"anyOf", by decide, items, hform.items_eq, implicitCandidate?,
    hform.candidates_eq,
    fun item candidate hcandidate => (drawn_of_implicitCandidate? hcandidate).1,
    fun item candidate hcandidate =>
      Or.inr (drawn_of_implicitCandidate? hcandidate).2⟩⟩⟩

theorem candidates_ne_nil_of_explicitBase? {document : Document} {definition : Definition}
    {pending : Pending} (h : explicitBase? document definition = .ok (some pending)) :
    pending.candidates ≠ [] := by
  cases explicitBase?_eq_iff.mp h with
  | base _ _ _ hcandidates => exact hcandidates

theorem candidates_ne_nil_of_implicitBase? {definition : Definition} {pending : Pending}
    (h : (implicitBase? definition).1 = some pending) : pending.candidates ≠ [] := by
  obtain ⟨items, hform⟩ := of_implicitBase? h
  exact hform.candidates_ne_nil

/-! ## The definitions of pending bases -/

theorem definitions_sublist {definitions : List Definition} {results : List (Option Pending)}
    (h : List.Forall₂ (fun definition result =>
      ∀ pending, result = some pending → pending.definition = definition) definitions results) :
    ((results.filterMap id).map (·.definition)).Sublist definitions := by
  induction h with
  | nil => exact List.Sublist.slnil
  | @cons definition result definitions results hresult _ ih =>
      cases result with
      | none => exact ih.cons definition
      | some pending =>
          obtain rfl : pending.definition = definition := hresult pending rfl
          exact ih.cons_cons pending.definition

theorem explicit_sublist_of_qualified {document : Document} {qualified : List (Option Pending)}
    (h : document.sorted.mapM (explicitBase? document) = .ok qualified) :
    ((qualified.filterMap id).map (·.definition)).Sublist document.sorted := by
  refine definitions_sublist ?_
  refine (mapM_eq_ok_iff.mp h).imp fun definition result h pending hpending => ?_
  exact (draw_of_explicitBase? (hpending ▸ h)).1

/-- What is derived from a base is one of its promoted branches. -/
theorem mem_derived_iff {hierarchy : Hierarchy} {derived : Derived} :
    derived ∈ hierarchy.derived ↔ ∃ base ∈ hierarchy.bases, ∃ branch ∈ base.branches, ∃ name,
      branch.source = .promoted name ∧
        derived = ⟨name, base.definition, base.property, branch.value⟩ := by
  rw [Hierarchy.derived, List.mem_flatMap]
  refine exists_congr fun base => and_congr_right fun _ => ?_
  rw [List.mem_filterMap]
  refine exists_congr fun branch => and_congr_right fun _ => ?_
  cases branch.source with
  | promoted name => simp [eq_comm]
  | _ => simp

namespace Analysis

variable {document : Document} (run : Analysis document)

/-- The definitions that are tried as implicit bases. -/
def remaining : List Definition :=
  document.sorted.filter fun definition =>
    !run.explicit.any (·.definition.name = definition.name)

def implicit : List Pending :=
  (run.remaining.map fun definition => (implicitBase? definition).1).filterMap id

theorem pending_eq : run.pending = run.explicit ++ run.implicit := by
  rw [pending, pendingOf, implicitResults, implicit, remaining, List.filterMap_map,
    List.filterMap_map]
  rfl

theorem explicit_sublist : (run.explicit.map (·.definition)).Sublist document.sorted :=
  explicit_sublist_of_qualified run.qualified_eq

theorem implicit_sublist : (run.implicit.map (·.definition)).Sublist run.remaining := by
  refine definitions_sublist (List.forall₂_map_right_iff.mpr (List.forall₂_same.mpr ?_))
  intro definition _ pending hpending
  exact (draw_of_implicitBase? hpending).1

/-- A base that is pending was found by one of the two tests. -/
theorem explicit_or_implicit_of_mem_pending {pending : Pending} (h : pending ∈ run.pending) :
    explicitBase? document pending.definition = .ok (some pending) ∨
      (implicitBase? pending.definition).1 = some pending := by
  rw [pending_eq, List.mem_append] at h
  rcases h with h | h
  · obtain ⟨result, hresult, hpending⟩ := List.mem_filterMap.mp h
    obtain ⟨definition, -, hdefinition⟩ := exists_of_mem_of_mapM run.qualified_eq hresult
    obtain rfl : result = some pending := hpending
    rw [(draw_of_explicitBase? hdefinition).1]
    exact Or.inl hdefinition
  · obtain ⟨result, hresult, hpending⟩ := List.mem_filterMap.mp h
    obtain ⟨definition, -, hdefinition⟩ := List.mem_map.mp hresult
    obtain rfl : result = some pending := hpending
    rw [(draw_of_implicitBase? hdefinition).1]
    exact Or.inr hdefinition

theorem draw_of_mem_pending {pending : Pending} (h : pending ∈ run.pending) :
    Nonempty (Draw pending) := by
  rcases run.explicit_or_implicit_of_mem_pending h with h | h
  · exact (draw_of_explicitBase? h).2
  · exact (draw_of_implicitBase? h).2

theorem candidates_ne_nil {pending : Pending} (h : pending ∈ run.pending) :
    pending.candidates ≠ [] := by
  rcases run.explicit_or_implicit_of_mem_pending h with h | h
  · exact candidates_ne_nil_of_explicitBase? h
  · exact candidates_ne_nil_of_implicitBase? h

theorem mem_sorted_of_mem_pending {pending : Pending} (h : pending ∈ run.pending) :
    pending.definition ∈ document.sorted := by
  rw [pending_eq, List.mem_append] at h
  rcases h with h | h
  · exact run.explicit_sublist.subset (List.mem_map_of_mem h)
  · exact (List.mem_filter.mp (run.implicit_sublist.subset (List.mem_map_of_mem h))).1

theorem definition_eq_of_name_eq {pending : Pending} (h : pending ∈ run.pending)
    {definition : Definition} (hdefinition : definition ∈ document.sorted)
    (hname : pending.definition.name = definition.name) : pending.definition = definition :=
  Document.eq_of_name_eq (run.mem_sorted_of_mem_pending h) hdefinition hname

theorem pending_names_nodup : (run.pending.map (·.definition.name)).Nodup := by
  have hsorted := document.sorted_names_nodup
  have hexplicit := hsorted.sublist (run.explicit_sublist.map (·.name))
  have himplicit := hsorted.sublist
    ((run.implicit_sublist.trans List.filter_sublist).map (·.name))
  rw [List.map_map] at hexplicit himplicit
  rw [pending_eq, List.map_append]
  refine List.Nodup.append hexplicit himplicit ?_
  intro name hname hname'
  obtain ⟨first, hfirst, rfl⟩ := List.mem_map.mp hname
  obtain ⟨second, hsecond, hsame⟩ := List.mem_map.mp hname'
  have hremaining := run.implicit_sublist.subset (List.mem_map_of_mem hsecond)
  have hnone := (List.mem_filter.mp hremaining).2
  rw [Bool.not_eq_true', List.any_eq_false] at hnone
  exact hnone first hfirst (decide_eq_true hsame.symm)

/-! ## Promotion -/

section Promotable

variable {pending : Pending} (hpending : pending ∈ run.pending) {name : String}
  (hpromotable : isPromotable run.scope pending name = true)

include hpromotable in
theorem count_eq_one_of_isPromotable : (Tally.ofDocument document).count name = 1 :=
  (isPromotable_iff.mp hpromotable).2.1

include hpromotable in
theorem exists_candidate_of_isPromotable :
    ∃ candidate ∈ pending.candidates, candidate.refName = some name := by
  have honce := (isPromotable_iff.mp hpromotable).2.2
  have hpos : 0 < pending.candidates.countP (·.refName = some name) := by omega
  obtain ⟨candidate, hcandidate, href⟩ := List.countP_pos_iff.mp hpos
  exact ⟨candidate, hcandidate, of_decide_eq_true href⟩

include hpending hpromotable

theorem notMem_of_other_definition {definition : Definition}
    (hdefinition : definition ∈ document.sorted)
    (hne : definition.name ≠ pending.definition.name) :
    name ∉ Tally.ofMembers definition.node := by
  intro hmem
  obtain ⟨draw⟩ := run.draw_of_mem_pending hpending
  have htotal := Tally.count_add_count_le_ofDocument name hdefinition
    (run.mem_sorted_of_mem_pending hpending) hne
  have hbase := draw.countP_le name
  have honce := (isPromotable_iff.mp hpromotable).2.2
  have hother : 0 < (Tally.ofMembers definition.node).count name := List.count_pos_iff.mpr hmem
  have hcount := run.count_eq_one_of_isPromotable hpromotable
  omega

/-- A base that refers to the definition is the one that promotes it. -/
theorem eq_of_mem_ofMembers {other : Pending} (hother : other ∈ run.pending)
    (hmem : name ∈ Tally.ofMembers other.definition.node) : other = pending := by
  by_contra hne
  refine run.notMem_of_other_definition hpending hpromotable
    (run.mem_sorted_of_mem_pending hother) ?_ hmem
  intro hnames
  exact hne (List.inj_on_of_nodup_map run.pending_names_nodup hother hpending hnames)

end Promotable

/-- Only one base can promote a definition. -/
theorem pending_eq_of_isPromotable {p q : Pending} (hp : p ∈ run.pending) (hq : q ∈ run.pending)
    {name : String} (hpromotable : isPromotable run.scope p name = true)
    (hpromotable' : isPromotable run.scope q name = true) : p = q := by
  obtain ⟨draw⟩ := run.draw_of_mem_pending hq
  have honce := (isPromotable_iff.mp hpromotable').2.2
  have hdrawn := draw.countP_le name
  have hcount : 0 < (Tally.ofMembers q.definition.node).count name := by omega
  exact (run.eq_of_mem_ofMembers hp hpromotable hq (List.count_pos_iff.mp hcount)).symm

theorem exists_pending_of_mem_bases {base : Base} (h : base ∈ run.bases) :
    ∃ pending ∈ run.pending, baseOf run.scope pending = .ok base :=
  exists_of_mem_of_mapM run.bases_eq h

/-- **A promoted definition has one base and one value.** -/
theorem promoted_unique {base base' : Base} (hbase : base ∈ run.bases) (hbase' : base' ∈ run.bases)
    {branch branch' : Branch} (hbranch : branch ∈ base.branches)
    (hbranch' : branch' ∈ base'.branches) {name : String}
    (hsource : branch.source = .promoted name) (hsource' : branch'.source = .promoted name) :
    base = base' ∧ branch = branch' := by
  obtain ⟨p, hp, hpending⟩ := run.exists_pending_of_mem_bases hbase
  obtain ⟨q, hq, hpending'⟩ := run.exists_pending_of_mem_bases hbase'
  obtain ⟨candidate, hcandidate, href, hvalue, hpromotable, -⟩ :=
    exists_candidate_of_promoted hpending hbranch hsource
  obtain ⟨candidate', hcandidate', href', hvalue', hpromotable', -⟩ :=
    exists_candidate_of_promoted hpending' hbranch' hsource'
  obtain rfl : p = q := run.pending_eq_of_isPromotable hp hq hpromotable hpromotable'
  obtain rfl : base = base' := Except.ok.inj (hpending.symm.trans hpending')
  refine ⟨rfl, ?_⟩
  -- within the base, only one candidate refers to the definition
  have honce := (isPromotable_iff.mp hpromotable).2.2
  obtain ⟨only, honly⟩ := List.length_eq_one_iff.mp (List.countP_eq_length_filter.symm.trans honce)
  have hmem : candidate ∈ [only] :=
    honly ▸ List.mem_filter.mpr ⟨hcandidate, decide_eq_true href⟩
  have hmem' : candidate' ∈ [only] :=
    honly ▸ List.mem_filter.mpr ⟨hcandidate', decide_eq_true href'⟩
  rw [List.mem_singleton] at hmem hmem'
  have hvalues : branch.value = branch'.value := by
    rw [← hvalue, ← hvalue', hmem, hmem']
  exact List.inj_on_of_nodup_map (values_nodup_of_baseOf hpending) hbranch hbranch' hvalues

theorem exists_definition_of_promoted {base : Base} (hbase : base ∈ run.bases) {branch : Branch}
    (hbranch : branch ∈ base.branches) {name : String} (hsource : branch.source = .promoted name) :
    ∃ definition, document.get? name = some definition := by
  obtain ⟨pending, -, hpending⟩ := run.exists_pending_of_mem_bases hbase
  obtain ⟨candidate, -, -, -, hpromotable, -⟩ :=
    exists_candidate_of_promoted hpending hbranch hsource
  obtain ⟨⟨definition, hdefinition, -⟩, -⟩ := isPromotable_iff.mp hpromotable
  exact ⟨definition, hdefinition⟩

theorem mem_hierarchy_bases {base : Base} : base ∈ run.hierarchy.bases ↔ base ∈ run.bases :=
  (sortBy_perm _ _).mem_iff

theorem derived?_of_promoted {base : Base} (hbase : base ∈ run.bases) {branch : Branch}
    (hbranch : branch ∈ base.branches) {name : String} (hsource : branch.source = .promoted name) :
    run.hierarchy.derived? name =
      some ⟨name, base.definition, base.property, branch.value⟩ := by
  rw [derived?]
  have hmem : Derived.mk name base.definition base.property branch.value ∈
      run.hierarchy.derived := by
    exact mem_derived_iff.mpr
      ⟨base, run.mem_hierarchy_bases.mpr hbase, branch, hbranch, name, hsource, rfl⟩
  refine find?_name_eq_some hmem rfl ?_
  -- whatever has the name was promoted as well, and there is only one such branch
  intro found hfound hname
  obtain ⟨base', hbase', branch', hbranch', definition, hsource', rfl⟩ := mem_derived_iff.mp hfound
  obtain rfl : definition = name := hname
  obtain ⟨rfl, rfl⟩ := run.promoted_unique hbase (run.mem_hierarchy_bases.mp hbase')
    hbranch hbranch' hsource hsource'
  rfl

end Analysis

end SchemaCompiler.Hierarchy
