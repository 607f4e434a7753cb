import SchemaCompiler.Proofs.Hierarchy.Sums
import SchemaCompiler.Proofs.Reordering.Document

/-!
# The hierarchy of a reordered document

Every pass of the analysis gives the same for a reordered document: candidates are the same up to
their order, so each base is decided in the same way, and its branches are sorted by their values.
-/

namespace SchemaCompiler

open Fallible

theorem map_eq_of_forall₂ {α β γ : Type} {r : α → β → Prop} {f : α → γ} {g : β → γ}
    (hr : ∀ a b, r a b → f a = g b) {xs : List α} {ys : List β} (h : List.Forall₂ r xs ys) :
    xs.map f = ys.map g := by
  rw [← List.forall₂_eq_eq_eq, List.forall₂_map_left_iff, List.forall₂_map_right_iff]
  exact h.imp hr

theorem filterMap_eq_of_forall₂ {α β γ : Type} {r : α → β → Prop} {f : α → Option γ}
    {g : β → Option γ} (hr : ∀ a b, r a b → f a = g b) {xs : List α} {ys : List β}
    (h : List.Forall₂ r xs ys) : xs.filterMap f = ys.filterMap g := by
  have hmap := congrArg (List.filterMap id) (map_eq_of_forall₂ hr h)
  simpa only [List.filterMap_map, Function.id_comp] using hmap

theorem map_eq_of_rel {α β γ : Type} {r : α → β → Prop} {f : α → γ} {g : β → γ}
    (hr : ∀ a b, r a b → f a = g b) {x : Option α} {y : Option β} (h : Option.Rel r x y) :
    x.map f = y.map g := by
  cases h with
  | none => rfl
  | some hab => exact congrArg some (hr _ _ hab)

theorem bind_eq_of_rel {α β γ : Type} {r : α → β → Prop} {f : α → Option γ} {g : β → Option γ}
    (hr : ∀ a b, r a b → f a = g b) {x : Option α} {y : Option β} (h : Option.Rel r x y) :
    x.bind f = y.bind g := by
  cases h with
  | none => rfl
  | some hab => exact hr _ _ hab

/-! ## Reading a definition -/

namespace Definition.Reordered

variable {definition definition' : Definition} (h : definition.Reordered definition')

include h

theorem constantOf?_eq (property : String) :
    Hierarchy.constantOf? definition.node property =
      Hierarchy.constantOf? definition'.node property := by
  rw [Hierarchy.constantOf?, Hierarchy.constantOf?, Node.object?, Node.object?,
    h.get?_eq (by decide)]

theorem isPlainRecord_eq :
    Hierarchy.isPlainRecord definition.node = Hierarchy.isPlainRecord definition'.node := by
  have hcontains : Entries.contains definition.node = Entries.contains definition'.node :=
    funext h.contains_eq
  rw [Hierarchy.isPlainRecord, Hierarchy.isPlainRecord, hcontains, Node.string?, Node.string?,
    h.get?_eq (by decide)]

theorem description?_eq : definition.description? = definition'.description? := by
  rw [Definition.description?, Definition.description?, Node.description?, Node.description?,
    Node.string?, Node.string?, h.get?_eq (by decide)]

theorem implicitBase?_eq :
    Hierarchy.implicitBase? definition = Hierarchy.implicitBase? definition' := by
  cases h with
  | same => rfl
  | @base name node node' hnode =>
      rw [Hierarchy.implicitBase?, Hierarchy.implicitBase?, ← hnode.contains_eq,
        hnode.contains_discriminator]
      rfl

theorem abstractChildren?_eq :
    Hierarchy.abstractChildren? definition = Hierarchy.abstractChildren? definition' := by
  cases h with
  | same => rfl
  | @base name node node' hnode =>
      rw [Hierarchy.abstractChildren?, Hierarchy.abstractChildren?, ← hnode.contains_eq,
        hnode.contains_discriminator]
      rfl

end Definition.Reordered

/-! ## Candidates -/

namespace Hierarchy

/-- A pending base with its candidates in any order. -/
structure Pending.Reordered (pending pending' : Pending) : Prop where
  definition : pending.definition.Reordered pending'.definition
  property_eq : pending.property = pending'.property
  form_eq : pending.form = pending'.form
  candidates : pending.candidates.Perm pending'.candidates

theorem Pending.Reordered.refl (pending : Pending) : pending.Reordered pending :=
  ⟨.same _, rfl, rfl, List.Perm.refl _⟩

theorem Pending.Reordered.name_eq {pending pending' : Pending}
    (h : pending.Reordered pending') : pending.definition.name = pending'.definition.name :=
  h.definition.name_eq

variable {document other : Document} (h : document.Reordered other)

include h

theorem explicitCandidate?_eq (property : String) :
    explicitCandidate? document property = explicitCandidate? other property := by
  funext item
  have htarget : (item.ref?.bind document.get?).bind (constantOf? ·.node property) =
      (item.ref?.bind other.get?).bind (constantOf? ·.node property) := by
    cases item.ref? with
    | none => rfl
    | some name =>
        exact bind_eq_of_rel (fun _ _ hdefinition => hdefinition.constantOf?_eq property)
          (h.get?_rel name)
  rw [explicitCandidate?, explicitCandidate?, htarget]

theorem explicitBase?_reordered {definition definition' : Definition}
    (hdefinition : definition.Reordered definition') {result : Option Pending}
    (hresult : explicitBase? document definition = .ok result) :
    ∃ result', explicitBase? other definition' = .ok result' ∧
      Option.Rel Pending.Reordered result result' := by
  cases hdefinition with
  | same =>
      refine ⟨result, ?_, ?_⟩
      · rw [explicitBase?] at hresult ⊢
        simp only [explicitCandidate?_eq h] at hresult
        exact hresult
      · cases result with
        | none => exact .none
        | some pending => exact .some (.refl pending)
  | @base name node node' hnode =>
      obtain ⟨discriminator, hdiscriminator⟩ := Option.isSome_iff_exists.mp hnode.discriminator
      have hdiscriminator' := (hnode.object?_eq (by decide)).symm.trans hdiscriminator
      obtain ⟨items, items', hitems, hitems', hperm⟩ := hnode.branches_perm
      cases explicitBase?_eq_iff.mp hresult with
      | nothing hnothing => exact absurd ⟨hdiscriminator, hitems⟩ (hnothing discriminator items)
      | @base found listed hdiscriminates property hproperty hnonempty hsome =>
          obtain rfl : discriminator = found :=
            Option.some.inj (hdiscriminator.symm.trans hdiscriminates.discriminator_eq)
          obtain rfl : items = listed :=
            Option.some.inj (hitems.symm.trans hdiscriminates.items_eq)
          have hcandidates : (explicitCandidates document property items).Perm
              (explicitCandidates other property items') := by
            rw [explicitCandidates, explicitCandidate?_eq h]
            exact (hperm.filterMap Json.object?).filterMap _
          have hsome' : explicitCandidates other property items' ≠ [] := fun hnil =>
            hsome (hnil ▸ hcandidates).eq_nil
          exact ⟨_, explicitBase?_eq_iff.mpr
            (.base ⟨hdiscriminator', hitems'⟩ hproperty hnonempty hsome'),
            .some ⟨.base hnode, rfl, rfl, hcandidates⟩⟩

/-! ## Pending bases -/

omit h in
theorem names_eq {explicit explicit' : List Pending}
    (hexplicit : List.Forall₂ Pending.Reordered explicit explicit') :
    explicit.map (·.definition.name) = explicit'.map (·.definition.name) :=
  map_eq_of_forall₂ (fun _ _ hpending => hpending.name_eq) hexplicit

theorem implicitResults_eq {explicit explicit' : List Pending}
    (hexplicit : List.Forall₂ Pending.Reordered explicit explicit') :
    implicitResults document explicit = implicitResults other explicit' := by
  have hany (name : String) : explicit.any (·.definition.name = name) =
      explicit'.any (·.definition.name = name) := by
    have hmap := congrArg (·.any (· = name)) (names_eq hexplicit)
    simpa only [List.any_map, Function.comp_def] using hmap
  refine map_eq_of_forall₂ (fun _ _ hdefinition => hdefinition.implicitBase?_eq)
    (List.rel_filter ?_ h.sorted)
  intro definition definition' hdefinition
  dsimp only
  rw [hany, hdefinition.name_eq]

theorem pendingOf_reordered {explicit explicit' : List Pending}
    (hexplicit : List.Forall₂ Pending.Reordered explicit explicit') :
    List.Forall₂ Pending.Reordered (pendingOf document explicit) (pendingOf other explicit') := by
  rw [pendingOf, pendingOf, implicitResults_eq h hexplicit]
  exact List.rel_append hexplicit (List.forall₂_same.mpr fun pending _ => .refl pending)

omit h in
theorem abstractBasesOf_eq {definitions definitions' : List Definition}
    (hdefinitions : List.Forall₂ Definition.Reordered definitions definitions') :
    abstractBasesOf definitions = abstractBasesOf definitions' := by
  have hbases : (definitions.filterMap fun definition =>
        (abstractChildren? definition).map (AbstractBase.mk definition.name)) =
      definitions'.filterMap fun definition =>
        (abstractChildren? definition).map (AbstractBase.mk definition.name) := by
    refine filterMap_eq_of_forall₂ (fun _ _ hdefinition => ?_) hdefinitions
    rw [hdefinition.abstractChildren?_eq, hdefinition.name_eq]
  rw [abstractBasesOf, abstractBasesOf, hbases]

/-! ## Branches -/

/-- Two scopes in which branches are decided alike. -/
structure Scope.Alike (scope scope' : Scope) : Prop where
  document : scope.document.Reordered scope'.document
  tally : scope.tally.Perm scope'.tally
  sums_eq : scope.sums = scope'.sums

omit h

section Branches

variable {scope scope' : Scope} (hscope : scope.Alike scope') {pending pending' : Pending}
  (hpending : pending.Reordered pending')

include hscope

theorem lookup_map_eq {β : Type} {f : Definition → β} (hf : ∀ a b, a.Reordered b → f a = f b)
    (name : String) :
    (scope.document.get? name).map f = (scope'.document.get? name).map f :=
  map_eq_of_rel hf (hscope.document.get?_rel name)

theorem wrapperSource_eq : wrapperSource scope = wrapperSource scope' := by
  funext candidate
  have hnames : ((candidate.refName.bind scope.document.get?).map (·.name)) =
      (candidate.refName.bind scope'.document.get?).map (·.name) := by
    cases candidate.refName with
    | none => rfl
    | some name => exact lookup_map_eq hscope (fun _ _ hdefinition => hdefinition.name_eq) name
  rw [wrapperSource, wrapperSource, ← hscope.sums_eq]
  cases htarget : candidate.refName.bind scope.document.get? with
  | none =>
      rw [htarget] at hnames
      rw [Option.map_eq_none_iff.mp hnames.symm]
  | some target =>
      rw [htarget] at hnames
      obtain ⟨target', htarget', hname⟩ := Option.map_eq_some_iff.mp hnames.symm
      rw [htarget']
      dsimp only
      rw [hname]

include hpending

theorem isPromotable_eq : isPromotable scope pending = isPromotable scope' pending' := by
  funext name
  have hrecord : (scope.document.get? name).any (isPlainRecord ·.node) =
      (scope'.document.get? name).any (isPlainRecord ·.node) := by
    have hmap := lookup_map_eq hscope (fun _ _ hdefinition => hdefinition.isPlainRecord_eq) name
    have hany := congrArg (Option.any id) hmap
    simpa only [Option.any_map, Function.comp_def, id] using hany
  have htally : scope.tally.count name = scope'.tally.count name := hscope.tally.count_eq name
  rw [isPromotable, isPromotable, hrecord, htally, hpending.candidates.countP_eq]

theorem branchOf_eq : branchOf scope pending = branchOf scope' pending' := by
  funext candidate
  have hdescription : (candidate.refName.bind scope.document.get?).bind (·.description?) =
      (candidate.refName.bind scope'.document.get?).bind (·.description?) := by
    cases candidate.refName with
    | none => rfl
    | some name =>
        exact bind_eq_of_rel (fun _ _ hdefinition => hdefinition.description?_eq)
          (hscope.document.get?_rel name)
  rw [branchOf, branchOf, isPromotable_eq hscope hpending, wrapperSource_eq hscope, hdescription,
    hpending.name_eq]

/-- Every base is decided in the same way. -/
theorem baseOf_reordered {base : Base} (hbase : baseOf scope pending = .ok base) :
    baseOf scope' pending' = .ok base := by
  obtain ⟨hnodup, rfl⟩ := baseOf_eq_ok_iff.mp hbase
  have hperm : (pending.candidates.map (branchOf scope pending)).Perm
      (pending'.candidates.map (branchOf scope pending)) := hpending.candidates.map _
  have hvalues : ((pending.candidates.map (branchOf scope pending)).map (·.value)).Nodup := by
    rw [List.map_map]
    simpa only [Function.comp_def, value_branchOf] using hnodup
  refine baseOf_eq_ok_iff.mpr ⟨(hpending.candidates.map _).nodup hnodup, ?_⟩
  rw [← branchOf_eq hscope hpending, ← sortBy_key_eq_of_perm hperm hvalues, hpending.name_eq,
    hpending.property_eq, hpending.form_eq]

end Branches

/-! ## The whole analysis -/

namespace Analysis

variable (run : Analysis document)

include h

/-- A reordered document has the same hierarchy and the same notices. -/
theorem exists_reordered : ∃ run' : Analysis other,
    run'.hierarchy = run.hierarchy ∧ run'.notices = run.notices := by
  obtain ⟨qualified, hqualified, hresults⟩ :=
    mapM_related (f := explicitBase? document) (g := explicitBase? other)
      (fun _ _ hdefinition _ => explicitBase?_reordered h hdefinition) h.sorted run.qualified_eq
  have hexplicit : List.Forall₂ Pending.Reordered run.explicit (qualified.filterMap id) :=
    List.rel_filterMap (fun _ _ hresult => hresult) hresults
  have hpending : List.Forall₂ Pending.Reordered run.pending
      (pendingOf other (qualified.filterMap id)) := pendingOf_reordered h hexplicit
  have hnames := names_eq hpending
  have habstract : abstractBasesOf (other.sorted.filter fun definition =>
      !((pendingOf other (qualified.filterMap id)).map (·.definition.name)).contains
        definition.name) = .ok run.abstractBases := by
    refine (abstractBasesOf_eq (List.rel_filter ?_ h.sorted)).symm.trans run.abstractBases_eq
    intro definition definition' hdefinition
    show (!(run.pending.map (·.definition.name)).contains definition.name) = true ↔ _
    rw [hnames, hdefinition.name_eq]
  have hscope : run.scope.Alike
      (scopeOf other (pendingOf other (qualified.filterMap id)) run.abstractBases) := by
    refine ⟨h, h.tally_perm, ?_⟩
    show run.pending.map (·.definition.name) ++ _ = _
    rw [hnames]
    rfl
  obtain ⟨bases, hbases, hsame⟩ := mapM_related (f := baseOf run.scope)
    (g := baseOf (scopeOf other (pendingOf other (qualified.filterMap id)) run.abstractBases))
    (fun _ _ hreordered base hbase => ⟨base, baseOf_reordered hscope hreordered hbase, rfl⟩)
    hpending run.bases_eq
  obtain rfl : run.bases = bases := by rwa [List.forall₂_eq_eq_eq] at hsame
  refine ⟨⟨qualified, hqualified, run.abstractBases, habstract, run.bases, hbases⟩, rfl, ?_⟩
  show (implicitResults other (qualified.filterMap id)).flatMap (·.2) =
    (implicitResults document run.explicit).flatMap (·.2)
  rw [implicitResults_eq h hexplicit]

end Analysis

end Hierarchy

end SchemaCompiler
