import SchemaCompiler.Proofs.Model.Cases
import SchemaCompiler.Proofs.Reordering.Hierarchy

/-!
# The model of a reordered document

A declaration looks definitions up for three things: whether they have a shape, the properties that
a base shares, and the node of a definition that a wrapper copies.  A reordered base differs in
none of the first two, and no wrapper copies it, because a base is nested and not copied.  So a
reordered document declares the same types (`declare_eq`), and with them come the same names, the
same containment and the same notices (`Model.build_reordered`).
-/

namespace SchemaCompiler

open Fallible

namespace Build

/-! ## What is read from a node -/

section Node

variable {definition definition' : Definition} (h : definition.Reordered definition')

include h

theorem ofNode_eq : PropertySet.ofNode definition.node = PropertySet.ofNode definition'.node := by
  rw [PropertySet.ofNode, PropertySet.ofNode, PropertySet.requiredNames,
    PropertySet.requiredNames, Node.object?, Node.object?, Node.array?, Node.array?,
    h.get?_eq (by decide), h.get?_eq (by decide)]

theorem primaryType?_eq : definition.node.primaryType? = definition'.node.primaryType? := by
  rw [Node.primaryType?, Node.primaryType?, h.get?_eq (by decide)]

theorem enumOfValues_eq (values : Json) :
    enumOfValues definition values = enumOfValues definition' values := by
  have hwidth : definition.node.width = definition'.node.width := by
    rw [Node.width, Node.width, Node.string?, Node.string?, h.get?_eq (by decide)]
  rw [enumOfValues.eq_def, enumOfValues.eq_def, primaryType?_eq h, hwidth, h.name_eq]

end Node

/-! ## What is looked up -/

variable {document other : Document} (h : document.Reordered other)

include h

theorem isSome_get?_eq (name : String) :
    (document.get? name).isSome = (other.get? name).isSome := by
  have hnames := map_eq_of_rel (fun _ _ hdefinition => hdefinition.name_eq) (h.get?_rel name)
  simpa only [Option.isSome_map] using congrArg Option.isSome hnames

theorem known_eq : known document = known other := by
  funext descriptor
  induction descriptor with
  | scalar => rfl
  | reference name => rw [known, known, isSome_get?_eq h]
  | array items ih => rw [known, known, ih]
  | nullable inner ih => rw [known, known, ih]
  | dynamic => rfl

theorem fieldsFrom_eq (origin typeName : String) (used : List String) (set : PropertySet) :
    fieldsFrom document origin typeName used set = fieldsFrom other origin typeName used set := by
  induction set generalizing used with
  | nil => rfl
  | cons entry rest ih =>
      obtain ⟨wireName, property⟩ := entry
      rw [fieldsFrom, fieldsFrom, fieldOf, fieldOf, known_eq h]
      simp only [ih]

theorem branchFields_eq (origin typeName : String) (node : Option Node) {base base' : Option Node}
    (hbase : base.map PropertySet.ofNode = base'.map PropertySet.ofNode) (property : String) :
    branchFields document origin typeName node base property =
      branchFields other origin typeName node base' property := by
  rw [branchFields, branchFields, hbase, fields, fields, fieldsFrom_eq h]

theorem promoted_eq (definition : Definition) (derived : Derived) :
    promoted document definition derived = promoted other definition derived := by
  have hbase : ((document.get? derived.base).map (·.node)).map PropertySet.ofNode =
      ((other.get? derived.base).map (·.node)).map PropertySet.ofNode := by
    rw [Option.map_map, Option.map_map]
    exact map_eq_of_rel (fun _ _ hdefinition => ofNode_eq hdefinition) (h.get?_rel derived.base)
  rw [promoted, promoted, branchFields_eq h _ _ _ hbase]

theorem untagged_eq : untagged document = untagged other := by
  funext base
  rw [untagged, untagged]
  simp only [isSome_get?_eq h]

theorem structural_eq : structural document = structural other := by
  funext definition
  rw [structural, structural, fields, fields, fieldsFrom_eq h, known_eq h]

theorem wrapper_eq {definition definition' : Definition}
    (hdefinition : definition.Reordered definition') (base : Base) {branch : Branch}
    (hwrapped : ∀ name, branch.source = .wrapped name → document.get? name = other.get? name) :
    wrapper document definition base branch = wrapper other definition' base branch := by
  have hbase : (some definition.node).map PropertySet.ofNode =
      (some definition'.node).map PropertySet.ofNode := congrArg some (ofNode_eq hdefinition)
  obtain ⟨value, caseName, typeName, refName, source, description⟩ := branch
  cases source with
  | wrapped name =>
      simp only [wrapper, hwrapped name rfl, hdefinition.name_eq, branchFields_eq h _ _ _ hbase]
  | _ => simp only [wrapper, hdefinition.name_eq, branchFields_eq h _ _ _ hbase]

theorem tagged_eq {definition definition' : Definition}
    (hdefinition : definition.Reordered definition') {base : Base}
    (hwrapped : ∀ branch ∈ base.branches, ∀ name, branch.source = .wrapped name →
      document.get? name = other.get? name) :
    tagged document definition base = tagged other definition' base := by
  have hwrappers : (base.branches.filter (!·.isPromoted)).map (wrapper document definition base) =
      (base.branches.filter (!·.isPromoted)).map (wrapper other definition' base) := by
    refine List.map_congr_left fun branch hbranch => ?_
    exact wrapper_eq h hdefinition base (hwrapped branch (List.mem_filter.mp hbranch).1)
  rw [tagged, tagged, hwrappers, hdefinition.name_eq, hdefinition.description?_eq]

end Build

/-! ## Declarations -/

namespace Hierarchy.Analysis

variable {document other : Document} (h : document.Reordered other) (run : Analysis document)

include h

omit h in
theorem mem_sums_of_reordered {definition : Definition} (hdefinition : definition ∈ document.sorted)
    {node : Node} (hnode : definition.node.Reordered node) :
    definition.name ∈ run.scope.sums ∧ ∃ base, run.hierarchy.base? definition.name = some base := by
  obtain ⟨discriminator, hdiscriminator⟩ := Option.isSome_iff_exists.mp hnode.discriminator
  obtain ⟨items, hitems⟩ := Option.isSome_iff_exists.mp hnode.branches
  obtain ⟨property, -, hpending⟩ :=
    run.exists_pending_of_discriminator hdefinition hdiscriminator hitems
  obtain ⟨base, -, hbase⟩ := run.base?_of_mem_pending hpending
  exact ⟨run.mem_sums_iff.mpr (Or.inl ⟨_, hpending, rfl⟩), base, hbase⟩

/-- A definition that is no sum type is not reordered. -/
theorem get?_eq_of_notMem_sums {name : String} (hname : name ∉ run.scope.sums) :
    document.get? name = other.get? name := by
  cases hfound : document.get? name with
  | none =>
      have hnone := Build.isSome_get?_eq h name
      rw [hfound] at hnone
      exact (Option.not_isSome_iff_eq_none.mp (Bool.eq_false_iff.mp hnone.symm)).symm
  | some definition =>
      obtain ⟨definition', hfound', hdefinition⟩ := h.exists_of_get? hfound
      rw [hfound']
      cases hdefinition with
      | same => rfl
      | base hnode =>
          obtain ⟨hmem, -⟩ := run.mem_sums_of_reordered (Document.mem_sorted_of_get? hfound) hnode
          exact absurd (Document.name_of_get? hfound ▸ hmem) hname

/-- The definitions that wrappers copy are not reordered. -/
theorem get?_eq_of_wrapped {definition : Definition} (hdefinition : definition ∈ document.sorted)
    {base : Base} (hbase : run.hierarchy.base? definition.name = some base) {branch : Branch}
    (hbranch : branch ∈ base.branches) {name : String} (hsource : branch.source = .wrapped name) :
    document.get? name = other.get? name := by
  obtain ⟨pending, -, -, hdecided⟩ := run.exists_pending_of_base? hdefinition hbase
  have hpromoted : branch.isPromoted = false := by rw [Branch.isPromoted, hsource]
  obtain ⟨candidate, -, hwrapper⟩ := exists_candidate_of_not_promoted hdecided hbranch hpromoted
  exact run.get?_eq_of_notMem_sums h (of_wrapperSource_wrapped (hwrapper.symm.trans hsource)).2

theorem declare_eq {definition definition' : Definition}
    (hdefinition : definition ∈ document.sorted)
    (hreordered : definition.Reordered definition') :
    Build.declare ⟨document, run.hierarchy⟩ definition =
      Build.declare ⟨other, run.hierarchy⟩ definition' := by
  have htagged {base : Base} (hbase : run.hierarchy.base? definition.name = some base) :
      Build.tagged document definition base = Build.tagged other definition' base :=
    Build.tagged_eq h hreordered fun branch hbranch name =>
      run.get?_eq_of_wrapped h hdefinition hbase hbranch
  cases hreordered with
  | same =>
      cases hbase : run.hierarchy.base? definition.name with
      | none =>
          simp only [Build.declare, hbase, Build.promoted_eq h, Build.known_eq h,
            Build.untagged_eq h, Build.structural_eq h]
      | some base =>
          simp only [Build.declare, hbase, Build.promoted_eq h, Build.known_eq h, htagged hbase]
  | @base name node node' hnode =>
      -- a reordered base is declared as an enumeration or as a tagged type
      obtain ⟨hmem, base, hbase⟩ := run.mem_sums_of_reordered hdefinition hnode
      have hsame : Definition.Reordered ⟨name, node⟩ ⟨name, node'⟩ := .base hnode
      have hderived := run.derived?_eq_none_of_mem_sums hmem
      obtain ⟨items, items', hitems, hitems', -⟩ := hnode.branches_perm
      have halias := Build.isPlainAlias_eq_false (by decide) hitems
      have halias' := Build.isPlainAlias_eq_false (by decide) hitems'
      have henum : Entries.get? node "enum" = Entries.get? node' "enum" :=
        hnode.get?_eq (by decide)
      simp only [Build.declare, hderived, halias, halias', henum, hbase, htagged hbase,
        Build.enumOfValues_eq hsame, hsame.description?_eq, Bool.false_eq_true, if_false]

end Hierarchy.Analysis

namespace Build

variable {document other : Document} (h : document.Reordered other)

include h

theorem unresolvedNotices_eq {definition definition' : Definition}
    (hreordered : definition.Reordered definition') :
    unresolvedNotices document definition = unresolvedNotices other definition' := by
  have hnames : (Tally.ofJson (.object definition.node)).names =
      (Tally.ofJson (.object definition'.node)).names := by
    refine sortBy_eraseDups_eq fun name => ?_
    rw [Tally.ofJson, Tally.ofJson]
    exact hreordered.tally_perm.mem_iff
  rw [unresolvedNotices, unresolvedNotices, Tally.unresolved, Tally.unresolved, hnames,
    hreordered.name_eq]
  simp only [h.contains_eq]

/-- A reordered document declares the same types with the same notices. -/
theorem declareAll_eq (run : Hierarchy.Analysis document)
    {definitions definitions' : List Definition}
    (hdefinitions : List.Forall₂ Definition.Reordered definitions definitions')
    (hsorted : definitions ⊆ document.sorted) :
    declareAll ⟨document, run.hierarchy⟩ definitions =
      declareAll ⟨other, run.hierarchy⟩ definitions' := by
  induction hdefinitions with
  | nil => rfl
  | @cons definition definition' rest rest' hreordered _ ih =>
      obtain ⟨hdefinition, hrest⟩ := List.cons_subset.mp hsorted
      rw [declareAll, declareAll, run.declare_eq h hdefinition hreordered, ih hrest,
        unresolvedNotices_eq h hreordered]

end Build

/-! ## Models -/

theorem Model.build_eq_ok_of_reordered {document other : Document}
    (h : document.Reordered other) {model : Model} (hbuild : Model.build document = .ok model) :
    Model.build other = .ok { model with checksum := other.checksum } := by
  obtain ⟨run, rfl⟩ := Model.build_eq_ok_iff.mp hbuild
  obtain ⟨analysis, hhierarchy, hnotices⟩ := run.analysis.exists_reordered h
  have hdeclared : Build.declareAll ⟨other, analysis.hierarchy⟩ other.sorted =
      .ok (run.types, run.declared) := by
    rw [hhierarchy, ← run.declared_eq]
    exact (Build.declareAll_eq h run.analysis h.sorted (List.Subset.refl _)).symm
  refine Model.build_eq_ok_iff.mpr
    ⟨⟨analysis, run.types, run.declared, hdeclared, run.claims, run.claims_eq⟩, ?_⟩
  rw [Compilation.model, Compilation.model, hnotices, h.revision_eq]
  rfl

/-- **The order of a document does not matter.**  If definitions and the branches of explicit bases
change places, the document is refused as before or gives the same model but for the checksum. -/
theorem Model.build_reordered {document other : Document} (h : document.Reordered other) :
    (∃ error error', Model.build document = .error error ∧ Model.build other = .error error') ∨
      ∃ model, Model.build document = .ok model ∧
        Model.build other = .ok { model with checksum := other.checksum } := by
  cases hbuild : Model.build document with
  | ok model => exact Or.inr ⟨model, rfl, Model.build_eq_ok_of_reordered h hbuild⟩
  | error error =>
      cases hother : Model.build other with
      | error error' => exact Or.inl ⟨error, error', rfl, rfl⟩
      | ok model =>
          have hback := Model.build_eq_ok_of_reordered h.symm hother
          rw [hbuild] at hback
          cases hback

/-- The definitions of `eventDocument` and the branches of its base in the opposite order. -/
def movedEventDocument : Document where
  definitions :=
    [("Event", kindBase
        [kindRecord "deleted", .object [("$ref", .string "#/$defs/Created")]]),
      ("Created", kindRecord "created")]
  revision := none
  distinct := by decide

theorem reordered_movedEventDocument : eventDocument.Reordered movedEventDocument where
  revision_eq := rfl
  entries :=
    ⟨_, List.Perm.swap _ _ [], .cons (.base
      { discriminator := rfl
        branches := rfl
        members := .cons (.same _) (.cons (.branches (List.Perm.swap _ _ [])) .nil) })
      (.cons (.same _) .nil)⟩

theorem build_reordered_event :
    ∃ model, Model.build eventDocument = .ok model ∧
      Model.build movedEventDocument = .ok { model with checksum := movedEventDocument.checksum } ∧
      model.types.map (·.name) = ["Created", "Event", "EventDeleted"] := by
  have hnames : ((Model.build eventDocument).toOption.map fun model =>
      model.types.map (·.name)) = some ["Created", "Event", "EventDeleted"] := by
    decide
  obtain ⟨model, hbuild, hnames⟩ := exists_of_toOption_map_eq_some hnames
  rcases Model.build_reordered reordered_movedEventDocument with ⟨error, -, herror, -⟩ |
    ⟨model', hbuild', hmoved⟩
  · rw [hbuild] at herror
    cases herror
  · obtain rfl : model = model' := Except.ok.inj (hbuild.symm.trans hbuild')
    exact ⟨model, hbuild, hmoved, hnames⟩

end SchemaCompiler
