import SchemaCompiler.Proofs.Description.Document
import SchemaCompiler.Proofs.Hierarchy.Analysis
import SchemaCompiler.Proofs.Hierarchy.Branches

/-!
# The hierarchy without descriptions

Which definitions are sum types and what their branches are hangs on keywords, constants, titles
and references, and on how often a name is referred to.  None of them is a description, so a
document without descriptions has the hierarchy of the document without descriptions
(`Hierarchy.analyze_undescribed`).
-/

namespace SchemaCompiler

def BranchSource.undescribed : BranchSource → BranchSource
  | .inline node => .inline node.undescribed
  | other => other

def Branch.undescribed (branch : Branch) : Branch :=
  { branch with
    source := branch.source.undescribed
    description := none }

def Base.undescribed (base : Base) : Base :=
  { base with branches := base.branches.map Branch.undescribed }

namespace Hierarchy

open Fallible

def undescribed (hierarchy : Hierarchy) : Hierarchy :=
  { hierarchy with bases := hierarchy.bases.map Base.undescribed }

def Candidate.undescribed (candidate : Candidate) : Candidate :=
  { candidate with item := candidate.item.undescribed }

def Pending.undescribed (pending : Pending) : Pending :=
  { pending with
    definition := pending.definition.undescribed
    candidates := pending.candidates.map Candidate.undescribed }

def Scope.undescribed (scope : Scope) : Scope :=
  { scope with document := scope.document.undescribed }

/-! ## Constants -/

@[simp] theorem constantOf?_undescribed (node : Node) (property : String) :
    constantOf? node.undescribed property = constantOf? node property := by
  rw [constantOf?, node.properties_undescribed, constantOf?]
  cases node.object? "properties" with
  | none => rfl
  | some properties =>
      show (Node.object? (Json.undescribedAll properties) property).bind _ =
        (Node.object? properties property).bind _
      rw [Node.object?, Json.get?_undescribedAll, Node.object?]
      cases Entries.get? properties property with
      | none => rfl
      | some value =>
          cases value with
          | object declared => exact Node.get?_undescribed_eq declared (by decide)
          | _ => rfl

@[simp] theorem firstConstant?_undescribed (node : Node) :
    firstConstant? node.undescribed = firstConstant? node := by
  rw [firstConstant?, node.properties_undescribed, firstConstant?]
  cases node.object? "properties" with
  | none => rfl
  | some properties =>
      show (Json.undescribedAll properties).findSome? _ = properties.findSome? _
      rw [Json.undescribedAll_eq, List.findSome?_map]
      refine congrArg (List.findSome? · properties) (funext fun member => ?_)
      have hconstant : member.2.undescribed.get? "const" = member.2.get? "const" :=
        member.2.get?_undescribed_eq (by decide)
      rw [Function.comp_apply]
      simp only [hconstant]

@[simp] theorem suggestion?_undescribed (item : Node) :
    suggestion? item.undescribed = suggestion? item := by
  rw [suggestion?, firstConstant?_undescribed, item.string?_undescribed (by decide), suggestion?]

/-! ## Bases -/

theorem explicitCandidate?_undescribed (document : Document) (property : String) (item : Node) :
    explicitCandidate? document.undescribed property item.undescribed =
      (explicitCandidate? document property item).map Candidate.undescribed := by
  have htarget : ((item.ref?.bind document.undescribed.get?).bind
      (constantOf? ·.node property)) =
      (item.ref?.bind document.get?).bind (constantOf? ·.node property) := by
    cases item.ref? with
    | none => rfl
    | some name =>
        rw [Option.bind_some, Option.bind_some, document.get?_undescribed, Option.bind_map]
        exact Option.bind_congr fun target _ => constantOf?_undescribed target.node property
  simp only [explicitCandidate?, Node.ref?_undescribed, constantOf?_undescribed, htarget,
    Option.map_map]
  rfl

theorem explicitBase?_undescribed (document : Document) (definition : Definition) :
    explicitBase? document.undescribed definition.undescribed =
      (explicitBase? document definition).map (·.map Pending.undescribed) := by
  have hcandidates (property : String) (items : List Json) :
      (Node.objectItems (items.map Json.undescribed)).filterMap
        (explicitCandidate? document.undescribed property) =
      ((Node.objectItems items).filterMap (explicitCandidate? document property)).map
        Candidate.undescribed := by
    rw [Node.objectItems_undescribed, List.filterMap_map, List.map_filterMap]
    exact List.filterMap_congr fun item _ => explicitCandidate?_undescribed document property item
  rw [explicitBase?, definition.node_undescribed, Node.object?_undescribed_eq _ (by decide),
    Node.array?_undescribed_branches _ (Or.inl rfl), explicitBase?]
  cases definition.node.object? "discriminator" with
  | none => rfl
  | some discriminator =>
      cases definition.node.array? "oneOf" with
      | none => rfl
      | some items =>
          simp only [Option.map_some, hcandidates]
          cases (Node.string? discriminator "propertyName").filter (!·.isEmpty) with
          | none => rfl
          | some property =>
              simp only
              cases (Node.objectItems items).filterMap
                (explicitCandidate? document property) <;> rfl

/-! ### Implicit bases -/

/-- An item with the property and the value that it suggests. -/
abbrev Suggestion := Node × String × String

def Suggestion.undescribed (suggestion : Suggestion) : Suggestion :=
  (suggestion.1.undescribed, suggestion.2)

def Suggestion.candidate? (suggestion : Suggestion) : Option Candidate :=
  if suggestion.2.2.isEmpty then none
  else some ⟨suggestion.1.allOfRef?, suggestion.2.2, suggestion.1⟩

def suggestions (items : List Node) : List Suggestion :=
  items.filterMap fun item => (suggestion? item).map (item, ·)

/-- What the suggestions of the items make of a definition. -/
def settle (definition : Definition) (suggested : List Suggestion) (candidates : List Candidate) :
    Option Pending × List Notice :=
  match suggested, candidates with
  | (_, property, _) :: _, _ :: _ :: _ =>
    if (candidates.map (·.value)).eraseDups.length = (candidates.map (·.value)).length then
      (some ⟨definition, property, .implicit, candidates⟩, [])
    else (none, [])
  | _, [_] => (none, [.undiscriminatedUnion definition.name 1])
  | _, _ => (none, [])

theorem implicitBase?_eq (definition : Definition) :
    implicitBase? definition =
      if Entries.contains definition.node "discriminator" ||
          Entries.contains definition.node "oneOf" then (none, [])
      else
        let items := Node.objectItems ((definition.node.array? "anyOf").getD [])
        if !items.any (·.allOfRef?.isSome) then (none, [])
        else settle definition (suggestions items)
          ((suggestions items).filterMap Suggestion.candidate?) :=
  rfl

theorem suggestions_undescribed (items : List Node) :
    suggestions (items.map Node.undescribed) = (suggestions items).map Suggestion.undescribed := by
  rw [suggestions, List.filterMap_map, suggestions, List.map_filterMap]
  refine List.filterMap_congr fun item _ => ?_
  rw [Function.comp_apply, suggestion?_undescribed, Option.map_map]
  rfl

theorem candidates_undescribed (suggested : List Suggestion) :
    (suggested.map Suggestion.undescribed).filterMap Suggestion.candidate? =
      (suggested.filterMap Suggestion.candidate?).map Candidate.undescribed := by
  rw [List.filterMap_map, List.map_filterMap]
  refine List.filterMap_congr fun suggestion _ => ?_
  rw [Function.comp_apply, Suggestion.candidate?, Suggestion.candidate?, Suggestion.undescribed,
    Node.allOfRef?_undescribed]
  split <;> rfl

theorem map_value_undescribed (candidates : List Candidate) :
    (candidates.map Candidate.undescribed).map (·.value) = candidates.map (·.value) := by
  rw [List.map_map]
  rfl

theorem settle_undescribed (definition : Definition) (suggested : List Suggestion)
    (candidates : List Candidate) :
    settle definition.undescribed (suggested.map Suggestion.undescribed)
        (candidates.map Candidate.undescribed) =
      ((settle definition suggested candidates).1.map Pending.undescribed,
        (settle definition suggested candidates).2) := by
  rcases suggested with _ | ⟨⟨item, property, value⟩, suggested⟩
  · rcases candidates with _ | ⟨first, _ | ⟨second, rest⟩⟩ <;> rfl
  · rcases candidates with _ | ⟨first, _ | ⟨second, rest⟩⟩
    · rfl
    · rfl
    · have hvalues := map_value_undescribed (first :: second :: rest)
      simp only [List.map_cons, settle] at hvalues ⊢
      rw [hvalues]
      split <;> rfl

theorem implicitBase?_undescribed (definition : Definition) :
    implicitBase? definition.undescribed =
      ((implicitBase? definition).1.map Pending.undescribed, (implicitBase? definition).2) := by
  have hitems : Node.objectItems ((definition.undescribed.node.array? "anyOf").getD []) =
      (Node.objectItems ((definition.node.array? "anyOf").getD [])).map Node.undescribed := by
    rw [definition.node_undescribed, Node.array?_undescribed_branches _ (Or.inr rfl)]
    cases definition.node.array? "anyOf" with
    | none => rfl
    | some items => exact Node.objectItems_undescribed items
  have hcontains : ∀ key ∈ ["discriminator", "oneOf"],
      Entries.contains definition.undescribed.node key = Entries.contains definition.node key := by
    intro key hkey
    refine definition.node.contains_undescribed ?_
    rintro rfl
    exact absurd hkey (by decide)
  rw [implicitBase?_eq, implicitBase?_eq, hitems, hcontains _ (by decide), hcontains _ (by decide)]
  split
  · rfl
  · have hany (items : List Node) : (items.map Node.undescribed).any (·.allOfRef?.isSome) =
        items.any (·.allOfRef?.isSome) := by
      simp only [List.any_map, Function.comp_def, Node.allOfRef?_undescribed]
    simp only [hany, suggestions_undescribed, candidates_undescribed, settle_undescribed]
    split <;> rfl

/-! ### Abstract bases -/

@[simp] theorem hasConstant_undescribed (item : Node) :
    hasConstant item.undescribed = hasConstant item := by
  rw [hasConstant, firstConstant?_undescribed, hasConstant]

theorem abstractChildren?_undescribed (definition : Definition) :
    abstractChildren? definition.undescribed = abstractChildren? definition := by
  have hchildren (items : List Json) :
      ((Node.objectItems (items.map Json.undescribed)).mapM fun item =>
        if hasConstant item then none else item.allOfRef?) =
      (Node.objectItems items).mapM fun item =>
        if hasConstant item then none else item.allOfRef? := by
    rw [Node.objectItems_undescribed, List.mapM_map]
    simp only [Function.comp_def, hasConstant_undescribed, Node.allOfRef?_undescribed]
  rw [abstractChildren?, definition.node_undescribed, Node.contains_undescribed _ (by decide),
    Node.array?_undescribed_branches _ (Or.inr rfl), abstractChildren?]
  cases definition.node.array? "anyOf" with
  | none => rfl
  | some items => simp only [Option.map_some, Option.bind_eq_bind, Option.bind_some, hchildren]

theorem abstractBasesOf_undescribed (definitions : List Definition) :
    abstractBasesOf (definitions.map Definition.undescribed) = abstractBasesOf definitions := by
  have hbases : (definitions.map Definition.undescribed).filterMap (fun definition =>
      (abstractChildren? definition).map (AbstractBase.mk definition.name)) =
      definitions.filterMap fun definition =>
        (abstractChildren? definition).map (AbstractBase.mk definition.name) := by
    rw [List.filterMap_map]
    refine List.filterMap_congr fun definition _ => ?_
    rw [Function.comp_apply, abstractChildren?_undescribed]
    rfl
  rw [abstractBasesOf, hbases, abstractBasesOf]

/-! ## Branches -/

@[simp] theorem isPlainRecord_undescribed (node : Node) :
    isPlainRecord node.undescribed = isPlainRecord node := by
  rw [isPlainRecord, node.contains_undescribed (by decide), node.string?_undescribed (by decide),
    node.any_contains_undescribed (by decide), isPlainRecord]

theorem isPromotable_undescribed (scope : Scope) (pending : Pending) :
    isPromotable scope.undescribed pending.undescribed = isPromotable scope pending := by
  funext name
  have hrecord : (scope.document.undescribed.get? name).any (isPlainRecord ·.node) =
      (scope.document.get? name).any (isPlainRecord ·.node) := by
    rw [Document.get?_undescribed, Option.any_map]
    simp only [Definition.node_undescribed, isPlainRecord_undescribed]
  have hcandidates : pending.undescribed.candidates.countP (·.refName = some name) =
      pending.candidates.countP (·.refName = some name) := by
    rw [Pending.undescribed, List.countP_map]
    rfl
  rw [isPromotable, hcandidates, isPromotable]
  exact congrArg (· && _ && _) hrecord

theorem target_undescribed (scope : Scope) (candidate : Candidate) :
    candidate.refName.bind scope.undescribed.document.get? =
      (candidate.refName.bind scope.document.get?).map Definition.undescribed := by
  rw [Option.map_bind]
  exact Option.bind_congr fun name _ => scope.document.get?_undescribed name

theorem wrapperSource_undescribed (scope : Scope) (candidate : Candidate) :
    wrapperSource scope.undescribed candidate.undescribed =
      (wrapperSource scope candidate).undescribed := by
  have htarget : candidate.undescribed.refName.bind scope.undescribed.document.get? =
      (candidate.refName.bind scope.document.get?).map Definition.undescribed :=
    target_undescribed scope candidate
  rw [wrapperSource, wrapperSource, htarget]
  cases candidate.refName.bind scope.document.get? with
  | none => rfl
  | some target =>
      show (if scope.sums.contains target.name then _ else _) =
        BranchSource.undescribed (if scope.sums.contains target.name then _ else _)
      split <;> rfl

theorem branchOf_undescribed (scope : Scope) (pending : Pending) (candidate : Candidate) :
    branchOf scope.undescribed pending.undescribed candidate.undescribed =
      (branchOf scope pending candidate).undescribed := by
  have hdescription : ((candidate.refName.bind scope.undescribed.document.get?).bind
      (·.description?)) = none := by
    rw [target_undescribed, Option.bind_map]
    exact Option.bind_eq_none_iff.mpr fun target _ => Node.description?_undescribed target.node
  have hfilter : candidate.undescribed.refName.filter
      (isPromotable scope.undescribed pending.undescribed) =
      candidate.refName.filter (isPromotable scope pending) := by
    rw [isPromotable_undescribed]
    rfl
  cases hpromoted : candidate.refName.filter (isPromotable scope pending) with
  | some name =>
      rw [branchOf_promoted hpromoted, branchOf_promoted (hfilter.trans hpromoted)]
      exact congrArg (Branch.mk _ _ _ _ _) hdescription
  | none =>
      rw [branchOf_wrapper hpromoted, branchOf_wrapper (hfilter.trans hpromoted),
        wrapperSource_undescribed]
      refine congrArg (Branch.mk _ _ _ _ _) ?_
      -- a branch takes its description from the item or else from what it refers to
      show candidate.item.undescribed.description?.or _ = none
      rw [Node.description?_undescribed, Option.none_or]
      exact hdescription

theorem nameCases_undescribed (used : List String) (branches : List Branch) :
    nameCases used (branches.map Branch.undescribed) =
      (nameCases used branches).map Branch.undescribed := by
  induction branches generalizing used with
  | nil => rfl
  | cons branch rest ih =>
      rw [List.map_cons, nameCases, nameCases, ih, List.map_cons]
      rfl

theorem baseOf_undescribed (scope : Scope) (pending : Pending) :
    baseOf scope.undescribed pending.undescribed =
      (baseOf scope pending).map Base.undescribed := by
  have hvalues : pending.undescribed.candidates.map (·.value) = pending.candidates.map (·.value) :=
    map_value_undescribed pending.candidates
  have hbranches : pending.undescribed.candidates.map
      (branchOf scope.undescribed pending.undescribed) =
      (pending.candidates.map (branchOf scope pending)).map Branch.undescribed := by
    rw [Pending.undescribed, List.map_map, List.map_map]
    exact List.map_congr_left fun candidate _ => branchOf_undescribed scope pending candidate
  have hsorted (branches : List Branch) :
      sortBy (fun a b => a.value ≤ b.value) (branches.map Branch.undescribed) =
        (sortBy (fun a b => a.value ≤ b.value) branches).map Branch.undescribed :=
    sortBy_map (fun _ _ => rfl) branches
  rw [baseOf, hvalues, baseOf]
  cases repeated? [] (pending.candidates.map (·.value)) with
  | some value => rfl
  | none =>
      simp only [hbranches, hsorted, nameCases_undescribed]
      rfl

/-! ## The whole document -/

/-- What is left to do once the explicit bases are known. -/
def analyzeFrom (document : Document) (explicit : List Pending) :
    Except SchemaError (Hierarchy × List Notice) :=
  let pending := pendingOf document explicit
  let others := document.sorted.filter fun definition =>
    !(pending.map (·.definition.name)).contains definition.name
  (abstractBasesOf others).bind fun abstractBases =>
    (pending.mapM (baseOf (scopeOf document pending abstractBases))).bind fun bases =>
      .ok (⟨sortBy (fun a b => a.definition ≤ b.definition) bases, abstractBases⟩,
        (implicitResults document explicit).flatMap (·.2))

theorem analyze_eq (document : Document) :
    analyze document = (document.sorted.mapM (explicitBase? document)).bind fun qualified =>
      analyzeFrom document (qualified.filterMap id) :=
  rfl

section Document

variable (document : Document) (pending : List Pending)

theorem map_name_undescribed :
    (pending.map Pending.undescribed).map (·.definition.name) =
      pending.map (·.definition.name) := by
  rw [List.map_map]
  rfl

theorem implicitResults_undescribed :
    implicitResults document.undescribed (pending.map Pending.undescribed) =
      (implicitResults document pending).map fun (found, notices) =>
        (found.map Pending.undescribed, notices) := by
  have hnames (name : String) :
      (pending.map Pending.undescribed).any (·.definition.name = name) =
        pending.any (·.definition.name = name) := by
    rw [List.any_map]
    rfl
  rw [implicitResults, implicitResults, document.sorted_undescribed, List.filter_map,
    List.map_map, List.map_map]
  simp only [hnames]
  exact List.map_congr_left fun definition _ => implicitBase?_undescribed definition

theorem pendingOf_undescribed :
    pendingOf document.undescribed (pending.map Pending.undescribed) =
      (pendingOf document pending).map Pending.undescribed := by
  rw [pendingOf, implicitResults_undescribed, List.filterMap_map, pendingOf, List.map_append,
    List.map_filterMap]
  rfl

theorem scopeOf_undescribed (abstractBases : List AbstractBase) :
    scopeOf document.undescribed (pending.map Pending.undescribed) abstractBases =
      (scopeOf document pending abstractBases).undescribed := by
  rw [scopeOf, document.tally_undescribed, map_name_undescribed]
  rfl

end Document

theorem analyzeFrom_undescribed (document : Document) (explicit : List Pending) :
    analyzeFrom document.undescribed (explicit.map Pending.undescribed) =
      (analyzeFrom document explicit).map fun (hierarchy, notices) =>
        (hierarchy.undescribed, notices) := by
  have hothers (names : List String) :
      (document.sorted.map Definition.undescribed).filter (fun definition =>
        !names.contains definition.name) =
      (document.sorted.filter fun definition => !names.contains definition.name).map
        Definition.undescribed := by
    rw [List.filter_map]
    rfl
  have hbases (pending : List Pending) (abstractBases : List AbstractBase) :
      (pending.map Pending.undescribed).mapM
        (baseOf (scopeOf document pending abstractBases).undescribed) =
      (pending.mapM (baseOf (scopeOf document pending abstractBases))).map
        (·.map Base.undescribed) :=
    mapM_map_eq (baseOf_undescribed _) pending
  have hsorted (bases : List Base) :
      sortBy (fun a b => a.definition ≤ b.definition) (bases.map Base.undescribed) =
        (sortBy (fun a b => a.definition ≤ b.definition) bases).map Base.undescribed :=
    sortBy_map (fun _ _ => rfl) bases
  have hnotices (results : List (Option Pending × List Notice)) :
      (results.map fun (found, notices) => (found.map Pending.undescribed, notices)).flatMap (·.2) =
        results.flatMap (·.2) := by
    rw [List.flatMap_map]
  simp only [analyzeFrom, pendingOf_undescribed, implicitResults_undescribed, map_name_undescribed,
    document.sorted_undescribed, hothers, abstractBasesOf_undescribed, scopeOf_undescribed, hbases,
    hnotices, map_bind_eq, bind_map_eq, hsorted]
  rfl

/-- **Descriptions do not decide the hierarchy.** -/
theorem analyze_undescribed (document : Document) :
    analyze document.undescribed =
      (analyze document).map fun (hierarchy, notices) => (hierarchy.undescribed, notices) := by
  have hqualified : document.undescribed.sorted.mapM (explicitBase? document.undescribed) =
      (document.sorted.mapM (explicitBase? document)).map (·.map (·.map Pending.undescribed)) := by
    rw [document.sorted_undescribed]
    exact mapM_map_eq (explicitBase?_undescribed document) document.sorted
  have hexplicit (qualified : List (Option Pending)) :
      (qualified.map (·.map Pending.undescribed)).filterMap id =
        (qualified.filterMap id).map Pending.undescribed := by
    rw [List.filterMap_map, List.map_filterMap]
    rfl
  rw [analyze_eq, analyze_eq, hqualified, bind_map_eq, map_bind_eq]
  simp only [hexplicit, analyzeFrom_undescribed]

/-! ## What is looked up in a hierarchy -/

section Lookup

variable (hierarchy : Hierarchy) (definition : String)

theorem base?_undescribed :
    hierarchy.undescribed.base? definition = (hierarchy.base? definition).map Base.undescribed := by
  rw [base?, undescribed, List.find?_map, base?]
  rfl

theorem abstractBase?_undescribed :
    hierarchy.undescribed.abstractBase? definition = hierarchy.abstractBase? definition :=
  rfl

/-- The branches that are promoted stay the same. -/
theorem derived?_undescribed :
    hierarchy.undescribed.derived? definition = hierarchy.derived? definition := by
  have hderived : hierarchy.undescribed.derived = hierarchy.derived := by
    rw [derived, undescribed, List.flatMap_map, derived]
    refine List.flatMap_congr fun base _ => ?_
    rw [Base.undescribed, List.filterMap_map]
    refine List.filterMap_congr fun branch _ => ?_
    rw [Function.comp_apply, Branch.undescribed]
    cases branch.source <;> rfl
  rw [derived?, hderived, derived?]

end Lookup

end Hierarchy

end SchemaCompiler
