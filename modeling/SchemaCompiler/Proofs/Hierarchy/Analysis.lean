import SchemaCompiler.Hierarchy
import SchemaCompiler.Proofs.Fallible

/-!
# Successful analyses

An `Analysis` holds what a successful run of `Hierarchy.analyze` found on its way: the explicit
bases, the abstract bases and the branches of every base.  `Qualifies` lists what the first pass
makes of a definition; `explicitBase?` gives exactly what one of its cases gives
(`explicitBase?_eq_iff`).
-/

namespace SchemaCompiler.Hierarchy

open Fallible

/-- What the definitions that are no explicit base give as implicit bases. -/
def implicitResults (document : Document) (explicit : List Pending) :
    List (Option Pending × List Notice) :=
  (document.sorted.filter fun definition =>
    !explicit.any (·.definition.name = definition.name)).map implicitBase?

def pendingOf (document : Document) (explicit : List Pending) : List Pending :=
  explicit ++ (implicitResults document explicit).filterMap (·.1)

def scopeOf (document : Document) (pending : List Pending) (abstractBases : List AbstractBase) :
    Scope where
  document := document
  tally := Tally.ofDocument document
  sums := pending.map (·.definition.name) ++ abstractBases.map (·.definition)

/-- A successful run, with the equation of each of its passes. -/
structure Analysis (document : Document) where
  qualified : List (Option Pending)
  qualified_eq : document.sorted.mapM (explicitBase? document) = .ok qualified
  abstractBases : List AbstractBase
  abstractBases_eq :
    abstractBasesOf (document.sorted.filter fun definition =>
      !((pendingOf document (qualified.filterMap id)).map (·.definition.name)).contains
        definition.name) = .ok abstractBases
  bases : List Base
  bases_eq :
    (pendingOf document (qualified.filterMap id)).mapM
      (baseOf (scopeOf document (pendingOf document (qualified.filterMap id)) abstractBases)) =
        .ok bases

namespace Analysis

variable {document : Document}

def explicit (run : Analysis document) : List Pending :=
  run.qualified.filterMap id

def pending (run : Analysis document) : List Pending :=
  pendingOf document run.explicit

def scope (run : Analysis document) : Scope :=
  scopeOf document run.pending run.abstractBases

def hierarchy (run : Analysis document) : Hierarchy where
  bases := sortBy (fun a b => a.definition ≤ b.definition) run.bases
  abstractBases := run.abstractBases

def notices (run : Analysis document) : List Notice :=
  (implicitResults document run.explicit).flatMap (·.2)

end Analysis

theorem analyze_eq_ok_iff {document : Document} {hierarchy : Hierarchy} {notices : List Notice} :
    analyze document = .ok (hierarchy, notices) ↔
      ∃ run : Analysis document, hierarchy = run.hierarchy ∧ notices = run.notices := by
  constructor
  · intro h
    obtain ⟨qualified, hqualified, h⟩ := bind_eq_ok_iff.mp h
    obtain ⟨abstractBases, habstract, h⟩ := bind_eq_ok_iff.mp h
    obtain ⟨bases, hbases, h⟩ := bind_eq_ok_iff.mp h
    cases h
    exact ⟨⟨qualified, hqualified, abstractBases, habstract, bases, hbases⟩, rfl, rfl⟩
  · rintro ⟨run, rfl, rfl⟩
    exact bind_eq_ok_iff.mpr ⟨_, run.qualified_eq, bind_eq_ok_iff.mpr ⟨_, run.abstractBases_eq,
      bind_eq_ok_iff.mpr ⟨_, run.bases_eq, rfl⟩⟩⟩

/-! ## What qualifies as an explicit base -/

/-- A definition with a discriminator beside a `oneOf`. -/
structure Discriminates (definition : Definition) (discriminator : Node) (items : List Json) :
    Prop where
  discriminator_eq : definition.node.object? "discriminator" = some discriminator
  items_eq : definition.node.array? "oneOf" = some items

/-- The candidates that the items of an explicit base give. -/
def explicitCandidates (document : Document) (property : String) (items : List Json) :
    List Candidate :=
  (Node.objectItems items).filterMap (explicitCandidate? document property)

/-- What a definition makes: nothing, one of two faults, or a base. -/
inductive Qualifies (document : Document) (definition : Definition) :
    Except SchemaError (Option Pending) → Prop where
  | nothing (h : ∀ discriminator items, ¬Discriminates definition discriminator items) :
      Qualifies document definition (.ok none)
  | noProperty {discriminator : Node} {items : List Json}
      (h : Discriminates definition discriminator items)
      (hproperty : ∀ property, Node.string? discriminator "propertyName" = some property →
        property = "") :
      Qualifies document definition (.error (.missingPropertyName definition.name))
  | noConstant {discriminator : Node} {items : List Json}
      (h : Discriminates definition discriminator items) {property : String}
      (hproperty : Node.string? discriminator "propertyName" = some property)
      (hnonempty : property ≠ "") (hcandidates : explicitCandidates document property items = []) :
      Qualifies document definition (.error (.noConstantVariant definition.name property))
  | base {discriminator : Node} {items : List Json}
      (h : Discriminates definition discriminator items) {property : String}
      (hproperty : Node.string? discriminator "propertyName" = some property)
      (hnonempty : property ≠ "") (hcandidates : explicitCandidates document property items ≠ []) :
      Qualifies document definition (.ok (some ⟨definition, property, .explicit,
        explicitCandidates document property items⟩))

theorem filter_isEmpty_eq_some_iff {name? : Option String} {name : String} :
    name?.filter (!·.isEmpty) = some name ↔ name? = some name ∧ name ≠ "" := by
  rw [Option.filter_eq_some_iff]
  simp

theorem filter_isEmpty_eq_none_iff {name? : Option String} :
    name?.filter (!·.isEmpty) = none ↔ ∀ name, name? = some name → name = "" := by
  rw [Option.filter_eq_none_iff]
  simp

theorem explicitBase?_eq_iff {document : Document} {definition : Definition}
    {result : Except SchemaError (Option Pending)} :
    explicitBase? document definition = result ↔ Qualifies document definition result := by
  unfold explicitBase?
  constructor
  · rintro rfl
    split
    · rename_i discriminator items hdiscriminator hitems
      have h : Discriminates definition discriminator items := ⟨hdiscriminator, hitems⟩
      split
      · rename_i hnone
        exact .noProperty h (filter_isEmpty_eq_none_iff.mp hnone)
      · rename_i property hproperty
        obtain ⟨hproperty, hnonempty⟩ := filter_isEmpty_eq_some_iff.mp hproperty
        split
        · rename_i hcandidates
          exact .noConstant h hproperty hnonempty hcandidates
        · rename_i hcandidates
          exact .base h hproperty hnonempty hcandidates
    · rename_i hneither
      exact .nothing fun discriminator items h =>
        hneither discriminator items h.discriminator_eq h.items_eq
  · intro hresult
    cases hresult with
    | nothing h =>
        split
        · rename_i discriminator items hdiscriminator hitems
          exact absurd ⟨hdiscriminator, hitems⟩ (h discriminator items)
        · rfl
    | noProperty h hproperty =>
        rw [h.discriminator_eq, h.items_eq]
        simp only [filter_isEmpty_eq_none_iff.mpr hproperty]
    | noConstant h hproperty hnonempty hcandidates =>
        rw [explicitCandidates] at hcandidates
        rw [h.discriminator_eq, h.items_eq]
        simp only [filter_isEmpty_eq_some_iff.mpr ⟨hproperty, hnonempty⟩, hcandidates]
    | base h hproperty hnonempty hcandidates =>
        rw [h.discriminator_eq, h.items_eq]
        simp only [filter_isEmpty_eq_some_iff.mpr ⟨hproperty, hnonempty⟩]
        split
        · rename_i hnone
          exact absurd hnone hcandidates
        · rfl

end SchemaCompiler.Hierarchy
