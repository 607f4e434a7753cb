import Mathlib.Data.List.Basic
import SchemaCompiler.Proofs.Hierarchy.Analysis
import SchemaCompiler.Proofs.Hierarchy.Branches
import SchemaCompiler.Proofs.Model.Declare

/-!
# Successful compilations

A `Compilation` holds what a successful run of `Model.build` found on its way.  The types of its
model are the declared types, with some of their fields boxed and in another order.
-/

namespace SchemaCompiler

open Fallible

/-- A successful run, with the equation of each of its passes. -/
structure Compilation (document : Document) where
  analysis : Hierarchy.Analysis document
  types : List TypeDecl
  declared : List Notice
  declared_eq :
    Build.declareAll ⟨document, analysis.hierarchy⟩ document.sorted = .ok (types, declared)
  claims : Naming.Claims
  claims_eq : Build.claimNames types = .ok claims

namespace Compilation

variable {document : Document}

def source (run : Compilation document) : Build.Source where
  document := document
  hierarchy := run.analysis.hierarchy

def containment (run : Compilation document) : Containment :=
  Build.containment run.types

/-- A declared type as it is emitted. -/
def emitted (run : Compilation document) (type : TypeDecl) : TypeDecl :=
  (Build.boxFields run.containment type).1

def model (run : Compilation document) : Model where
  types := sortBy (fun a b => a.group.rank ≤ b.group.rank) (run.types.map run.emitted)
  containment := run.containment
  notices := run.analysis.notices ++ run.declared ++
    (run.types.map (Build.boxFields run.containment)).flatMap (·.2)
  checksum := document.checksum
  revision := document.revision

end Compilation

theorem Model.build_eq_ok_iff {document : Document} {model : Model} :
    Model.build document = .ok model ↔ ∃ run : Compilation document, model = run.model := by
  constructor
  · intro h
    obtain ⟨⟨hierarchy, found⟩, hanalysis, h⟩ := bind_eq_ok_iff.mp h
    obtain ⟨⟨types, declared⟩, hdeclared, h⟩ := bind_eq_ok_iff.mp h
    obtain ⟨claims, hclaims, h⟩ := bind_eq_ok_iff.mp h
    obtain rfl : _ = model := Except.ok.inj h
    obtain ⟨analysis, rfl, rfl⟩ := Hierarchy.analyze_eq_ok_iff.mp hanalysis
    refine ⟨⟨analysis, types, declared, hdeclared, claims, hclaims⟩, ?_⟩
    rw [Compilation.model, List.map_map]
    rfl
  · rintro ⟨run, rfl⟩
    have hanalysis := Hierarchy.analyze_eq_ok_iff.mpr ⟨run.analysis, rfl, rfl⟩
    refine bind_eq_ok_iff.mpr ⟨_, hanalysis, bind_eq_ok_iff.mpr ⟨_, run.declared_eq,
      bind_eq_ok_iff.mpr ⟨_, run.claims_eq, ?_⟩⟩⟩
    refine congrArg Except.ok ?_
    rw [List.map_map]
    rfl

namespace Compilation

variable {document : Document} (run : Compilation document)

/-! ## Emitted types -/

theorem mem_model_types_iff {type : TypeDecl} :
    type ∈ run.model.types ↔ ∃ declared ∈ run.types, run.emitted declared = type := by
  rw [model, (sortBy_perm _ _).mem_iff, List.mem_map]

theorem fields_emitted (type : TypeDecl) :
    (run.emitted type).fields =
      type.fields.map fun field => (Build.boxField run.containment type field).1 := by
  obtain ⟨definition, origin, name, description, body⟩ := type
  cases body with
  | record fields => exact List.map_map
  | variant base value fields => exact List.map_map
  | _ => rfl

/-- Only records and variants have fields, and only fields are changed. -/
theorem body_emitted_iff {type : TypeDecl} {body : TypeBody}
    (hrecord : ∀ fields, body ≠ .record fields)
    (hvariant : ∀ base value fields, body ≠ .variant base value fields) :
    (run.emitted type).body = body ↔ type.body = body := by
  obtain ⟨definition, origin, name, description, own⟩ := type
  cases own with
  | record fields => exact iff_of_false (hrecord _).symm (hrecord _).symm
  | variant base value fields => exact iff_of_false (hvariant _ _ _).symm (hvariant _ _ _).symm
  | _ => exact Iff.rfl

theorem model_names_perm : (run.model.types.map (·.name)).Perm (run.types.map (·.name)) := by
  have hperm := (sortBy_perm (fun a b => a.group.rank ≤ b.group.rank)
    (run.types.map run.emitted)).map (·.name)
  rw [List.map_map] at hperm
  exact hperm

/-! ## Declared types -/

theorem types_eq : run.types = document.sorted.flatMap (Build.typesOf run.source) :=
  (Build.declareAll_ok run.declared_eq).1

theorem declares {definition : Definition} (h : definition ∈ document.sorted) :
    ∃ notices, Build.Declares run.source definition (Build.typesOf run.source definition, notices) :=
  (Build.declareAll_ok run.declared_eq).2 definition h

theorem coherent {base : Base} (h : base ∈ run.source.hierarchy.bases) :
    Hierarchy.Coherent base := by
  have hmem : base ∈ run.analysis.bases := (sortBy_perm _ _).mem_iff.mp h
  obtain ⟨pending, -, hpending⟩ := exists_of_mem_of_mapM run.analysis.bases_eq hmem
  exact Hierarchy.coherent_of_baseOf hpending

end Compilation

end SchemaCompiler
