import SchemaCompiler.Proofs.Document
import SchemaCompiler.Proofs.Model.Compilation
import SchemaCompiler.Proofs.Naming.Claims
import SchemaCompiler.Proofs.Naming.Provenance

/-!
# Names of emitted types

No two emitted types share a name.  The claims alone do not give this, since types of one origin
may claim one name.  But every type has a provenance, no provenance comes twice, and two types of
one name have one origin and hence one provenance.
-/

namespace SchemaCompiler

open Naming (Provenance)

namespace Naming.Provenance

/-- The definition whose declaration gives rise to the type. -/
def owner : Provenance → String
  | definition name => name
  | wrapper base _ => base

/-- What a type shows of its provenance. -/
def stamp (p : Provenance) : String × String :=
  (p.origin, p.typeName)

theorem stamp_injective : Function.Injective stamp := by
  intro p q h
  exact eq_of_origin_of_typeName (Prod.mk.inj h).1 (Prod.mk.inj h).2

end Naming.Provenance

def TypeDecl.stamp (type : TypeDecl) : String × String :=
  (type.origin, type.name)

/-! ## The types of one definition -/

/-- The provenances of the types that one definition declares. -/
structure Named (definition : Definition) (types : List TypeDecl) (ps : List Provenance) :
    Prop where
  stamps_eq : types.map TypeDecl.stamp = ps.map Provenance.stamp
  nodup : ps.Nodup
  owner_eq : ∀ p ∈ ps, p.owner = definition.name

namespace Build

variable {source : Source} {definition : Definition}

theorem named_single (result : TypeBody × List Notice) :
    Named definition (single definition result).1 [.definition definition.name] where
  stamps_eq := rfl
  nodup := List.nodup_singleton _
  owner_eq := by
    intro p hp
    rw [List.mem_singleton.mp hp]
    rfl

theorem stamp_wrapper {document : Document} {base : Base} {branch : Branch}
    (hdefinition : base.definition = definition.name) (hcoherent : Hierarchy.Coherent base)
    (hbranch : branch ∈ base.branches) (hpromoted : branch.isPromoted = false) :
    (wrapper document definition base branch).1.stamp =
      (Provenance.wrapper definition.name branch.value).stamp := by
  have hname := hcoherent.typeName_wrapper branch hbranch hpromoted
  rw [hdefinition] at hname
  exact congrArg (Prod.mk (definition.name ++ "[" ++ branch.value ++ "]")) hname

theorem named_tagged {document : Document} {base : Base}
    (hdefinition : base.definition = definition.name) (hcoherent : Hierarchy.Coherent base) :
    Named definition (tagged document definition base).1
      (.definition definition.name ::
        (base.branches.filter (!·.isPromoted)).map fun branch =>
          .wrapper definition.name branch.value) where
  stamps_eq := by
    show _ :: _ = _ :: _
    rw [List.map_map, List.map_map, List.map_map]
    refine congrArg (List.cons _) (List.map_congr_left fun branch hbranch => ?_)
    obtain ⟨hmem, hpromoted⟩ := List.mem_filter.mp hbranch
    exact stamp_wrapper hdefinition hcoherent hmem (by simpa using hpromoted)
  nodup := by
    rw [List.nodup_cons]
    constructor
    · intro h
      obtain ⟨branch, -, hbranch⟩ := List.mem_map.mp h
      cases hbranch
    · -- values are distinct, and so are the wrappers named after them
      have hvalues := hcoherent.values_nodup.sublist
        ((List.filter_sublist (p := fun branch : Branch => !branch.isPromoted)).map (·.value))
      have hinjective : Function.Injective (Provenance.wrapper definition.name) :=
        fun _ _ h => (Provenance.wrapper.inj h).2
      have hwrappers := hvalues.map hinjective
      rwa [List.map_map] at hwrappers
  owner_eq := by
    intro p hp
    rcases List.mem_cons.mp hp with rfl | hp
    · rfl
    · obtain ⟨branch, -, rfl⟩ := List.mem_map.mp hp
      rfl

theorem exists_named {types : List TypeDecl} {notices : List Notice}
    (hcoherent : ∀ base ∈ source.hierarchy.bases, Hierarchy.Coherent base)
    (h : Declares source definition (types, notices)) : ∃ ps, Named definition types ps := by
  generalize hresult : (types, notices) = result at h
  obtain rfl : types = result.1 := congrArg Prod.fst hresult
  clear hresult
  cases h with
  | tagged _ _ _ hbase =>
      obtain ⟨hmem, hdefinition⟩ := of_find?_name_eq_some hbase
      exact ⟨_, named_tagged hdefinition (hcoherent _ hmem)⟩
  | _ => exact ⟨_, named_single _⟩

end Build

/-! ## The types of a document -/

namespace Compilation

variable {document : Document} (run : Compilation document)

theorem named {definition : Definition} (h : definition ∈ document.sorted) :
    ∃ ps, Named definition (Build.typesOf run.source definition) ps := by
  obtain ⟨notices, hdeclares⟩ := run.declares h
  exact Build.exists_named (fun _ hbase => run.coherent hbase) hdeclares

theorem stamps_nodup : (run.types.map TypeDecl.stamp).Nodup := by
  rw [run.types_eq, List.map_flatMap, List.nodup_flatMap]
  constructor
  · -- the types of one definition
    intro definition hdefinition
    obtain ⟨ps, hps⟩ := run.named hdefinition
    rw [hps.stamps_eq]
    exact hps.nodup.map Provenance.stamp_injective
  · -- the types of two definitions: the owner tells them apart
    have hnames := List.pairwise_map.mp document.sorted_names_nodup
    refine hnames.imp_of_mem fun {a b} ha hb hne => ?_
    obtain ⟨ps, hps⟩ := run.named ha
    obtain ⟨qs, hqs⟩ := run.named hb
    intro stamp hstampa hstampb
    replace hstampa := hps.stamps_eq ▸ (show stamp ∈ (Build.typesOf _ a).map _ from hstampa)
    replace hstampb := hqs.stamps_eq ▸ (show stamp ∈ (Build.typesOf _ b).map _ from hstampb)
    obtain ⟨p, hp, rfl⟩ := List.mem_map.mp hstampa
    obtain ⟨q, hq, hpq⟩ := List.mem_map.mp hstampb
    obtain rfl : q = p := Provenance.stamp_injective hpq
    exact hne ((hps.owner_eq q hp).symm.trans (hqs.owner_eq q hq))

theorem origin_eq_of_name_eq {a b : TypeDecl} (ha : a ∈ run.types) (hb : b ∈ run.types)
    (h : a.name = b.name) : a.origin = b.origin := by
  have howned := (Naming.Claims.owns_of_foldlM run.claims_eq).2
  have howna : run.claims.owners.get? a.name = some a.origin := howned a ha
  have hownb : run.claims.owners.get? b.name = some b.origin := howned b hb
  rw [h, hownb] at howna
  exact (Option.some.inj howna).symm

theorem names_nodup : (run.types.map (·.name)).Nodup := by
  -- equal names have equal origins, hence equal stamps
  have hstamps := List.pairwise_map.mp run.stamps_nodup
  refine List.pairwise_map.mpr (hstamps.imp_of_mem fun {a b} ha hb hne => ?_)
  intro hname
  exact hne (Prod.ext (run.origin_eq_of_name_eq ha hb hname) hname)

theorem model_names_nodup : (run.model.types.map (·.name)).Nodup :=
  run.model_names_perm.symm.nodup run.names_nodup

end Compilation

/-- **No two emitted types share a name**, not even if they share their origin. -/
theorem Model.emitted_names_nodup {document : Document} {model : Model}
    (h : Model.build document = .ok model) : (model.types.map (·.name)).Nodup := by
  obtain ⟨run, rfl⟩ := Model.build_eq_ok_iff.mp h
  exact run.model_names_nodup

/-- A record whose `kind` is a constant. -/
def kindRecord (value : String) : Json :=
  .object [("properties", .object [("kind", .object [("const", .string value)])])]

/-- A base whose branches are told apart by their `kind`. -/
def kindBase (branches : List Json) : Json :=
  .object
    [("discriminator", .object [("propertyName", .string "kind")]), ("oneOf", .array branches)]

/-- The branch `x[y` of `A` and the branch `y` of `A[x` have one origin. -/
def bracketedDocument : Document where
  definitions := [("A", kindBase [kindRecord "x[y"]), ("A[x", kindBase [kindRecord "y"])]
  revision := none
  distinct := by decide

theorem emitted_names_nodup_bracketed :
    ∃ model, Model.build bracketedDocument = .ok model ∧
      model.types.map (·.origin) = ["A", "A[x[y]", "A[x", "A[x[y]"] ∧
      (model.types.map (·.name)).Nodup := by
  have horigins : ((Model.build bracketedDocument).toOption.map fun model =>
      model.types.map (·.origin)) = some ["A", "A[x[y]", "A[x", "A[x[y]"] := by
    decide
  obtain ⟨model, hbuild, horigins⟩ := Fallible.exists_of_toOption_map_eq_some horigins
  exact ⟨model, hbuild, horigins, Model.emitted_names_nodup hbuild⟩

end SchemaCompiler
