import SchemaCompiler.Proofs.Description.Declare

/-!
# Descriptions decide nothing

Names, containment and boxes are worked out from types without a look at their descriptions, so a
document without descriptions has the model of the document, without its descriptions
(`Model.build_undescribed`).  Two documents that differ in descriptions alone therefore fail with
the same error, or they have types that differ in descriptions alone and the same notices
(`Model.build_redescribed`).  Only the checksums tell such documents apart.
-/

namespace SchemaCompiler

open Fallible

namespace Build

/-! ## All declarations -/

theorem unresolvedNotices_undescribed (document : Document) (definition : Definition) :
    unresolvedNotices document.undescribed definition.undescribed =
      unresolvedNotices document definition := by
  have htally : Tally.ofJson (.object definition.undescribed.node) =
      Tally.ofJson (.object definition.node) :=
    Tally.ofJson_undescribed (.object definition.node)
  rw [unresolvedNotices, htally, unresolvedNotices, Tally.unresolved, Tally.unresolved]
  simp only [document.contains_undescribed]
  rfl

theorem declareAll_undescribed (source : Source) (definitions : List Definition) :
    declareAll source.undescribed (definitions.map Definition.undescribed) =
      (declareAll source definitions).map (Prod.map (·.map TypeDecl.undescribed) id) := by
  induction definitions with
  | nil => rfl
  | cons definition rest ih =>
      have hnotices : unresolvedNotices source.undescribed.document definition.undescribed =
          unresolvedNotices source.document definition :=
        unresolvedNotices_undescribed source.document definition
      rw [List.map_cons, declareAll, declare_undescribed, ih, hnotices, declareAll]
      cases declare source definition with
      | error error => rfl
      | ok declared =>
          cases declareAll source rest with
          | error error => rfl
          | ok more =>
              exact congrArg (fun types => Except.ok (types, _)) List.map_append.symm

/-! ## Names, containment and boxes -/

theorem claimNames_undescribed (types : List TypeDecl) :
    claimNames (types.map TypeDecl.undescribed) = claimNames types := by
  rw [claimNames, List.foldlM_map, claimNames]
  rfl

theorem group_undescribed (type : TypeDecl) : type.undescribed.group = type.group := by
  rw [TypeDecl.group, TypeDecl.undescribed, TypeDecl.group]
  cases type.body <;> rfl

theorem heldBy_undescribed (type : TypeDecl) : heldBy type.undescribed = heldBy type := by
  obtain ⟨definition, origin, name, description, body⟩ := type
  cases body with
  | record fields => exact List.filterMap_map
  | variant base value fields => exact List.filterMap_map
  | _ => rfl

theorem containment_undescribed (types : List TypeDecl) :
    containment (types.map TypeDecl.undescribed) = containment types := by
  rw [containment, List.flatMap_map, containment]
  exact List.flatMap_congr fun type _ => heldBy_undescribed type

theorem boxField_undescribed (edges : Containment) (type : TypeDecl) (field : Field) :
    boxField edges type.undescribed field.undescribed =
      Prod.map Field.undescribed id (boxField edges type field) := by
  simp only [boxField, Field.undescribed, TypeDecl.undescribed]
  cases field.descriptor.inlineReference? with
  | none => rfl
  | some target =>
      simp only [apply_ite (Prod.map Field.undescribed id)]
      rfl

theorem boxFields_undescribed (edges : Containment) (type : TypeDecl) :
    boxFields edges type.undescribed =
      Prod.map TypeDecl.undescribed id (boxFields edges type) := by
  have hfields : type.undescribed.fields = type.fields.map Field.undescribed := by
    rw [TypeDecl.fields, TypeDecl.undescribed, TypeDecl.fields]
    cases type.body <;> rfl
  have hbody (fields : List Field) :
      type.undescribed.body.withFields (fields.map Field.undescribed) =
        (type.body.withFields fields).undescribed := by
    rw [TypeDecl.undescribed]
    cases type.body <;> rfl
  have hresults : type.undescribed.fields.map (boxField edges type.undescribed) =
      (type.fields.map (boxField edges type)).map (Prod.map Field.undescribed id) := by
    rw [hfields, List.map_map, List.map_map]
    exact List.map_congr_left fun field _ => boxField_undescribed edges type field
  rw [boxFields, hresults, map_fst_undescribed, hbody, List.flatMap_map, boxFields]
  rfl

end Build

namespace Model

/-- **A document without descriptions has the model of the document, without its
descriptions.** -/
theorem build_undescribed (document : Document) :
    build document.undescribed = (build document).map fun model =>
      { model with
        types := model.types.map TypeDecl.undescribed
        checksum := document.undescribed.checksum } := by
  rw [build, Hierarchy.analyze_undescribed, build]
  cases Hierarchy.analyze document with
  | error error => rfl
  | ok analysis =>
      obtain ⟨hierarchy, found⟩ := analysis
      have hdeclared : Build.declareAll ⟨document.undescribed, hierarchy.undescribed⟩
          document.undescribed.sorted =
          (Build.declareAll ⟨document, hierarchy⟩ document.sorted).map
            (Prod.map (·.map TypeDecl.undescribed) id) := by
        rw [document.sorted_undescribed]
        exact Build.declareAll_undescribed ⟨document, hierarchy⟩ document.sorted
      simp only [Except.map, bind, Except.bind, hdeclared]
      cases Build.declareAll ⟨document, hierarchy⟩ document.sorted with
      | error error => rfl
      | ok declared =>
          obtain ⟨types, notices⟩ := declared
          have hboxed (edges : Containment) :
              (types.map TypeDecl.undescribed).map (Build.boxFields edges) =
                (types.map (Build.boxFields edges)).map (Prod.map TypeDecl.undescribed id) := by
            rw [List.map_map, List.map_map]
            exact List.map_congr_left fun type _ => Build.boxFields_undescribed edges type
          have hsorted (types : List TypeDecl) :
              sortBy (fun a b => a.group.rank ≤ b.group.rank) (types.map TypeDecl.undescribed) =
                (sortBy (fun a b => a.group.rank ≤ b.group.rank) types).map
                  TypeDecl.undescribed :=
            sortBy_map (fun a b => by rw [Build.group_undescribed, Build.group_undescribed]) types
          simp only [Prod.map_fst, Prod.map_snd, id, Build.claimNames_undescribed,
            Build.containment_undescribed, hboxed, Build.map_fst_undescribed, hsorted,
            List.flatMap_map]
          cases Build.claimNames types <;> rfl

/-- **Descriptions do not affect shape.**  Documents that differ in descriptions alone are refused
with the same error, or their types differ in descriptions alone. -/
theorem build_redescribed {document other : Document}
    (h : document.undescribed = other.undescribed) :
    (∃ error, build document = .error error ∧ build other = .error error) ∨
      ∃ model model', build document = .ok model ∧ build other = .ok model' ∧
        model.types.map TypeDecl.undescribed = model'.types.map TypeDecl.undescribed ∧
        model.containment = model'.containment ∧ model.notices = model'.notices ∧
        model.revision = model'.revision := by
  have hbuilds := (build_undescribed document).symm.trans
    ((congrArg build h).trans (build_undescribed other))
  refine (of_map_eq_map hbuilds).imp_right ?_
  rintro ⟨model, model', hbuild, hbuild', hmodels⟩
  obtain ⟨htypes, hcontainment, hnotices, -, hrevision⟩ := Model.mk.inj hmodels
  exact ⟨model, model', hbuild, hbuild', htypes, hcontainment, hnotices, hrevision⟩

end Model

/-- A document with members of the same kind in a definition, in a property and in a branch. -/
def ticketDocument (notes : List (String × Json)) : Document where
  definitions :=
    [("Ticket", .object (notes ++ [("type", .string "object"), ("properties", .object
        [("state", .object (("$ref", .string "#/$defs/State") :: notes))])])),
      ("State", .object [("oneOf", .array
        [.object ([("type", .string "string"), ("const", .string "open")] ++ notes)])])]
  revision := none
  distinct := by
    show ["Ticket", "State"].Nodup
    decide

theorem build_redescribed_ticket :
    ∃ model model', Model.build (ticketDocument []) = .ok model ∧
      Model.build (ticketDocument [("description", .string "Noted.")]) = .ok model' ∧
      model.types.map TypeDecl.undescribed = model'.types.map TypeDecl.undescribed ∧
      model.notices = model'.notices ∧
      model.types.map (·.description) = [none, none] ∧
      model'.types.map (·.description) = [none, some "Noted."] := by
  have hplain : ((Model.build (ticketDocument [])).toOption.map fun model =>
      model.types.map (·.description)) = some [none, none] := by
    decide
  have hnoted : ((Model.build (ticketDocument [("description", .string "Noted.")])).toOption.map
      fun model => model.types.map (·.description)) = some [none, some "Noted."] := by
    decide
  have hsame : (ticketDocument []).undescribed =
      (ticketDocument [("description", .string "Noted.")]).undescribed := rfl
  obtain ⟨model, hbuild, hdescriptions⟩ := exists_of_toOption_map_eq_some hplain
  obtain ⟨model', hbuild', hdescriptions'⟩ := exists_of_toOption_map_eq_some hnoted
  rcases Model.build_redescribed hsame with ⟨error, herror, -⟩ |
    ⟨_, _, hfirst, hsecond, htypes, -, hnotices, -⟩
  · rw [hbuild] at herror
    cases herror
  · obtain rfl := Except.ok.inj (hbuild.symm.trans hfirst)
    obtain rfl := Except.ok.inj (hbuild'.symm.trans hsecond)
    exact ⟨model, model', hbuild, hbuild', htypes, hnotices, hdescriptions, hdescriptions'⟩

end SchemaCompiler
