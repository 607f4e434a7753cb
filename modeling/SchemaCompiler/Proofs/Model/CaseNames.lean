import SchemaCompiler.Proofs.Model.Enumerations
import SchemaCompiler.Proofs.Naming.CaseName

/-!
# Names of members and cases

The members of an enumeration and the cases of a tagged type are named one after the other, each
apart from those in front of it.  Names are compared as they are written, the marker of a raw name
included, although a number behind a marked word gives a name that needs no marker.  So the names
are distinct, and they are distinct as identifiers exactly if no number meets a marked word in one
of them and the same word, unmarked, in another (`Model.case_names`).  Three values of which two
are named after a keyword and the third after the same keyword with a `2` do that
(`wish_names_meet`).
-/

namespace SchemaCompiler

open Fallible

/-- The names of an enumeration or of a tagged type, that of the open member included. -/
def TypeBody.caseNames : TypeBody → List String
  | .enumeration _ members catchAll => members.map (·.name) ++ (catchAll.map (·.name)).toList
  | .tagged _ cases => cases.map (·.caseName)
  | _ => []

/-! ## Members -/

namespace Build

theorem exists_text_of_itemName? {title : Option String} {constant : Option Json} {name : String}
    (h : itemName? title constant = some name) : ∃ text, name = Naming.caseName text := by
  unfold itemName? at h
  split at h
  · exact ⟨_, (Option.some.inj h).symm⟩
  · split at h
    · cases h
    · exact ⟨_, (Option.some.inj h).symm⟩
  · cases h

theorem exists_text_of_additionOfItem {definition : String} {form : EnumForm} {item : Node}
    {addition : Addition} (h : additionOfItem definition form item = .ok (some addition)) :
    ∃ text, addition.name = Naming.caseName text := by
  rw [additionOfItem] at h
  split at h
  · cases h
  · rename_i name hname
    obtain ⟨text, htext⟩ := exists_text_of_itemName? hname
    split at h
    · obtain ⟨value, -, hvalue⟩ := map_eq_ok_iff.mp h
      obtain rfl := Option.some.inj hvalue
      exact ⟨text, htext⟩
    · split at h
      · obtain rfl := Option.some.inj (Except.ok.inj h)
        exact ⟨text, htext⟩
      · obtain ⟨title, -, rfl⟩ := Option.map_eq_some_iff.mp (Except.ok.inj h)
        exact ⟨text, htext⟩

/-- Whatever is added is named after a text. -/
theorem Enumerates.exists_text {definition : Definition} {form : EnumForm}
    {additions : List Addition} (h : Enumerates definition form additions) {addition : Addition}
    (haddition : addition ∈ additions) : ∃ text, addition.name = Naming.caseName text := by
  rcases h.exists_source haddition with ⟨value, hvalue⟩ | ⟨item, hitem⟩
  · obtain ⟨text, -, rfl⟩ := map_eq_ok_iff.mp hvalue
    exact ⟨_, rfl⟩
  · exact exists_text_of_additionOfItem hitem

theorem caseNames_of_toBody {members : Members} {form : EnumForm} {items : List EnumMember}
    {catchAll : Option CatchAll} (h : members.toBody form = .enumeration form items catchAll) :
    (TypeBody.enumeration form items catchAll).caseNames.Sublist members.names := by
  obtain ⟨-, rfl, hcatchAll, -⟩ := of_toBody_eq_enumeration h
  refine List.Sublist.append (List.Sublist.refl _) ?_
  rcases hcatchAll with rfl | rfl
  · exact List.nil_sublist _
  · exact List.Sublist.refl _

theorem Enumerates.caseNames {definition : Definition} {form : EnumForm}
    {additions : List Addition} (h : Enumerates definition form additions)
    {items : List EnumMember} {catchAll : Option CatchAll}
    (hbody : (membersOf definition.name additions).toBody form =
      .enumeration form items catchAll) :
    (TypeBody.enumeration form items catchAll).caseNames.Nodup ∧
      ∀ name ∈ (TypeBody.enumeration form items catchAll).caseNames, Naming.IsCaseName name := by
  have hsublist := caseNames_of_toBody hbody
  have hnone : ∀ name ∈ Members.empty.names, Naming.IsCaseName name :=
    fun _ hname => absurd hname List.not_mem_nil
  constructor
  · have hempty : Members.empty.names.Nodup := List.nodup_nil
    exact (Members.names_nodup_addAll hempty additions).sublist hsublist
  · intro name hname
    refine Members.forall_names_addAll (fun addition haddition used => ?_) hnone name
      (hsublist.subset hname)
    obtain ⟨text, htext⟩ := h.exists_text haddition
    rw [htext]
    exact Naming.isCaseName_fresh used text

end Build

/-! ## Cases -/

namespace Hierarchy

theorem isCaseName_of_mem_nameCases {branches : List Branch} {used : List String} {name : String}
    (h : name ∈ (nameCases used branches).map (·.caseName)) : Naming.IsCaseName name := by
  induction branches generalizing used with
  | nil => exact absurd h List.not_mem_nil
  | cons branch rest ih =>
      rw [nameCases, List.map_cons] at h
      rcases List.mem_cons.mp h with rfl | hrest
      · exact Naming.isCaseName_fresh used branch.value
      · exact ih hrest

theorem caseNames_of_baseOf {scope : Scope} {pending : Pending} {base : Base}
    (h : baseOf scope pending = .ok base) :
    (base.branches.map (·.caseName)).Nodup ∧
      ∀ name ∈ base.branches.map (·.caseName), Naming.IsCaseName name := by
  refine ⟨caseNames_nodup_of_baseOf h, fun name hname => ?_⟩
  obtain ⟨-, rfl⟩ := baseOf_eq_ok_iff.mp h
  exact isCaseName_of_mem_nameCases hname

end Hierarchy

namespace Compilation

variable {document : Document} (run : Compilation document)

theorem caseNames_of_tagged {type : TypeDecl} (htype : type ∈ run.model.types) {property : String}
    {cases : List TaggedCase} (hbody : type.body = .tagged property cases) :
    (cases.map (·.caseName)).Nodup ∧
      ∀ name ∈ cases.map (·.caseName), Naming.IsCaseName name := by
  obtain ⟨declared, hdeclared, rfl⟩ := run.mem_model_types_iff.mp htype
  obtain ⟨definition, hdefinition, hmem⟩ := run.mem_types_iff.mp hdeclared
  obtain ⟨notices, hdeclares⟩ := run.declares hdefinition
  replace hbody := run.tagged_emitted_iff.mp hbody
  obtain ⟨base, hbase, -, rfl⟩ := hdeclares.exists_base_of_tagged hmem hbody
  obtain ⟨rfl, rfl⟩ := TypeBody.tagged.inj hbody
  obtain ⟨pending, -, hpending⟩ := run.analysis.exists_pending_of_mem_bases
    (run.analysis.mem_hierarchy_bases.mp (of_find?_name_eq_some hbase).1)
  rw [List.map_map]
  exact Hierarchy.caseNames_of_baseOf hpending

theorem caseNames_emitted {type : TypeDecl} (htype : type ∈ run.model.types) :
    type.body.caseNames.Nodup ∧ ∀ name ∈ type.body.caseNames, Naming.IsCaseName name := by
  cases hbody : type.body with
  | enumeration form members catchAll =>
      obtain ⟨definition, -, additions, henumerates, hrun⟩ := run.enumerates htype hbody
      exact henumerates.caseNames hrun
  | tagged property cases => exact run.caseNames_of_tagged htype hbody
  | _ => exact ⟨List.nodup_nil, fun _ hname => absurd hname List.not_mem_nil⟩

end Compilation

/-- **When cases are distinct identifiers.**  The names of an emitted enumeration or tagged type are
distinct as they are written.  Without the markers of raw names they still are exactly if no number
stands behind a marked keyword and behind the same one without a marker. -/
theorem Model.case_names {document : Document} {model : Model}
    (h : Model.build document = .ok model) {type : TypeDecl} (htype : type ∈ model.types) :
    type.body.caseNames.Nodup ∧
      ((type.body.caseNames.map Naming.bareName).Nodup ↔
        ¬Naming.NumbersMeet type.body.caseNames) := by
  obtain ⟨run, rfl⟩ := Model.build_eq_ok_iff.mp h
  obtain ⟨hnodup, hnames⟩ := run.caseNames_emitted htype
  exact ⟨hnodup, Naming.nodup_map_bareName_iff hnames hnodup⟩

/-! ## Numbers behind a keyword -/

/-- The values of an enumeration that is the only definition. -/
def wishDocument (values : List String) : Document where
  definitions := [("Wish", .object [("enum", .array (values.map .string))])]
  revision := none
  distinct := List.nodup_singleton "Wish"

theorem case_names_wish :
    ∃ model, Model.build (wishDocument ["-type", "+type", "Type"]) = .ok model ∧
      ∃ type ∈ model.types, type.body.caseNames = ["r#type", "r#type2", "Type"] ∧
        ¬Naming.NumbersMeet type.body.caseNames := by
  have hshown : (Model.build (wishDocument ["-type", "+type", "Type"])).toOption.map
      (·.enumeration? "Wish") = some (some ("Wish", .string,
        [⟨"r#type", "-type", none⟩, ⟨"r#type2", "+type", none⟩, ⟨"Type", "Type", none⟩],
        none)) := by
    decide
  obtain ⟨model, hbuild, type, htype, -, -, hbody⟩ := Model.exists_enumeration hshown
  have hnames : type.body.caseNames = ["r#type", "r#type2", "Type"] := by
    rw [hbody]
    rfl
  refine ⟨model, hbuild, type, htype, hnames, (Model.case_names hbuild htype).2.mp ?_⟩
  rw [hnames]
  decide

/-- The second value is named `type` with a number, the third one is named `type2`. -/
theorem wish_names_meet :
    ∃ model, Model.build (wishDocument ["-type", "+type", "-type2"]) = .ok model ∧
      ∃ type ∈ model.types,
        type.body = .enumeration .string
          [⟨"r#type", "-type", none⟩, ⟨"r#type2", "+type", none⟩, ⟨"type2", "-type2", none⟩]
          none ∧
        ¬(type.body.caseNames.map Naming.bareName).Nodup := by
  have hshown : (Model.build (wishDocument ["-type", "+type", "-type2"])).toOption.map
      (·.enumeration? "Wish") = some (some ("Wish", .string,
        [⟨"r#type", "-type", none⟩, ⟨"r#type2", "+type", none⟩, ⟨"type2", "-type2", none⟩],
        none)) := by
    decide
  obtain ⟨model, hbuild, type, htype, -, -, hbody⟩ := Model.exists_enumeration hshown
  refine ⟨model, hbuild, type, htype, hbody, ?_⟩
  rw [hbody]
  decide

end SchemaCompiler
