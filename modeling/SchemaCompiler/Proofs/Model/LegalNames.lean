import SchemaCompiler.Proofs.Model.Identifiers
import SchemaCompiler.Proofs.Naming.Legal

/-!
# Legal names in a model

The identifier of a property has the right form if any character of the name is left, and so has
the one of a nested sum type if its type name does in snake case.  Numbers keep that and escaping
makes it legal, so the written identifiers are legal under the same conditions.  A type name is
legal exactly if it has the right form, with one exception: a wrapper may come out as a reserved
word, which only the names of definitions are escaped from (`Model.legal_names`).

Definitions are not normalised, properties may lose all their characters, and a wrapper may come
out as `Self`, so a document can have all three (`scrap_names`).
-/

namespace SchemaCompiler

open Fallible
open Naming (Alphabet IsIdentifier IsLegal IsReserved)
open Text (capitalize)

variable {alphabet : Alphabet}

/-! ## Identifiers -/

/-- The identifier of a field has the right form where what it is named after leaves one. -/
structure NamesField (alphabet : Alphabet) (field : Field) : Prop where
  keyed : field.presence ≠ .flattened → Naming.member field.wireName ≠ "" →
    IsIdentifier alphabet field.identifier.toList
  flattened : field.presence = .flattened →
    IsIdentifier alphabet (Naming.snakeCase (Naming.typeName field.wireName)).toList →
      IsIdentifier alphabet field.identifier.toList

theorem NamesField.of_identifier {field other : Field} (h : NamesField alphabet field)
    (hwire : other.wireName = field.wireName) (hpresence : other.presence = field.presence)
    (hidentifier : IsIdentifier alphabet field.identifier.toList →
      IsIdentifier alphabet other.identifier.toList) : NamesField alphabet other where
  keyed := by
    rw [hwire, hpresence]
    exact fun hkey hne => hidentifier (h.keyed hkey hne)
  flattened := by
    rw [hwire, hpresence]
    exact fun hkey hname => hidentifier (h.flattened hkey hname)

namespace Build

variable {document : Document} {origin typeName : String}

theorem isIdentifier_memberName {property : String} (h : Naming.member property ≠ "") :
    IsIdentifier alphabet (Naming.memberName typeName property).identifier.toList := by
  have hmember : IsIdentifier alphabet (Naming.member property).toList :=
    .of_isWord ((Naming.member_cases property).resolve_left h)
  rw [Naming.memberName]
  split
  · rw [String.toList_append]
    exact hmember.append (List.all_eq_true.mp (by decide))
  · exact hmember

theorem namesField_fieldOf (origin typeName wireName : String) (property : Property) :
    NamesField alphabet (fieldOf document origin typeName wireName property).1 where
  keyed := by
    intro _ hne
    rw [Field.identifier, Naming.snakeCase, String.toList_ofList]
    exact (isIdentifier_memberName hne).snakeChars
  flattened := fun hflattened => absurd hflattened (presenceOf_ne_flattened _ _ _)

theorem namesField_distinguish {field : Field} (h : NamesField alphabet field)
    (used : List String) : NamesField alphabet (distinguish origin used field).1 := by
  unfold distinguish
  split
  · exact h.of_identifier rfl rfl fun hidentifier =>
      hidentifier.snakeCase_freshBy writtenIdentifier used
  · exact h

theorem namesField_fieldsFrom (set : PropertySet) (used : List String) :
    ∀ field ∈ (fieldsFrom document origin typeName used set).1, NamesField alphabet field := by
  induction set generalizing used with
  | nil => exact fun _ hfield => absurd hfield List.not_mem_nil
  | cons head rest ih =>
      obtain ⟨wireName, property⟩ := head
      exact List.forall_mem_cons.mpr
        ⟨namesField_distinguish (namesField_fieldOf origin typeName wireName property) used, ih _⟩

theorem namesField_embedded (target : String) (others : List Field) :
    NamesField alphabet (embedded origin target others).1 where
  keyed := fun hkey => absurd rfl hkey
  flattened := fun _ hname => hname.snakeCase_freshBy Naming.snakeCase _

theorem namesField_wrapper (definition : Definition) (base : Base) (branch : Branch) :
    ∀ field ∈ (wrapper document definition base branch).1.fields, NamesField alphabet field := by
  cases hsource : branch.source with
  | nested target =>
      rw [fields_wrapper_of_nested hsource]
      exact List.forall_mem_append.mpr ⟨namesField_fieldsFrom _ [],
        List.forall_mem_singleton.mpr (namesField_embedded target _)⟩
  | _ =>
      unfold wrapper
      simp only [hsource]
      exact namesField_fieldsFrom _ []

theorem Declares.namesField {source : Source} {definition : Definition}
    {result : List TypeDecl × List Notice} (h : Declares source definition result)
    {type : TypeDecl} (htype : type ∈ result.1) :
    ∀ field ∈ type.fields, NamesField alphabet field := by
  cases h.declaresType htype with
  | promoted _ => exact namesField_fieldsFrom _ []
  | tagged _ _ _ _ => exact fun _ hfield => absurd hfield List.not_mem_nil
  | wrapper _ _ _ => exact namesField_wrapper _ _ _
  | @independent body hbody =>
      cases body with
      | record found =>
          obtain ⟨-, rfl⟩ := h.of_record htype rfl
          exact namesField_fieldsFrom _ []
      | variant base value found => exact hbody.elim
      | _ => exact fun _ hfield => absurd hfield List.not_mem_nil

end Build

namespace Compilation

variable {document : Document} (run : Compilation document)

theorem namesField_emitted {type : TypeDecl} (htype : type ∈ run.model.types) :
    ∀ field ∈ type.fields, NamesField alphabet field := by
  obtain ⟨type, hdeclared, rfl⟩ := run.mem_model_types_iff.mp htype
  obtain ⟨definition, hdefinition, hmem⟩ := run.mem_types_iff.mp hdeclared
  obtain ⟨notices, hdeclares⟩ := run.declares hdefinition
  rw [run.fields_emitted]
  refine List.forall_mem_map.mpr fun field hfield => ?_
  obtain ⟨boxed, hboxed⟩ := Build.reboxes_boxField run.containment type field
  show NamesField alphabet ((fun field => (Build.boxField run.containment type field).1) field)
  rw [hboxed]
  exact (hdeclares.namesField hmem field hfield).of_identifier rfl rfl id

/-! ## Type names -/

/-- An emitted type has the origin and the name of a definition or of a branch. -/
theorem exists_provenance {type : TypeDecl} (htype : type ∈ run.model.types) :
    ∃ p : Naming.Provenance, type.stamp = p.stamp ∧ p.owner = type.definition := by
  obtain ⟨type, hdeclared, rfl⟩ := run.mem_model_types_iff.mp htype
  obtain ⟨definition, hdefinition, hmem⟩ := run.mem_types_iff.mp hdeclared
  obtain ⟨notices, hdeclares⟩ := run.declares hdefinition
  obtain ⟨ps, hps⟩ := run.named hdefinition
  have hstamp : type.stamp ∈ ps.map Naming.Provenance.stamp :=
    hps.stamps_eq ▸ List.mem_map_of_mem hmem
  obtain ⟨p, hp, hsame⟩ := List.mem_map.mp hstamp
  exact ⟨p, hsame.symm, (hps.owner_eq p hp).trans (hdeclares.bodyOf hmem).1.symm⟩

end Compilation

/-- **When names are legal.**  A definition gives its type a legal name exactly if it has one but
for its first character.  A wrapper has one exactly if its base and the member of its value make
one, unless they make a reserved word.  The identifier of a property is legal if anything of its
name is left, and the one of a nested sum type if its type name is an identifier in snake case. -/
theorem Model.legal_names {document : Document} {model : Model}
    (h : Model.build document = .ok model) (alphabet : Alphabet) {type : TypeDecl}
    (htype : type ∈ model.types) :
    (type.origin = type.definition ∧
        (IsLegal alphabet type.name ↔
          IsIdentifier alphabet (capitalize type.definition.toList)) ∨
      ∃ value, type.origin = type.definition ++ "[" ++ value ++ "]" ∧
        (¬IsReserved type.name →
          (IsLegal alphabet type.name ↔ IsIdentifier alphabet
            (capitalize type.definition.toList ++ (Naming.member value).toList))) ∧
        (IsReserved type.name → type.name = "Self" ∨ type.definition = "")) ∧
      ∀ field ∈ type.fields,
        (field.presence ≠ .flattened → Naming.member field.wireName ≠ "" →
          IsLegal alphabet field.written) ∧
        (field.presence = .flattened →
          IsIdentifier alphabet (Naming.snakeCase (Naming.typeName field.wireName)).toList →
            IsLegal alphabet field.written) := by
  obtain ⟨run, rfl⟩ := Model.build_eq_ok_iff.mp h
  refine ⟨?_, fun field hfield => ?_⟩
  · obtain ⟨p, hstamp, howner⟩ := run.exists_provenance htype
    obtain ⟨horigin, hname⟩ : type.origin = p.origin ∧ type.name = p.typeName :=
      Prod.mk.inj hstamp
    rw [horigin, hname, ← howner]
    cases p with
    | definition name => exact Or.inl ⟨rfl, Naming.isLegal_typeName_iff⟩
    | wrapper base value =>
        exact Or.inr ⟨value, rfl,
          Naming.isLegal_typeName_append_iff (Naming.isPlain_member value).word,
          Naming.eq_self_of_isReserved_append⟩
  · have hnames : NamesField alphabet field := run.namesField_emitted htype field hfield
    exact ⟨fun hkey hne => Naming.isLegal_escape (hnames.keyed hkey hne),
      fun hkey hname => Naming.isLegal_escape (hnames.flattened hkey hname)⟩

/-- Two properties and a nested sum type, all of which would be `type`. -/
theorem legal_names_type :
    ∃ model, Model.build typeDocument = .ok model ∧ ∃ type ∈ model.types,
      type.name = "PivotHeld" ∧ type.fields.map Field.written = ["r#type", "type2", "type3"] ∧
        ∀ alphabet, IsLegal alphabet type.name ∧
          ∀ field ∈ type.fields, IsLegal alphabet field.written := by
  have hshown : ((Model.build typeDocument).toOption.map fun model =>
      (model.type? "PivotHeld").map fun type =>
        ((type.definition, type.origin), type.fields.map Field.written,
          type.fields.map (·.wireName))) =
      some (some (("Pivot", "Pivot[held]"), ["r#type", "type2", "type3"],
        ["Type", "type", "Type"])) := by
    decide
  obtain ⟨model, hbuild, hshown⟩ := exists_of_toOption_map_eq_some hshown
  obtain ⟨type, hfound, hshown⟩ := Option.map_eq_some_iff.mp hshown
  obtain ⟨hsource, hshown⟩ := Prod.mk.inj hshown
  obtain ⟨hdefinition, horigin⟩ := Prod.mk.inj hsource
  obtain ⟨hwritten, hwires⟩ := Prod.mk.inj hshown
  obtain ⟨htype, hname⟩ := of_find?_name_eq_some hfound
  refine ⟨model, hbuild, type, htype, hname, hwritten, fun alphabet => ?_⟩
  obtain ⟨htypeName, hfields⟩ := Model.legal_names hbuild alphabet htype
  rw [horigin, hdefinition, hname] at htypeName
  constructor
  · rw [hname]
    rcases htypeName with ⟨hown, -⟩ | ⟨value, -, hlegal, -⟩
    · exact absurd hown (by decide)
    · have hpivot : IsIdentifier alphabet (capitalize "Pivot".toList) :=
        .of_isWord (.letter rfl (List.all_eq_true.mp (by decide)))
      exact (hlegal (by decide)).mpr (hpivot.append (Naming.isPlain_member value).word)
  · intro field hfield
    have hwire : field.wireName ∈ ["Type", "type", "Type"] := hwires ▸ List.mem_map_of_mem hfield
    have hleft : ∀ name ∈ ["Type", "type", "Type"], Naming.member name ≠ "" ∧
        Naming.snakeCase (Naming.typeName name) = "type" := by decide
    obtain ⟨hne, hsnake⟩ := hleft field.wireName hwire
    by_cases hflattened : field.presence = .flattened
    · refine (hfields field hfield).2 hflattened ?_
      rw [hsnake]
      exact .of_isWord (.letter rfl (List.all_eq_true.mp (by decide)))
    · exact (hfields field hfield).1 hflattened hne

/-- A definition with a hyphen, a property of which nothing is left, and a branch that completes
the name of its base to a reserved word. -/
def scrapDocument : Document where
  definitions :=
    [("S", kindBase [kindRecord "-elf"]),
      ("content-block", .object [("properties", .object
        [("-", .object [("type", .string "string")])])])]
  revision := none
  distinct := by decide

theorem scrap_names :
    ∃ model, Model.build scrapDocument = .ok model ∧
      model.types.map (·.name) = ["S", "Self", "Content-block"] ∧
      (∃ type ∈ model.types, type.fields.map Field.written = [""]) ∧
      ∀ alphabet, ∀ name ∈ ["Self", "Content-block", ""], ¬IsLegal alphabet name := by
  have hshown : ((Model.build scrapDocument).toOption.map fun model =>
      (model.types.map (·.name), (model.type? "Content-block").map fun type =>
        type.fields.map Field.written)) =
      some (["S", "Self", "Content-block"], some [""]) := by
    decide
  obtain ⟨model, hbuild, hshown⟩ := exists_of_toOption_map_eq_some hshown
  obtain ⟨hnames, hshown⟩ := Prod.mk.inj hshown
  obtain ⟨type, hfound, hwritten⟩ := Option.map_eq_some_iff.mp hshown
  refine ⟨model, hbuild, hnames, ⟨type, (of_find?_name_eq_some hfound).1, hwritten⟩,
    fun alphabet name hname => ?_⟩
  have hraw : ∀ name ∈ ["Self", "Content-block", ""], ∀ word ∈ Naming.keywords,
      name ≠ Naming.rawMarker ++ word := by decide
  rintro (⟨word, hword, heq⟩ | ⟨hidentifier, hreserved⟩)
  · exact hraw name hname word hword heq
  · simp only [List.mem_cons, List.not_mem_nil, or_false] at hname
    rcases hname with rfl | rfl | rfl
    · exact hreserved (by decide)
    · have hhyphen := hidentifier.continues '-' (by decide)
      rw [alphabet.continues_eq (by decide)] at hhyphen
      exact absurd hhyphen (by decide)
    · obtain ⟨c, rest, hempty, -⟩ := hidentifier.starts
      cases hempty

end SchemaCompiler
