import Mathlib.Data.List.Pairwise
import SchemaCompiler.Proofs.Hierarchy.Ownership
import SchemaCompiler.Proofs.Model.Apart
import SchemaCompiler.Proofs.Model.Unions
import SchemaCompiler.Render.Declaration

/-!
# Conversions into sum types

A sum type gets a conversion from the type of each of its cases, and no two of them may be from
the same type or from the sum type itself.  The names of the cases are distinct, but a name may be
that of a plain alias, which stands for whatever it is declared as (`Stands`).  Cases of tagged
types are records and stand for themselves.  The conversions of any other sum type are unambiguous
exactly if it is no case of its own and none of its plain aliases stands for the type or for what
another case stands for (`Model.conversions`).
-/

namespace SchemaCompiler

open Fallible
open Wire (AlternativeKind)

/-! ## Types as they are written -/

/-- A type of the generated language: a name, or a list or an option of a type. -/
inductive TypeTerm where
  | named (name : String)
  | list (items : TypeTerm)
  | option (inner : TypeTerm)
deriving DecidableEq

def TypeTerm.text : TypeTerm → String
  | named name => name
  | list items => Profile.list items.text
  | option inner => Profile.optional inner.text

def Descriptor.term : Descriptor → TypeTerm
  | scalar kind => .named (Profile.standard.scalar kind)
  | reference name => .named (Naming.typeName name)
  | array items => .list items.term
  | nullable inner => .option inner.term
  | dynamic => .named Profile.standard.dynamic

theorem Descriptor.text_term (descriptor : Descriptor) :
    descriptor.term.text = Profile.standard.type false descriptor := by
  induction descriptor with
  | array items ih => exact congrArg Profile.list ih
  | nullable inner ih => exact congrArg Profile.optional ih
  | _ => rfl

def payloadTerm : AlternativeKind → TypeTerm
  | .array => .list (.named Profile.standard.dynamic)
  | kind => .named (Profile.standard.payload kind)

theorem text_payloadTerm (kind : AlternativeKind) :
    (payloadTerm kind).text = Profile.standard.payload kind := by
  cases kind <;> rfl

theorem payloadTerm_of_ne_array {kind : AlternativeKind} (h : kind ≠ .array) :
    payloadTerm kind = .named (Profile.standard.payload kind) := by
  cases kind with
  | array => exact absurd rfl h
  | _ => rfl

theorem payload_injective : Function.Injective Profile.standard.payload := by
  intro a b h
  cases a with
  | integer width =>
      cases b with
      | integer width' => cases width <;> cases width' <;> first | rfl | exact absurd h (by decide)
      | _ => cases width <;> exact absurd h (by decide)
  | _ =>
      cases b with
      | integer width => cases width <;> exact absurd h (by decide)
      | _ => first | rfl | exact absurd h (by decide)

/-- The types from which a sum type has a conversion. -/
def TypeDecl.sources (type : TypeDecl) : List TypeTerm :=
  match type.body with
  | .tagged _ cases => cases.map fun case => .named case.typeName
  | .untagged cases => cases.map fun case => .named case.typeName
  | .union alternatives _ => alternatives.map payloadTerm
  | _ => []

/-- The conversions of an untagged type are written from its sources. -/
theorem mem_declaration_of_mem_sources {type : TypeDecl} {cases : List UntaggedCase}
    (hbody : type.body = .untagged cases) {source : TypeTerm} (hsource : source ∈ type.sources)
    (context : Render.Context) :
    Render.opening ("impl From<" ++ source.text ++ "> for " ++ type.name) ∈
      Render.declaration context type := by
  rw [TypeDecl.sources, hbody] at hsource
  obtain ⟨case, hcase, rfl⟩ := List.mem_map.mp hsource
  rw [Render.declaration, hbody]
  refine List.mem_append_right _ (List.mem_flatMap.mpr ⟨case, hcase, ?_⟩)
  exact List.mem_cons_of_mem _ List.mem_cons_self

theorem exists_case_of_mem_sources {type : TypeDecl} {property : String} {cases : List TaggedCase}
    (hbody : type.body = .tagged property cases) {source : TypeTerm}
    (h : source ∈ type.sources) :
    ∃ case ∈ type.taggedCases, .named case.typeName = source := by
  rw [TypeDecl.sources, hbody] at h
  obtain ⟨case, hcase, hsource⟩ := List.mem_map.mp h
  refine ⟨case, ?_, hsource⟩
  rw [TypeDecl.taggedCases, hbody]
  exact hcase

/-! ## What a written type stands for -/

/-- The target of an alias that is not wrapped into a type of its own. -/
def TypeBody.plainTarget? : TypeBody → Option Descriptor
  | .aliasOf target => if (Render.aliasDerives? target).isNone then some target else none
  | _ => none

theorem sources_eq_nil_of_plainTarget? {type : TypeDecl} {target : Descriptor}
    (h : type.body.plainTarget? = some target) : type.sources = [] := by
  unfold TypeBody.plainTarget? at h
  split at h
  · rename_i hbody
    rw [TypeDecl.sources, hbody]
  · cases h

def PlainAlias (types : List TypeDecl) (name : String) (target : Descriptor) : Prop :=
  ∃ type ∈ types, type.name = name ∧ type.body.plainTarget? = some target

/-- A plain alias is written as another name for its target. -/
theorem mem_declaration_of_plainTarget? {type : TypeDecl} {target : Descriptor}
    (h : type.body.plainTarget? = some target) {context : Render.Context}
    (hprofile : context.profile = .standard) :
    "pub type " ++ type.name ++ " = " ++ target.term.text ++ ";" ∈
      Render.declaration context type := by
  unfold TypeBody.plainTarget? at h
  split at h
  · rename_i found hbody
    split at h
    · rename_i hplain
      cases h
      rw [Render.declaration, hbody]
      show _ ∈ Render.aliasLines context type _
      rw [Render.aliasLines, Option.isNone_iff_eq_none.mp hplain, hprofile, ← Descriptor.text_term]
      exact List.mem_append_right _ List.mem_cons_self
    · cases h
  · cases h

/-- What a type stands for, with every plain alias replaced by its target. -/
inductive Stands (types : List TypeDecl) : TypeTerm → TypeTerm → Prop where
  | own {name : String} (h : ∀ target, ¬PlainAlias types name target) :
      Stands types (.named name) (.named name)
  | expand {name : String} {target : Descriptor} (h : PlainAlias types name target)
      {term : TypeTerm} (hterm : Stands types target.term term) : Stands types (.named name) term
  | list {items term : TypeTerm} (h : Stands types items term) :
      Stands types (.list items) (.list term)
  | option {inner term : TypeTerm} (h : Stands types inner term) :
      Stands types (.option inner) (.option term)

/-- Two types that never stand for the same. -/
def Differ (types : List TypeDecl) (s t : TypeTerm) : Prop :=
  ∀ term, Stands types s term → ¬Stands types t term

variable {types : List TypeDecl} {s t : TypeTerm} {name : String}

theorem Differ.symm (h : Differ types s t) : Differ types t s :=
  fun term ht hs => h term hs ht

def IsPlainAlias (types : List TypeDecl) (s : TypeTerm) : Prop :=
  ∃ name target, s = .named name ∧ PlainAlias types name target

/-- A name that is no plain alias stands for nothing else. -/
theorem differ_of_not_isPlainAlias (hname : ¬IsPlainAlias types (.named name))
    (hs : ¬IsPlainAlias types s) (hne : s ≠ .named name) : Differ types (.named name) s := by
  intro term hterm hsame
  have hown : term = .named name := by
    cases hterm with
    | own => rfl
    | expand h => exact absurd ⟨_, _, rfl, h⟩ hname
  subst hown
  cases hsame with
  | own => exact hne rfl
  | expand h => exact hs ⟨_, _, rfl, h⟩

/-- The conversions from some types into the type of a name do not overlap. -/
structure Unambiguous (types : List TypeDecl) (sources : List TypeTerm) (name : String) :
    Prop where
  apart : sources.Pairwise (Differ types)
  foreign : ∀ source ∈ sources, Differ types source (.named name)

/-- No source is the type itself, and no source that is a plain alias stands for the type or for
what another source stands for. -/
structure NoOverlap (types : List TypeDecl) (sources : List TypeTerm) (name : String) : Prop where
  notMem : .named name ∉ sources
  aliases : ∀ source ∈ sources, IsPlainAlias types source → Differ types source (.named name) ∧
    ∀ other ∈ sources, other ≠ source → Differ types source other

theorem unambiguous_iff {sources : List TypeTerm} (hnodup : sources.Nodup)
    (hnames : ∀ s ∈ sources, ∀ t ∈ sources, s ≠ t → ∃ name, s = .named name ∨ t = .named name)
    (hown : ¬IsPlainAlias types (.named name)) :
    Unambiguous types sources name ↔ NoOverlap types sources name := by
  constructor
  · rintro ⟨hapart, hforeign⟩
    have hsymm : Std.Symm (Differ types) := ⟨fun _ _ h => h.symm⟩
    refine ⟨fun hmem => ?_, fun source hsource _ => ⟨hforeign source hsource, ?_⟩⟩
    · have hself : Stands types (.named name) (.named name) :=
        .own fun target htarget => hown ⟨name, target, rfl, htarget⟩
      exact hforeign _ hmem _ hself hself
    · intro other hother hne
      exact hapart.forall hsource hother hne.symm
  · rintro ⟨hnotMem, haliases⟩
    refine ⟨hnodup.imp_of_mem fun {s t} hs ht hne => ?_, fun source hsource => ?_⟩
    · by_cases hplain : IsPlainAlias types s
      · exact (haliases s hs hplain).2 t ht hne.symm
      by_cases hplain' : IsPlainAlias types t
      · exact ((haliases t ht hplain').2 s hs hne).symm
      obtain ⟨name, rfl | rfl⟩ := hnames s hs t ht hne
      · exact differ_of_not_isPlainAlias hplain hplain' hne.symm
      · exact (differ_of_not_isPlainAlias hplain' hplain hne).symm
    · by_cases hplain : IsPlainAlias types source
      · exact (haliases source hsource hplain).1
      · refine (differ_of_not_isPlainAlias hown hplain ?_).symm
        rintro rfl
        exact hnotMem hsource

/-! ## Declared sources -/

namespace Build

theorem Structured.ne_untagged {document : Document} {definition : Definition} {body : TypeBody}
    (h : Structured document definition body) (cases : List UntaggedCase) :
    body ≠ .untagged cases := by
  intro hbody
  cases h with
  | enumeration members form =>
      exact absurd hbody
        (toBody_ne (fun _ _ _ => TypeBody.noConfusion) (fun _ => TypeBody.noConfusion) members form)
  | _ => cases hbody

/-- An untagged type has a case for each of its children that is defined. -/
theorem Declares.of_untagged {source : Source} {definition : Definition}
    {result : List TypeDecl × List Notice} (h : Declares source definition result)
    {type : TypeDecl} (htype : type ∈ result.1) {cases : List UntaggedCase}
    (hbody : type.body = .untagged cases) :
    ∃ base, source.hierarchy.abstractBase? definition.name = some base ∧
      cases = (base.children.filter fun child => (source.document.get? child).isSome).map
        fun child => ⟨Naming.typeName child, Naming.typeName child⟩ := by
  obtain ⟨-, hsource⟩ := h.bodyOf htype
  generalize type.body = body at hbody hsource
  cases hsource with
  | enumeration henum hresult =>
      exact absurd hbody (ne_of_enumOfValues hresult (fun _ _ _ => TypeBody.noConfusion)
        fun _ => TypeBody.noConfusion)
  | @untagged base habstract =>
      rw [Build.untagged] at hbody
      split at hbody
      · cases hbody
      · exact ⟨base, habstract, (TypeBody.untagged.inj hbody).symm⟩
  | structural henum hresult =>
      exact absurd hbody ((structured_of_structural hresult).ne_untagged cases)
  | _ => cases hbody

end Build

namespace Compilation

variable {document : Document} (run : Compilation document)

/-- The children of an untagged type have distinct type names. -/
theorem typeNames_nodup_of_untagged {type : TypeDecl} (htype : type ∈ run.types)
    {cases : List UntaggedCase} (hbody : type.body = .untagged cases) :
    (cases.map (·.typeName)).Nodup := by
  obtain ⟨definition, hdefinition, hmem⟩ := run.mem_types_iff.mp htype
  obtain ⟨notices, hdeclares⟩ := run.declares hdefinition
  obtain ⟨base, habstract, rfl⟩ := hdeclares.of_untagged hmem hbody
  obtain ⟨-, hchildren⟩ := run.analysis.exists_definition_of_abstractBase? hdefinition habstract
  have hnodup := Hierarchy.children_nodup_of_abstractChildren? hchildren
  rw [List.map_map]
  refine (hnodup.filter _).map_on fun first hfirst second hsecond hname => ?_
  obtain ⟨shape, hshape⟩ := Option.isSome_iff_exists.mp (List.mem_filter.mp hfirst).2
  obtain ⟨shape', hshape'⟩ := Option.isSome_iff_exists.mp (List.mem_filter.mp hsecond).2
  rw [← Document.name_of_get? hshape, ← Document.name_of_get? hshape'] at hname ⊢
  exact run.eq_of_typeName_eq (Document.mem_sorted_of_get? hshape)
    (Document.mem_sorted_of_get? hshape') hname

/-- The sources of a sum type are distinct as they are written. -/
theorem texts_nodup {type : TypeDecl} (htype : type ∈ run.model.types) :
    (type.sources.map TypeTerm.text).Nodup := by
  unfold TypeDecl.sources
  split
  · rename_i property cases hbody
    have hnodup := (List.nodup_flatMap.mp run.case_names_nodup).1 type htype
    rw [TypeDecl.taggedCases, hbody] at hnodup
    rw [List.map_map]
    exact hnodup
  · rename_i cases hbody
    obtain ⟨declared, hdeclared, rfl⟩ := run.mem_model_types_iff.mp htype
    have huntagged := (run.body_emitted_iff (fun _ => TypeBody.noConfusion)
      fun _ _ _ => TypeBody.noConfusion).mp hbody
    rw [List.map_map]
    exact run.typeNames_nodup_of_untagged hdeclared huntagged
  · rename_i alternatives nullable hbody
    obtain ⟨definition, -, items, -, hunion⟩ := run.exists_items_of_union htype hbody
    rw [List.map_map, Function.comp_def, funext text_payloadTerm]
    exact (Build.collects_of_unionOf? hunion).nodup.map payload_injective
  · exact List.nodup_nil

/-- Of two sources of a sum type one is a name. -/
theorem exists_name_of_sources {type : TypeDecl} {s t : TypeTerm} (hs : s ∈ type.sources)
    (ht : t ∈ type.sources) (hne : s ≠ t) : ∃ name, s = .named name ∨ t = .named name := by
  unfold TypeDecl.sources at hs ht
  split at hs
  · obtain ⟨case, -, rfl⟩ := List.mem_map.mp hs
    exact ⟨_, Or.inl rfl⟩
  · obtain ⟨case, -, rfl⟩ := List.mem_map.mp hs
    exact ⟨_, Or.inl rfl⟩
  · obtain ⟨kind, -, rfl⟩ := List.mem_map.mp hs
    rename_i hbody
    rw [hbody] at ht
    obtain ⟨kind', -, rfl⟩ := List.mem_map.mp ht
    by_cases hkind : kind = .array
    · have hother : kind' ≠ .array := fun hkind' => hne (by rw [hkind, hkind'])
      exact ⟨_, Or.inr (payloadTerm_of_ne_array hother)⟩
    · exact ⟨_, Or.inl (payloadTerm_of_ne_array hkind)⟩
  · cases hs

theorem not_isPlainAlias_of_mem {type : TypeDecl} (htype : type ∈ run.model.types)
    (hplain : type.body.plainTarget? = none) :
    ¬IsPlainAlias run.model.types (.named type.name) := by
  rintro ⟨name, target, hname, other, hother, hsame, htarget⟩
  obtain rfl : type = other := by
    refine List.inj_on_of_nodup_map run.model_names_nodup htype hother ?_
    rw [hsame]
    exact TypeTerm.named.inj hname
  rw [hplain] at htarget
  cases htarget

/-- A case of a tagged type is a record of another name. -/
theorem not_isPlainAlias_of_mem_taggedCases {type : TypeDecl} (htype : type ∈ run.model.types)
    {case : TaggedCase} (hcase : case ∈ type.taggedCases) :
    ¬IsPlainAlias run.model.types (.named case.typeName) ∧ case.typeName ≠ type.name := by
  obtain ⟨variant, hvariant, hname, fields, hbody⟩ := run.hasVariant_model htype hcase
  rw [← hname]
  refine ⟨run.not_isPlainAlias_of_mem hvariant (by rw [hbody]; rfl), fun hsame => ?_⟩
  obtain rfl : variant = type :=
    List.inj_on_of_nodup_map run.model_names_nodup hvariant htype hsame
  rw [TypeDecl.taggedCases, hbody] at hcase
  cases hcase

end Compilation

/-- **Conversions do not overlap, except through plain aliases.**  A sum type is made from distinct
types as they are written.  The conversions of a tagged type are unambiguous.  Those of any sum
type are exactly if it is not made from itself and no plain alias among the types it is made from
stands for it or for what another one stands for. -/
theorem Model.conversions {document : Document} {model : Model}
    (hbuild : Model.build document = .ok model) {type : TypeDecl} (htype : type ∈ model.types) :
    (type.sources.map TypeTerm.text).Nodup ∧
      (∀ property cases, type.body = .tagged property cases →
        Unambiguous model.types type.sources type.name) ∧
      (Unambiguous model.types type.sources type.name ↔
        NoOverlap model.types type.sources type.name) := by
  obtain ⟨run, rfl⟩ := Model.build_eq_ok_iff.mp hbuild
  have htexts := run.texts_nodup htype
  have hiff : Unambiguous run.model.types type.sources type.name ↔
      NoOverlap run.model.types type.sources type.name := by
    cases hplain : type.body.plainTarget? with
    | none =>
        exact unambiguous_iff (List.Nodup.of_map _ htexts)
          (fun s hs t ht hne => Compilation.exists_name_of_sources hs ht hne)
          (run.not_isPlainAlias_of_mem htype hplain)
    | some target =>
        have hnil := sources_eq_nil_of_plainTarget? hplain
        refine iff_of_true ⟨?_, ?_⟩ ⟨?_, ?_⟩ <;> rw [hnil] <;> simp
  refine ⟨htexts, fun property cases hbody => hiff.mpr ⟨?_, ?_⟩, hiff⟩
  · intro hmem
    obtain ⟨case, hcase, hname⟩ := exists_case_of_mem_sources hbody hmem
    exact (run.not_isPlainAlias_of_mem_taggedCases htype hcase).2 (TypeTerm.named.inj hname)
  · intro source hsource hplain
    obtain ⟨case, hcase, rfl⟩ := exists_case_of_mem_sources hbody hsource
    exact absurd hplain (run.not_isPlainAlias_of_mem_taggedCases htype hcase).1

/-! ## Lists of strings under two names -/

theorem plainAlias_iff_mem {target : Descriptor} :
    PlainAlias types name target ↔
      (name, some target) ∈ types.map fun type => (type.name, type.body.plainTarget?) := by
  rw [List.mem_map]
  refine exists_congr fun type => and_congr_right fun _ => ?_
  rw [Prod.mk.injEq]

/-- A plain alias differs from whatever its target differs from. -/
theorem Differ.of_expand {target : Descriptor} (halias : PlainAlias types name target)
    (hunique : ∀ other, PlainAlias types name other → other = target)
    (h : Differ types target.term t) : Differ types (.named name) t := by
  intro term hterm
  cases hterm with
  | own hown => exact absurd halias (hown target)
  | expand hother hexpanded =>
      obtain rfl := hunique _ hother
      exact h term hexpanded

def itemReference (name : String) : Json :=
  .object [("allOf", .array [.object [("$ref", .string ("#/$defs/" ++ name))]])]

def strings : Node :=
  [("type", .string "array"), ("items", .object [("type", .string "string")])]

/-- A sum type of a list of strings and of something else. -/
def labelsDocument (tags : Node) : Document where
  definitions :=
    [("Labels", .object [("anyOf", .array [itemReference "Names", itemReference "Tags"])]),
      ("Names", .object strings), ("Tags", .object tags)]
  revision := none
  distinct := by simp [Entries.Distinct, Entries.keys]

def labelSources : List TypeTerm :=
  [.named "Names", .named "Tags"]

/-- What a compiled document shows of its plain aliases and of the sum type. -/
theorem exists_type_labels {tags : Node} {aliases : List (String × Option Descriptor)}
    (h : ((Model.build (labelsDocument tags)).toOption.map fun model =>
      (model.types.map fun type => (type.name, type.body.plainTarget?),
        (model.type? "Labels").map TypeDecl.sources)) = some (aliases, some labelSources)) :
    ∃ model, Model.build (labelsDocument tags) = .ok model ∧
      (∀ name target, PlainAlias model.types name target ↔ (name, some target) ∈ aliases) ∧
      ∃ type ∈ model.types, type.name = "Labels" ∧ type.sources = labelSources := by
  obtain ⟨model, hbuild, hshown⟩ := exists_of_toOption_map_eq_some h
  obtain ⟨haliases, hsources⟩ := Prod.mk.inj hshown
  obtain ⟨type, hfound, hsources⟩ := Option.map_eq_some_iff.mp hsources
  obtain ⟨htype, hname⟩ := of_find?_name_eq_some hfound
  refine ⟨model, hbuild, fun name target => ?_, type, htype, hname, hsources⟩
  rw [plainAlias_iff_mem, haliases]

theorem conversions_labels :
    ∃ model, Model.build (labelsDocument [("type", .string "object"), ("properties", .object [])]) =
        .ok model ∧
      ∃ type ∈ model.types, type.sources = labelSources ∧
        Unambiguous model.types type.sources type.name := by
  have hshown : ((Model.build
      (labelsDocument [("type", .string "object"), ("properties", .object [])])).toOption.map
        fun model => (model.types.map fun type => (type.name, type.body.plainTarget?),
          (model.type? "Labels").map TypeDecl.sources)) =
      some ([("Names", some (.array (.scalar .string))), ("Labels", none), ("Tags", none)],
        some labelSources) := by
    decide
  obtain ⟨model, hbuild, haliases, type, htype, hname, hsources⟩ := exists_type_labels hshown
  refine ⟨model, hbuild, type, htype, hsources, (Model.conversions hbuild htype).2.2.mpr ?_⟩
  have hstrings : PlainAlias model.types "Names" (.array (.scalar .string)) :=
    (haliases _ _).mpr List.mem_cons_self
  have honly {name : String} {target : Descriptor} (h : PlainAlias model.types name target) :
      name = "Names" ∧ target = .array (.scalar .string) := by
    simpa using (haliases _ _).mp h
  -- a list is no name that stands for itself
  have hdiffer (name : String) (hne : name ≠ "Names") :
      Differ model.types (.named "Names") (.named name) := by
    refine .of_expand hstrings (fun other hother => (honly hother).2) (Differ.symm ?_)
    refine differ_of_not_isPlainAlias ?_ ?_ TypeTerm.noConfusion
    · rintro ⟨other, target, hsame, hother⟩
      exact hne ((TypeTerm.named.inj hsame).trans (honly hother).1)
    · rintro ⟨other, target, hsame, -⟩
      cases hsame
  rw [hsources, hname]
  refine ⟨by decide, fun source hsource hplain => ?_⟩
  obtain ⟨name, target, rfl, halias⟩ := hplain
  obtain ⟨rfl, -⟩ := honly halias
  refine ⟨hdiffer "Labels" (by decide), fun other hother hne => ?_⟩
  rcases List.mem_pair.mp hother with rfl | rfl
  · exact absurd rfl hne
  · exact hdiffer "Tags" (by decide)

/-- Two plain aliases for a list of strings are two conversions from one type. -/
theorem labels_overlap :
    ∃ model, Model.build (labelsDocument strings) = .ok model ∧
      ∃ type ∈ model.types, type.sources = labelSources ∧
        ¬Unambiguous model.types type.sources type.name := by
  have hshown : ((Model.build (labelsDocument strings)).toOption.map fun model =>
      (model.types.map fun type => (type.name, type.body.plainTarget?),
        (model.type? "Labels").map TypeDecl.sources)) =
      some ([("Names", some (.array (.scalar .string))), ("Tags", some (.array (.scalar .string))),
        ("Labels", none)], some labelSources) := by
    decide
  obtain ⟨model, hbuild, haliases, type, htype, -, hsources⟩ := exists_type_labels hshown
  have hstring : Stands model.types (.named "String") (.named "String") :=
    .own fun target htarget => absurd ((haliases _ _).mp htarget) (by simp)
  have hstands {name : String} (h : PlainAlias model.types name (.array (.scalar .string))) :
      Stands model.types (.named name) (.list (.named "String")) :=
    .expand h (.list hstring)
  refine ⟨model, hbuild, type, htype, hsources, fun hunambiguous => ?_⟩
  have hapart := hunambiguous.apart
  rw [hsources] at hapart
  have hdiffer : Differ model.types (.named "Names") (.named "Tags") := by
    simpa [labelSources] using hapart
  exact hdiffer _ (hstands ((haliases _ _).mpr (by simp))) (hstands ((haliases _ _).mpr (by simp)))

end SchemaCompiler
