import SchemaCompiler.Proofs.Model.Identifiers
import SchemaCompiler.Render.Source

/-!
# Default functions

A field with a default gets a function of its own, which is named after the type and the field with
an underscore between the two.  All of them stand side by side in the generated file.  Those of one
type are distinct, but no one compares those of two types, and since a name may have underscores of
its own, a part of one can belong to the type or to the field: the functions of a model are distinct
exactly if no two types share a name that way (`Model.default_functions`).  A field `width` of
`PenTip` and a field `tip_width` of `Pen` do (`pen_functions_collide`).
-/

namespace SchemaCompiler

open Fallible

/-! ## Names that are glued together -/

/-- Two names glued at an underscore are one: they have the same parts, or a word belongs to the
front of one and to the back of the other. -/
def GluedAlike (front back front' back' : String) : Prop :=
  front = front' ∧ back = back' ∨
    (∃ word, front' = front ++ "_" ++ word ∧ back = word ++ "_" ++ back') ∨
    ∃ word, front = front' ++ "_" ++ word ∧ back' = word ++ "_" ++ back

theorem exists_word_of_glued {front back front' back' : String} {rest : List Char}
    (hfront : front'.toList = front.toList ++ rest)
    (hback : '_' :: back.toList = rest ++ '_' :: back'.toList) :
    front = front' ∧ back = back' ∨
      ∃ word, front' = front ++ "_" ++ word ∧ back = word ++ "_" ++ back' := by
  cases rest with
  | nil =>
      rw [List.append_nil] at hfront
      rw [List.nil_append] at hback
      exact Or.inl ⟨(String.toList_inj.mp hfront).symm,
        String.toList_inj.mp (List.cons.inj hback).2⟩
  | cons c word =>
      obtain ⟨rfl, hword⟩ := List.cons.inj hback
      refine Or.inr ⟨String.ofList word, String.toList_inj.mp ?_, String.toList_inj.mp ?_⟩
      · simp [hfront]
      · simp [hword]

theorem glued_eq_iff {front back front' back' : String} :
    front ++ "_" ++ back = front' ++ "_" ++ back' ↔ GluedAlike front back front' back' := by
  constructor
  · intro h
    have hlists : front.toList ++ '_' :: back.toList = front'.toList ++ '_' :: back'.toList := by
      simpa using congrArg String.toList h
    rcases List.append_eq_append_iff.mp hlists with ⟨rest, hfront, hback⟩ | ⟨rest, hfront, hback⟩
    · rcases exists_word_of_glued hfront hback with hsame | hword
      · exact Or.inl hsame
      · exact Or.inr (Or.inl hword)
    · rcases exists_word_of_glued hfront hback with ⟨hsame, hsame'⟩ | hword
      · exact Or.inl ⟨hsame.symm, hsame'.symm⟩
      · exact Or.inr (Or.inr hword)
  · rintro (⟨rfl, rfl⟩ | ⟨word, rfl, rfl⟩ | ⟨word, rfl, rfl⟩)
    · rfl
    · simp only [String.append_assoc]
    · simp only [String.append_assoc]

/-! ## The functions of a type -/

def Field.isDefaulted (field : Field) : Bool :=
  match field.presence with
  | .defaulted _ => true
  | _ => false

namespace TypeDecl

/-- The fields that have a default function. -/
def defaulted (type : TypeDecl) : List Field :=
  type.fields.filter Field.isDefaulted

def defaultFunctions (type : TypeDecl) : List String :=
  type.defaulted.map (Render.defaultFunction type)

end TypeDecl

/-- The names of all default functions in the order in which they are written. -/
def Model.defaultFunctions (model : Model) : List String :=
  model.types.flatMap TypeDecl.defaultFunctions

theorem defaultFunction_eq_iff {type other : TypeDecl} {field field' : Field} :
    Render.defaultFunction type field = Render.defaultFunction other field' ↔
      GluedAlike (Naming.snakeCase type.name) field.identifier (Naming.snakeCase other.name)
        field'.identifier := by
  rw [← glued_eq_iff, Render.defaultFunction, Render.defaultFunction]
  simp only [String.append_assoc, String.append_right_inj]

theorem disjoint_defaultFunctions_iff {type other : TypeDecl} :
    type.defaultFunctions.Disjoint other.defaultFunctions ↔
      ∀ field ∈ type.defaulted, ∀ field' ∈ other.defaulted,
        ¬GluedAlike (Naming.snakeCase type.name) field.identifier (Naming.snakeCase other.name)
          field'.identifier := by
  constructor
  · intro hdisjoint field hfield field' hfield' hglued
    refine hdisjoint (List.mem_map_of_mem hfield) ?_
    rw [defaultFunction_eq_iff.mpr hglued]
    exact List.mem_map_of_mem hfield'
  · intro hapart name hname hname'
    obtain ⟨field, hfield, rfl⟩ := List.mem_map.mp hname
    obtain ⟨field', hfield', hsame⟩ := List.mem_map.mp hname'
    exact hapart field hfield field' hfield' (defaultFunction_eq_iff.mp hsame.symm)

theorem key?_of_isDefaulted {field : Field} (h : field.isDefaulted = true) :
    field.key?.isSome = true := by
  have hpresence : field.presence ≠ .flattened := by
    intro hflattened
    rw [Field.isDefaulted, hflattened] at h
    cases h
  rw [Build.key?_of_ne_flattened hpresence]
  rfl

/-- Fields that are written apart have functions of different names. -/
theorem Composed.defaultFunctions_nodup {type : TypeDecl} (h : Composed type.fields) :
    type.defaultFunctions.Nodup := by
  have hsublist : type.defaulted.Sublist (type.fields.filter (·.key?.isSome)) :=
    List.monotone_filter_right _ fun field hfield => key?_of_isDefaulted hfield
  have hidentifiers : (type.defaulted.map (·.identifier)).Nodup := by
    have hwritten := h.nodup_written_filter.sublist (hsublist.map Field.written)
    exact List.Nodup.of_map Profile.standard.escape (by rwa [List.map_map])
  rw [TypeDecl.defaultFunctions, List.Nodup, List.pairwise_map]
  refine (List.pairwise_map.mp hidentifiers).imp fun hne hsame => hne ?_
  exact (String.append_right_inj _).mp hsame

/-! ## Functions in the source -/

namespace Render

/-- The line begins a function that stands by itself. -/
def isFunction (line : String) : Bool :=
  line.toList.take 3 = ['f', 'n', ' ']

theorem isFunction_of_head? {line : String} (h : line.toList.head? ≠ some 'f') :
    isFunction line = false := by
  refine decide_eq_false fun htake => h ?_
  cases hline : line.toList with
  | nil => rw [hline] at htake; cases htake
  | cons c cs =>
      rw [hline] at htake
      rw [List.head?_cons, (List.cons.inj htake).1]

theorem isFunction_append {front : String} (h : front.toList.head?.any (· ≠ 'f') = true)
    (rest : String) : isFunction (front ++ rest) = false := by
  refine isFunction_of_head? ?_
  rw [String.toList_append, List.head?_append]
  cases hhead : front.toList.head? with
  | none => rw [hhead] at h; cases h
  | some c =>
      rw [hhead] at h
      rintro ⟨⟩
      exact absurd h (by decide)

/-- A path without blanks does not make a function of an invocation. -/
theorem isFunction_declaration {options : RenderOptions} (h : ' ' ∉ options.runtimePath.toList)
    (name : String) : isFunction (options.declaration name ++ " \x7b") = false := by
  refine decide_eq_false ?_
  rw [RenderOptions.declaration]
  simp only [String.toList_append, List.append_assoc]
  generalize options.runtimePath.toList = path at h
  intro htake
  match path with
  | [] => exact absurd (List.cons.inj htake).1 (by decide)
  | [_] => exact absurd (List.cons.inj (List.cons.inj htake).2).1 (by decide)
  | [_, _] => exact absurd (List.cons.inj (List.cons.inj (List.cons.inj htake).2).2).1 (by decide)
  | _ :: _ :: c :: _ =>
      obtain rfl : c = ' ' := (List.cons.inj (List.cons.inj (List.cons.inj htake).2).2).1
      simp at h

/-! ### Lines without a function -/

/-- No line begins a function. -/
def Silent (lines : Lines) : Prop :=
  ∀ line ∈ lines, isFunction line = false

@[simp] theorem silent_nil : Silent [] :=
  fun _ hline => absurd hline List.not_mem_nil

@[simp] theorem silent_cons_iff {line : String} {lines : Lines} :
    Silent (line :: lines) ↔ isFunction line = false ∧ Silent lines :=
  List.forall_mem_cons

@[simp] theorem silent_append_iff {front back : Lines} :
    Silent (front ++ back) ↔ Silent front ∧ Silent back :=
  List.forall_mem_append

@[simp] theorem silent_map_iff {α : Type} {items : List α} {line : α → String} :
    Silent (items.map line) ↔ ∀ item ∈ items, isFunction (line item) = false :=
  List.forall_mem_map

@[simp] theorem silent_flatMap_iff {α : Type} {items : List α} {lines : α → Lines} :
    Silent (items.flatMap lines) ↔ ∀ item ∈ items, Silent (lines item) := by
  simp only [Silent, List.mem_flatMap]
  grind

theorem Silent.filter_eq_nil {lines : Lines} (h : Silent lines) : lines.filter isFunction = [] :=
  List.filter_eq_nil_iff.mpr fun line hline => by simp [h line hline]

@[simp] theorem isFunction_empty : isFunction "" = false := by
  decide

@[simp] theorem isFunction_closing : isFunction closing = false := by
  decide

theorem silent_docs (context : Context) {indent : String} (hindent : 'f' ∉ indent.toList)
    (description : Option String) : Silent (context.docs indent description) := by
  -- behind the indentation stands a slash
  have hline (back : String) (hback : back.toList.head? = some '/') :
      isFunction (indent ++ back) = false := by
    refine isFunction_of_head? fun hhead => ?_
    rw [String.toList_append, List.head?_append, hback] at hhead
    cases hchars : indent.toList with
    | nil => rw [hchars] at hhead; cases hhead
    | cons c cs =>
        rw [hchars] at hhead hindent
        obtain rfl : c = 'f' := Option.some.inj hhead
        exact hindent List.mem_cons_self
  intro line hmem
  rw [Context.docs, docs] at hmem
  split at hmem
  · obtain ⟨text, -, rfl⟩ := List.mem_map.mp hmem
    split
    · exact hline _ rfl
    · rw [String.append_assoc]
      refine hline _ ?_
      rw [String.toList_append]
      rfl
  · exact absurd hmem List.not_mem_nil

section Declarations

variable {context : Context} (h : ' ' ∉ context.options.runtimePath.toList) (type : TypeDecl)

theorem silent_stringEnum (members : List EnumMember) :
    Silent (stringEnum context type members) := by
  have hderive : isFunction
      "#[derive(Debug, Clone, Copy, PartialEq, Eq, Hash, Serialize, Deserialize)]" = false := by
    decide
  simp (disch := decide) [stringEnum, hderive, opening, silent_docs, String.append_assoc,
    isFunction_append]

theorem silent_untagged (cases : List UntaggedCase) : Silent (untagged context type cases) := by
  have hattribute : isFunction "#[serde(untagged)]" = false := by decide
  simp (disch := decide) [untagged, conversion, Context.recordDerive, hattribute, opening,
    silent_docs, String.append_assoc, isFunction_append]

theorem silent_field (field : Field) : Silent (Render.field context type field) := by
  rw [Render.field]
  split <;> simp (disch := decide) [silent_docs, String.append_assoc, isFunction_append]

include h

theorem silent_aliasLines (target : Descriptor) : Silent (aliasLines context type target) := by
  rw [aliasLines]
  split <;> simp (disch := decide) [opening, silent_docs, isFunction_declaration h,
    String.append_assoc, isFunction_append]

theorem silent_union (alternatives : List Wire.AlternativeKind) (nullable : Bool) :
    Silent (union context type alternatives nullable) := by
  have hnull : Silent (if nullable then [step ++ "nullable Null;"] else []) := by
    cases nullable <;> simp (disch := decide) [isFunction_append]
  simp (disch := decide) [union, hnull, opening, silent_docs, isFunction_declaration h,
    String.append_assoc, isFunction_append]

theorem silent_integerEnum (width : IntWidth) (members : List EnumMember)
    (catchAll : Option CatchAll) :
    Silent (integerEnum context type width members catchAll) := by
  unfold integerEnum
  cases catchAll <;> simp (disch := decide) [opening, silent_docs, isFunction_declaration h,
    String.append_assoc, isFunction_append]

theorem silent_tagged (property : String) (cases : List TaggedCase) :
    Silent (tagged context type property cases) := by
  simp (disch := decide) [tagged, opening, silent_docs, isFunction_declaration h,
    String.append_assoc, isFunction_append]

end Declarations

/-! ### Functions of a declaration -/

/-- The line that begins the default function of a field. -/
def functionHead (context : Context) (type : TypeDecl) (field : Field) : String :=
  opening ("fn " ++ defaultFunction type field ++ "() -> " ++ fieldType context field)

theorem isFunction_functionHead (context : Context) (type : TypeDecl) (field : Field) :
    isFunction (functionHead context type field) = true := by
  refine decide_eq_true ?_
  simp only [functionHead, opening, String.append_assoc, String.toList_append]
  rfl

variable (context : Context) (type : TypeDecl)

theorem filter_defaultItem (field : Field) :
    (defaultItem context type field).filter isFunction =
      if field.isDefaulted then [functionHead context type field] else [] := by
  rw [defaultItem, Field.isDefaulted]
  cases field.presence with
  | defaulted value =>
      have hbody : isFunction (step ++ literal field.descriptor value) = false :=
        isFunction_append (by decide) _
      have hhead := isFunction_functionHead context type field
      rw [functionHead] at hhead
      simp [hbody, hhead, functionHead]
  | _ => rfl

theorem filter_defaultItems (fields : List Field) :
    (fields.flatMap (defaultItem context type)).filter isFunction =
      (fields.filter Field.isDefaulted).map (functionHead context type) := by
  induction fields with
  | nil => rfl
  | cons field rest ih =>
      rw [List.flatMap_cons, List.filter_append, ih, filter_defaultItem]
      cases hfield : field.isDefaulted <;> simp [hfield]

theorem filter_record (fields : List Field) :
    (record context type fields).filter isFunction =
      (fields.filter Field.isDefaulted).map (functionHead context type) := by
  have hfront : Silent (context.docs "" type.description ++ [context.recordDerive]) := by
    simp (disch := decide) [Context.recordDerive, silent_docs, String.append_assoc,
      isFunction_append]
  rw [record, List.filter_append, hfront.filter_eq_nil, List.nil_append]
  split
  · rename_i hempty
    have hstruct : Silent ["pub struct " ++ type.name ++ " " ++ braced ""] := by
      simp (disch := decide) [String.append_assoc, isFunction_append]
    rw [hstruct.filter_eq_nil, List.isEmpty_iff.mp hempty]
    rfl
  · have hfields : Silent ([opening ("pub struct " ++ type.name)] ++
        fields.flatMap (Render.field context type) ++ [closing]) := by
      simp (disch := decide) [opening, silent_field, String.append_assoc, isFunction_append]
    rw [List.filter_append, hfields.filter_eq_nil, List.nil_append, filter_defaultItems]

/-- A declaration begins one function for each of its fields with a default. -/
theorem filter_declaration {context : Context} (h : ' ' ∉ context.options.runtimePath.toList)
    (type : TypeDecl) :
    (declaration context type).filter isFunction =
      type.defaulted.map (functionHead context type) := by
  obtain ⟨definition, origin, name, description, body⟩ := type
  cases body with
  | aliasOf target => exact (silent_aliasLines h _ target).filter_eq_nil
  | enumeration form members catchAll =>
      cases form with
      | string => exact (silent_stringEnum _ members).filter_eq_nil
      | integer width => exact (silent_integerEnum h _ width members catchAll).filter_eq_nil
  | tagged property cases => exact (silent_tagged h _ property cases).filter_eq_nil
  | untagged cases => exact (silent_untagged _ cases).filter_eq_nil
  | union alternatives nullable => exact (silent_union h _ alternatives nullable).filter_eq_nil
  | record fields => exact filter_record context _ fields
  | variant base value fields => exact filter_record context _ fields

theorem filter_sections {context : Context} (h : ' ' ∉ context.options.runtimePath.toList)
    (current : Option Group) (types : List TypeDecl) :
    (sections context current types).filter isFunction =
      types.flatMap fun type => type.defaulted.map (functionHead context type) := by
  induction types generalizing current with
  | nil => rfl
  | cons type rest ih =>
      have hheading : Silent ((if current = some type.group then []
          else ["", "// " ++ type.group.heading]) ++ [""]) := by
        split <;> simp (disch := decide) [isFunction_append]
      rw [sections, List.append_cons, List.filter_append, List.filter_append,
        hheading.filter_eq_nil, List.nil_append, filter_declaration h, ih, List.flatMap_cons]

/-- The lines of a generated file. -/
def sourceLines (options : RenderOptions) (model : Model) : Lines :=
  header options.sourceLabel model.revision ++
    ["// Schema sha256: " ++ model.checksum.hex, "",
      "use serde::" ++ braced "Deserialize, Serialize" ++ ";"] ++
    sections ⟨options, Profile.standard⟩ none model.types

theorem source_eq (options : RenderOptions) (model : Model) :
    source options model = text (sourceLines options model) :=
  rfl

theorem filter_sourceLines {options : RenderOptions} (h : ' ' ∉ options.runtimePath.toList)
    (model : Model) :
    (sourceLines options model).filter isFunction =
      model.types.flatMap fun type =>
        type.defaulted.map (functionHead ⟨options, Profile.standard⟩ type) := by
  have hheader : Silent (header options.sourceLabel model.revision ++
      ["// Schema sha256: " ++ model.checksum.hex, "",
        "use serde::" ++ braced "Deserialize, Serialize" ++ ";"]) := by
    rw [header]
    cases model.revision <;>
      simp (disch := decide) [String.append_assoc, isFunction_append]
  rw [sourceLines, List.filter_append, hheader.filter_eq_nil, List.nil_append]
  exact filter_sections h none model.types

end Render

/-! ## The functions of a model -/

/-- **When default functions are distinct.**  A generated file begins the functions of all fields
with defaults and no others.  Those of one type have different names, and those of the whole file
do exactly if no two types have fields whose names, glued to those of the types, are one. -/
theorem Model.default_functions {document : Document} {model : Model}
    (h : Model.build document = .ok model) :
    (∀ options : RenderOptions, ' ' ∉ options.runtimePath.toList →
      Render.source options model = Render.text (Render.sourceLines options model) ∧
        (Render.sourceLines options model).filter Render.isFunction =
          model.types.flatMap fun type =>
            type.defaulted.map (Render.functionHead ⟨options, Profile.standard⟩ type)) ∧
      (∀ type ∈ model.types, type.defaultFunctions.Nodup) ∧
      (model.defaultFunctions.Nodup ↔
        model.types.Pairwise fun type other =>
          ∀ field ∈ type.defaulted, ∀ field' ∈ other.defaulted,
            ¬GluedAlike (Naming.snakeCase type.name) field.identifier
              (Naming.snakeCase other.name) field'.identifier) := by
  obtain ⟨run, rfl⟩ := Model.build_eq_ok_iff.mp h
  have hnodup : ∀ type ∈ run.model.types, type.defaultFunctions.Nodup :=
    fun type htype => (run.composed_emitted htype).defaultFunctions_nodup
  refine ⟨fun options hpath => ⟨Render.source_eq options run.model,
    Render.filter_sourceLines hpath run.model⟩, hnodup, ?_⟩
  rw [Model.defaultFunctions, List.nodup_flatMap, and_iff_right hnodup]
  exact List.Pairwise.iff fun type other => disjoint_defaultFunctions_iff

/-! ## A word between two names -/

/-- A record of one integer with a default. -/
def sized (property : String) (size : Int) : Json :=
  .object [("properties", .object
    [(property, .object [("type", .string "integer"), ("default", .number (.int size))])])]

def penDocument (property : String) : Document where
  definitions := [("Pen", sized property 1), ("PenTip", sized "width" 2)]
  revision := none
  distinct := by
    show ["Pen", "PenTip"].Nodup
    decide

theorem default_functions_pen :
    ∃ model, Model.build (penDocument "length") = .ok model ∧
      model.defaultFunctions = ["default_pen_length", "default_pen_tip_width"] ∧
      (Render.sourceLines .standard model).filter Render.isFunction =
        model.types.flatMap fun type =>
          type.defaulted.map (Render.functionHead ⟨.standard, Profile.standard⟩ type) := by
  have hshown : (Model.build (penDocument "length")).toOption.map (·.defaultFunctions) =
      some ["default_pen_length", "default_pen_tip_width"] := by
    decide
  obtain ⟨model, hbuild, hfunctions⟩ := exists_of_toOption_map_eq_some hshown
  exact ⟨model, hbuild, hfunctions,
    ((Model.default_functions hbuild).1 .standard (by decide)).2⟩

/-- The word `tip` belongs to a field of one type and to the name of the other. -/
theorem pen_functions_collide :
    ∃ model, Model.build (penDocument "tipWidth") = .ok model ∧
      (Render.sourceLines .standard model).filter Render.isFunction =
        ["fn default_pen_tip_width() -> i32 \x7b", "fn default_pen_tip_width() -> i32 \x7b"] ∧
      ¬model.defaultFunctions.Nodup := by
  have hshown : (Model.build (penDocument "tipWidth")).toOption.map (fun model =>
      (model.types.flatMap fun type =>
          type.defaulted.map (Render.functionHead ⟨.standard, Profile.standard⟩ type),
        model.defaultFunctions)) =
        some (["fn default_pen_tip_width() -> i32 \x7b",
          "fn default_pen_tip_width() -> i32 \x7b"],
          ["default_pen_tip_width", "default_pen_tip_width"]) := by
    decide
  obtain ⟨model, hbuild, hshown⟩ := exists_of_toOption_map_eq_some hshown
  obtain ⟨hlines, hfunctions⟩ := Prod.mk.inj hshown
  refine ⟨model, hbuild, (Render.filter_sourceLines (by decide) model).trans hlines, ?_⟩
  rw [hfunctions]
  decide

end SchemaCompiler
