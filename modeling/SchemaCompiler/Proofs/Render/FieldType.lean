import SchemaCompiler.Proofs.Model.Descriptors
import SchemaCompiler.Proofs.Text.Blank

/-!
# The written type of a field

A type is written from the inside out: a name, and around it one wrapper after the other
(`Render.fieldType_eq`).  An optional field gets one more option than its descriptor has, unless
the descriptor has one on the outside.  So if no option of the descriptor holds an option directly,
no option is put around another one (`Field.not_doubled`), and `Option<Option<` cannot be read in
the text (`Wrapper.doubled_of_infix`).  This is the case for the fields of every model
(`Model.options_apart`).
-/

namespace SchemaCompiler

/-- What stands around a type. -/
inductive Wrapper where
  | optional
  | list
  | pointer
deriving DecidableEq, Repr

namespace Wrapper

def wrap : Wrapper → String → String
  | optional => Profile.optional
  | list => Profile.list
  | pointer => Profile.pointer

/-- The name in front of the bracket. -/
def label : Wrapper → String
  | optional => "Option"
  | list => "Vec"
  | pointer => "Box"

theorem toList_wrap (wrapper : Wrapper) (type : String) :
    (wrapper.wrap type).toList = wrapper.label.toList ++ '<' :: (type.toList ++ ['>']) := by
  cases wrapper <;> simp [wrap, label, Profile.optional, Profile.list, Profile.pointer]

/-- An option is put directly around another one. -/
def Doubled (wrappers : List Wrapper) : Prop :=
  [optional, optional] <:+: wrappers

theorem doubled_cons_iff {wrapper : Wrapper} {rest : List Wrapper} :
    Doubled (wrapper :: rest) ↔
      wrapper = optional ∧ rest.head? = some optional ∨ Doubled rest := by
  unfold Doubled
  rw [List.infix_cons_iff, List.cons_prefix_cons]
  cases rest with
  | nil => simp
  | cons next rest => simp [List.cons_prefix_cons, eq_comm]

end Wrapper

/-! ## Wrappers -/

/-- The wrappers of a descriptor, from the outside in. -/
def Descriptor.wrappers (boxed : Bool) : Descriptor → List Wrapper
  | scalar _ | dynamic => []
  | reference _ => if boxed then [.pointer] else []
  | array items => .list :: items.wrappers false
  | nullable inner => .optional :: inner.wrappers boxed

namespace Descriptor

@[simp] theorem wrappers_scalar (boxed : Bool) (type : Scalar) :
    (scalar type).wrappers boxed = [] := rfl

@[simp] theorem wrappers_dynamic (boxed : Bool) : dynamic.wrappers boxed = [] := rfl

@[simp] theorem wrappers_reference (boxed : Bool) (name : String) :
    (reference name).wrappers boxed = if boxed then [.pointer] else [] := rfl

@[simp] theorem wrappers_array (boxed : Bool) (items : Descriptor) :
    (array items).wrappers boxed = .list :: items.wrappers false := rfl

@[simp] theorem wrappers_nullable (boxed : Bool) (inner : Descriptor) :
    (nullable inner).wrappers boxed = .optional :: inner.wrappers boxed := rfl

end Descriptor

/-- The name inside all wrappers. -/
def Profile.core (profile : Profile) : Descriptor → String
  | .scalar scalar => profile.scalar scalar
  | .reference name => Naming.typeName name
  | .array items => profile.core items
  | .nullable inner => profile.core inner
  | .dynamic => profile.dynamic

/-- The wrappers of a field, with the option around one that may be missing. -/
def Field.wrappers (field : Field) : List Wrapper :=
  let inside := field.descriptor.wrappers field.boxed
  match field.presence, field.descriptor with
  | .optional, .nullable _ => inside
  | .optional, _ => .optional :: inside
  | _, _ => inside

theorem Profile.type_eq (profile : Profile) (boxed : Bool) (descriptor : Descriptor) :
    profile.type boxed descriptor =
      (descriptor.wrappers boxed).foldr Wrapper.wrap (profile.core descriptor) := by
  induction descriptor generalizing boxed with
  | scalar => rfl
  | reference name => cases boxed <;> rfl
  | array items ih =>
      rw [type, ih]
      rfl
  | nullable inner ih =>
      rw [type, ih]
      rfl
  | dynamic => rfl

theorem Render.fieldType_eq (context : Context) (field : Field) :
    fieldType context field =
      field.wrappers.foldr Wrapper.wrap (context.profile.core field.descriptor) := by
  unfold fieldType Field.wrappers
  rw [Profile.type_eq]
  cases field.presence with
  | optional => cases field.descriptor <;> rfl
  | _ => rfl

/-! ## Doubled options -/

theorem Descriptor.head?_wrappers_iff {descriptor : Descriptor} {boxed : Bool} :
    (descriptor.wrappers boxed).head? = some .optional ↔ ∃ inner, descriptor = nullable inner := by
  cases descriptor with
  | reference name => cases boxed <;> simp
  | _ => simp

theorem Descriptor.optional_notMem_wrappers_reference (name : String) (boxed : Bool) :
    Wrapper.optional ∉ (reference name).wrappers boxed := by
  cases boxed <;> simp

theorem Descriptor.IsNormal.not_doubled {descriptor : Descriptor} (h : descriptor.IsNormal)
    (boxed : Bool) : ¬Wrapper.Doubled (descriptor.wrappers boxed) := by
  induction h generalizing boxed with
  | scalar => simp [Wrapper.Doubled]
  | reference name =>
      exact fun hdoubled =>
        optional_notMem_wrappers_reference name boxed (hdoubled.mem List.mem_cons_self)
  | array _ ih =>
      rw [wrappers_array, Wrapper.doubled_cons_iff]
      rintro (⟨hlist, -⟩ | hinside)
      · cases hlist
      · exact ih false hinside
  | nullable _ hnullable _ ih =>
      rw [wrappers_nullable, Wrapper.doubled_cons_iff, head?_wrappers_iff]
      rintro (⟨-, held, hheld⟩ | hinside)
      · exact hnullable held hheld
      · exact ih boxed hinside
  | dynamic => simp [Wrapper.Doubled]

/-- The option around a field that may be missing is left out where the type is one already. -/
theorem Field.not_doubled {field : Field} (h : field.descriptor.IsNormal) :
    ¬Wrapper.Doubled field.wrappers := by
  have hinside := h.not_doubled field.boxed
  unfold wrappers
  split
  · exact hinside
  · rename_i hother
    rw [Wrapper.doubled_cons_iff, Descriptor.head?_wrappers_iff]
    rintro (⟨-, inner, hinner⟩ | hdoubled)
    · exact hother inner hinner
    · exact hinside hdoubled
  · exact hinside

/-! ## Text -/

namespace Wrapper

theorem notMem_label (wrapper : Wrapper) : '<' ∉ wrapper.label.toList := by
  cases wrapper <;> decide

theorem not_bracket_of_notMem {cs : List Char} (h : '<' ∉ cs) :
    ∀ c ∈ cs, decide (c = '<') = false :=
  fun _ hc => decide_eq_false (ne_of_mem_of_not_mem hc h)

/-- Split at its opening brackets, a type is the names of its wrappers and the rest. -/
theorem exists_splitBy_wrapped (wrappers : List Wrapper) {core : String}
    (hcore : '<' ∉ core.toList) {tail : List Char} (htail : '<' ∉ tail) :
    ∃ last, Text.splitBy (· = '<') ((wrappers.foldr wrap core).toList ++ tail) =
      wrappers.map (·.label.toList) ++ [last] := by
  induction wrappers generalizing tail with
  | nil =>
      have hpiece : '<' ∉ core.toList ++ tail := by simp [hcore, htail]
      exact ⟨_, Text.splitBy_eq_singleton (not_bracket_of_notMem hpiece)⟩
  | cons wrapper rest ih =>
      have htail : '<' ∉ '>' :: tail := by simp [htail]
      obtain ⟨last, hsplit⟩ := ih htail
      have hlabel : Text.splitBy (· = '<') wrapper.label.toList = [wrapper.label.toList] :=
        Text.splitBy_eq_singleton (not_bracket_of_notMem wrapper.notMem_label)
      refine ⟨last, ?_⟩
      rw [List.foldr_cons, toList_wrap, List.append_assoc, List.cons_append, List.append_assoc,
        List.singleton_append, Text.splitBy_append_cons (by decide), hlabel, hsplit]
      rfl

theorem eq_optional_of_label {wrapper : Wrapper} {front : List Char}
    (h : wrapper.label.toList = front ++ "Option".toList) : wrapper = optional := by
  have hlast := congrArg List.getLast? h
  cases wrapper with
  | optional => rfl
  | _ => simp [label] at hlast

theorem doubled_of_infix {wrappers : List Wrapper} {core : String} (hcore : '<' ∉ core.toList)
    (h : "Option<Option<".toList <:+: (wrappers.foldr wrap core).toList) : Doubled wrappers := by
  obtain ⟨front, back, htext⟩ := h
  have hparts : front ++ "Option<Option<".toList ++ back =
      (front ++ "Option".toList) ++ '<' :: ("Option".toList ++ '<' :: back) := by
    simp
  have hfree : ∀ c ∈ "Option".toList, decide (c = '<') = false :=
    not_bracket_of_notMem (notMem_label optional)
  have hoption : Text.splitBy (· = '<') "Option".toList = ["Option".toList] :=
    Text.splitBy_eq_singleton hfree
  obtain ⟨last, hsplit⟩ := exists_splitBy_wrapped wrappers hcore List.not_mem_nil
  obtain ⟨pieces, piece, happend⟩ := Text.exists_splitBy_append (· = '<') front
  -- the names of the wrappers and the last piece, against the pieces around the two options
  rw [List.append_nil, ← htext, hparts, Text.splitBy_append_cons (by decide),
    Text.splitBy_append_cons (by decide), happend _ hfree, hoption] at hsplit
  have hlabels := congrArg List.dropLast hsplit
  rw [List.dropLast_concat, ← List.append_assoc,
    List.dropLast_append_of_ne_nil (Text.splitBy_ne_nil _ _)] at hlabels
  have hinfix : [piece ++ "Option".toList, "Option".toList] <:+:
      wrappers.map (·.label.toList) := by
    refine ⟨pieces, (Text.splitBy (· = '<') back).dropLast, ?_⟩
    rw [← hlabels]
    simp
  obtain ⟨found, hfound, hnames⟩ := List.infix_map_iff.mp hinfix
  obtain ⟨first, rest, rfl, hfirst, hnames⟩ := List.map_eq_cons_iff.mp hnames.symm
  obtain ⟨second, rest, rfl, hsecond, hnames⟩ := List.map_eq_cons_iff.mp hnames
  obtain rfl := List.map_eq_nil_iff.mp hnames
  obtain rfl := eq_optional_of_label hfirst
  obtain rfl := eq_optional_of_label (hsecond.trans (List.nil_append _).symm)
  exact hfound

end Wrapper

/-! ## Options of a model -/

/-- The type of a field is written with no option directly around another one. -/
structure Render.OptionsApart (context : Context) (field : Field) : Prop where
  fieldType_eq : fieldType context field =
    field.wrappers.foldr Wrapper.wrap (context.profile.core field.descriptor)
  not_doubled : ¬Wrapper.Doubled field.wrappers
  /-- The profile's own names may hold anything. -/
  text : '<' ∉ (context.profile.core field.descriptor).toList →
    ¬"Option<Option<".toList <:+: (fieldType context field).toList

theorem Descriptor.IsNormal.optionsApart {field : Field} (h : field.descriptor.IsNormal)
    (context : Render.Context) : Render.OptionsApart context field where
  fieldType_eq := Render.fieldType_eq context field
  not_doubled := Field.not_doubled h
  text := by
    intro hcore htext
    rw [Render.fieldType_eq] at htext
    exact Field.not_doubled h (Wrapper.doubled_of_infix hcore htext)

/-- **Options stand apart.**  What is resolved from any node and rebuilt for a document is in normal
form and refers to objects of the document only.  A field with such a descriptor is written with no
option directly around another one, and all fields of a model are. -/
theorem Model.options_apart (document : Document) :
    (∀ schema, (Build.known document (Resolve.ofJson schema)).NormalIn document) ∧
      (∀ schema context field, field.descriptor = Build.known document (Resolve.ofJson schema) →
        Render.OptionsApart context field) ∧
      ∀ model, Model.build document = .ok model → ∀ type ∈ model.types, ∀ field ∈ type.fields,
        field.descriptor.NormalIn document ∧ ∀ context, Render.OptionsApart context field := by
  refine ⟨fun schema => Build.normalIn_known document _, ?_, ?_⟩
  · intro schema context field hfield
    have hnormal : field.descriptor.IsNormal := by
      rw [hfield]
      exact Build.isNormal_known document _
    exact hnormal.optionsApart context
  · intro model hbuild type htype field hfield
    obtain ⟨run, rfl⟩ := Model.build_eq_ok_iff.mp hbuild
    have hnormal := run.normalIn_of_mem_fields htype hfield
    exact ⟨hnormal, hnormal.isNormal.optionsApart⟩

/-- A list of rows, each of them a reference or null, where the referenced name is not defined, and
a field that leads back to the record. -/
def missingDocument : Document where
  definitions :=
    [("Table", .object [("type", .string "object"), ("properties", .object
      [("extra", .object [("anyOf", .array
          [.object [("$ref", .string "#/$defs/Row")], .object [("type", .string "null")]])]),
        ("next", .object [("anyOf", .array
          [.object [("$ref", .string "#/$defs/Table")], .object [("type", .string "null")]])]),
        ("rows", .object [("type", .array [.string "array", .string "null"]),
          ("items", .object [("anyOf", .array
            [.object [("$ref", .string "#/$defs/Row")],
              .object [("type", .string "null")]])])])])])]
  revision := none
  distinct := by decide

theorem options_apart_table :
    ∃ model, Model.build missingDocument = .ok model ∧ ∃ type ∈ model.types,
      type.fields.map (Render.fieldType ⟨.standard, .standard⟩) =
          ["Option<serde_json::Value>", "Option<Box<Table>>", "Option<Vec<serde_json::Value>>"] ∧
        ∀ field ∈ type.fields, field.descriptor.NormalIn missingDocument ∧
          Render.OptionsApart ⟨.standard, .standard⟩ field := by
  have hshown : ((Model.build missingDocument).toOption.map fun model =>
      (model.type? "Table").map fun type =>
        type.fields.map (Render.fieldType ⟨.standard, .standard⟩)) =
      some (some
        ["Option<serde_json::Value>", "Option<Box<Table>>", "Option<Vec<serde_json::Value>>"]) := by
    decide
  obtain ⟨model, hbuild, hshown⟩ := Fallible.exists_of_toOption_map_eq_some hshown
  obtain ⟨type, hfound, htypes⟩ := Option.map_eq_some_iff.mp hshown
  have htype := (of_find?_name_eq_some hfound).1
  obtain ⟨-, -, hfields⟩ := Model.options_apart missingDocument
  refine ⟨model, hbuild, type, htype, htypes, fun field hfield => ?_⟩
  obtain ⟨hnormal, hwritten⟩ := hfields model hbuild type htype field hfield
  exact ⟨hnormal, hwritten _⟩

end SchemaCompiler
