import SchemaCompiler.Proofs.Model.IntegerEnums
import SchemaCompiler.Proofs.Model.Presence
import SchemaCompiler.Proofs.Render.Literal

/-!
# Readers of integers

Three checks decide whether a number is an integer of a width: `IntWidth.accepts`, where a default
or a member is taken from a schema; the alternative of the width, where a union reads a number; and
the decoder of the type that the width is rendered as, where an alias does.  All of them hold the
same integer or none (`readAlike`), so whatever integer is written into the source can be read
(`Model.integers_read_back`).
-/

namespace SchemaCompiler

open Wire (AlternativeKind Payload Shape Union)
open Build (alternativeKind? literalFits)

/-! ## Numbers in unions and aliases -/

namespace Wire

/-- A number held as one kind, if that kind can. -/
def Union.numberAs (number : Number) (kind : AlternativeKind) : Option Payload :=
  match number with
  | .int value => integerAs value kind
  | .float value => if kind = .float then some (.float value) else none

theorem Union.findSome?_numberAs_float (value : Float) (kinds : List AlternativeKind) :
    kinds.findSome? (numberAs (.float value)) =
      if .float ∈ kinds then some (.float value) else none := by
  induction kinds with
  | nil => rfl
  | cons kind rest ih =>
      rw [List.findSome?_cons, numberAs]
      by_cases hkind : kind = .float
      · simp [hkind]
      · simp [hkind, Ne.symm hkind, ih]

/-- A number is taken by the first declared kind that can hold it. -/
theorem Union.choose_number (u : Union) (number : Number) :
    u.choose (.number number) = u.integerOrder.findSome? (numberAs number) := by
  cases number with
  | int value => rfl
  | float value =>
      rw [findSome?_numberAs_float, choose]
      simp only [mem_integerOrder_iff, declares_iff]

/-- The integer type that a name stands for in the source. -/
def Shape.integerNamed? (name : String) : Option Shape :=
  (IntWidth.all.find? (·.label = name)).map .integer

end Wire

/-! ## One width -/

/-- An alternative that an integer branch of the width stands for. -/
def IsAlternative (width : IntWidth) (kind : AlternativeKind) : Prop :=
  ∃ item : Node, item.width = width ∧ alternativeKind? "integer" item = some kind

/-- The three readers of a width make the same of a number: `held`, if they take it. -/
structure ReadAlike (width : IntWidth) (number : Number) (held : Option Int) : Prop where
  held_iff : ∀ value, held = some value ↔
    number = .int value ∧ width.least ≤ value ∧ value ≤ width.greatest
  accepts_eq : width.accepts number = held.isSome
  alternative : ∃ kind, (∀ other, IsAlternative width other ↔ other = kind) ∧
    Union.numberAs number kind = held.map (Payload.integer width)
  /-- The type that an alias of the width is rendered with. -/
  aliased : ∃ shape,
    Shape.integerNamed? (Profile.standard.type false (.scalar (.integer width))) = some shape ∧
      (shape.decode (.number number)).toOption = held.map Wire.Datum.integer

/-- The integer of a token within the width. -/
def IntWidth.held? (width : IntWidth) (number : Number) : Option Int :=
  number.int?.filter width.holds

theorem IntWidth.held?_int (width : IntWidth) (value : Int) :
    width.held? (.int value) = if width.holds value then some value else none :=
  Option.filter_some

/-- Every width is asked for by some format. -/
theorem IntWidth.exists_node (width : IntWidth) : ∃ item : Node, item.width = width := by
  cases width with
  | int16 => exact ⟨[("format", .string "int16")], rfl⟩
  | int32 => exact ⟨[], rfl⟩
  | int64 => exact ⟨[("format", .string "int64")], rfl⟩
  | uint16 => exact ⟨[("format", .string "uint16")], rfl⟩
  | uint32 => exact ⟨[("format", .string "uint32")], rfl⟩
  | uint64 => exact ⟨[("format", .string "uint64")], rfl⟩

theorem isAlternative_iff {width : IntWidth} {kind : AlternativeKind} :
    IsAlternative width kind ↔ kind = .integer width := by
  constructor
  · rintro ⟨item, rfl, hkind⟩
    exact (Option.some.inj hkind).symm
  · rintro rfl
    obtain ⟨item, rfl⟩ := width.exists_node
    exact ⟨item, rfl, rfl⟩

theorem readAlike (width : IntWidth) (number : Number) :
    ReadAlike width number (width.held? number) where
  held_iff value := by
    rw [IntWidth.held?, Option.filter_eq_some_iff, IntWidth.holds_iff]
    cases number <;> simp [Number.int?]
  accepts_eq := by
    cases number with
    | int value =>
        rw [IntWidth.accepts, IntWidth.held?_int]
        cases width.holds value <;> rfl
    | float value => rfl
  alternative := by
    refine ⟨.integer width, fun other => isAlternative_iff, ?_⟩
    cases number with
    | int value =>
        rw [IntWidth.held?_int, Union.numberAs, Union.integerAs]
        cases width.holds value <;> rfl
    | float value => rfl
  aliased := by
    refine ⟨.integer width, by cases width <;> rfl, ?_⟩
    cases number with
    | int value =>
        rw [IntWidth.held?_int, Shape.decode, Shape.decodeInteger]
        cases width.holds value <;> rfl
    | float value => rfl

/-! ## Defaults and members -/

namespace Render

/-- Whatever is printed inside a default that fits fits the type it is printed with. -/
theorem Prints.literalFits {type found : Descriptor} {default value : Json}
    (h : Prints type default found value) (hfits : Build.literalFits type default = true) :
    Build.literalFits found value = true := by
  induction h with
  | whole => exact hfits
  | item hmem _ ih =>
      rw [Build.literalFits] at hfits
      exact ih (List.all_eq_true.mp hfits _ hmem)
  | inner hvalue _ ih =>
      rw [Build.literalFits] at hfits
      · exact ih hfits
      · exact hvalue

end Render

/-- The default of a field is a literal of its type. -/
def Field.FitsDefault (field : Field) : Prop :=
  ∀ default, field.presence = .defaulted default → literalFits field.descriptor default = true

namespace Build

theorem fits_of_presenceOf {descriptor : Descriptor} {required : Bool} {default : Option Json}
    {value : Json} (h : (presenceOf descriptor required default).1 = .defaulted value) :
    literalFits descriptor value = true := by
  unfold presenceOf at h
  split at h
  · cases h
  · split at h
    · cases h
    · split at h
      · rename_i hfits
        cases h
        exact hfits
      · cases h

theorem fitsDefault_of_mem_fields {document : Document} {origin typeName : String}
    {set : PropertySet} {field : Field} (h : field ∈ (fields document origin typeName set).1) :
    field.FitsDefault := by
  intro default hdefault
  have hfacts := List.mem_map_of_mem (f := Field.facts) h
  rw [facts_fields] at hfacts
  obtain ⟨⟨wireName, property⟩, -, hproperty⟩ := List.mem_map.mp hfacts
  have hdescriptor : field.facts.descriptor = field.descriptor := rfl
  have hpresence : field.facts.presence = .defaulted default := hdefault
  rw [← hproperty] at hdescriptor hpresence
  rw [← hdescriptor]
  exact fits_of_presenceOf hpresence

end Build

namespace Compilation

variable {document : Document} (run : Compilation document)

theorem fitsDefault_of_mem_types {type : TypeDecl} (htype : type ∈ run.types) {field : Field}
    (hfield : field ∈ type.fields) : field.FitsDefault := by
  rw [TypeDecl.fields] at hfield
  cases hbody : type.body with
  | record fields =>
      obtain ⟨definition, hdefinition, hmem⟩ := run.mem_types_iff.mp htype
      obtain ⟨notices, hdeclares⟩ := run.declares hdefinition
      obtain ⟨-, rfl⟩ := hdeclares.of_record hmem hbody
      rw [hbody] at hfield
      exact Build.fitsDefault_of_mem_fields hfield
  | variant name value fields =>
      obtain ⟨base, -, -, owner, -, branch, -, -, -, origin, typeName, extra, rfl, hextra⟩ :=
        run.exists_branchFields_of_variant htype hbody
      rw [hbody] at hfield
      rcases List.mem_append.mp hfield with hown | hflattened
      · exact Build.fitsDefault_of_mem_fields hown
      · intro default hdefault
        cases (hextra field hflattened).symm.trans hdefault
  | _ =>
      rw [hbody] at hfield
      exact absurd hfield List.not_mem_nil

theorem fitsDefault {type : TypeDecl} (htype : type ∈ run.model.types) {field : Field}
    (hfield : field ∈ type.fields) : field.FitsDefault := by
  obtain ⟨declared, hdeclared, rfl⟩ := run.mem_model_types_iff.mp htype
  obtain ⟨own, hown, hfacts⟩ := run.exists_declared_field rfl rfl hfield
  have hfits := run.fitsDefault_of_mem_types hdeclared hown
  have hdescriptor : own.descriptor = field.descriptor := congrArg FieldFacts.descriptor hfacts
  have hpresence : own.presence = field.presence := congrArg FieldFacts.presence hfacts
  rw [Field.FitsDefault, hdescriptor, hpresence] at hfits
  exact hfits

end Compilation

/-- The integers of a model can be read in the widths that they are written for. -/
structure Model.ReadsBack (model : Model) : Prop where
  /-- The integers inside the default of a field. -/
  defaults : ∀ type ∈ model.types, ∀ field ∈ type.fields, ∀ default,
    field.presence = .defaulted default → ∀ width value,
      Render.Prints field.descriptor default (.scalar (.integer width)) value →
        ∃ number, value = .number (.int number) ∧ ReadAlike width (.int number) (some number)
  members : ∀ type ∈ model.types, ∀ width members catchAll,
    type.body = .enumeration (.integer width) members catchAll → ∀ member ∈ members,
      ∃ number, member.value = toString number ∧ ReadAlike width (.int number) (some number)

theorem ReadAlike.of_holds {width : IntWidth} {number : Int} (h : width.holds number = true) :
    ReadAlike width (.int number) (some number) := by
  have hheld : width.held? (.int number) = some number := by
    rw [IntWidth.held?_int, if_pos h]
  exact hheld ▸ readAlike width (.int number)

/-- A literal of an integer type is an integer that the width holds. -/
theorem exists_readAlike_of_literalFits {width : IntWidth} {value : Json}
    (h : literalFits (.scalar (.integer width)) value = true) :
    ∃ number, value = .number (.int number) ∧ ReadAlike width (.int number) (some number) := by
  cases value with
  | number number =>
      rw [literalFits] at h
      cases number with
      | int number => exact ⟨number, rfl, .of_holds h⟩
      | float value => cases h
  | _ => cases h

/-- The greatest integer of 64 bits as a default, and the least one of 16 bits as a member. -/
def gaugeDocument : Document where
  definitions :=
    [("Gauge", .object [("properties", .object
        [("limit", .object [("type", .string "integer"), ("format", .string "uint64"),
          ("default", .number (.int 18446744073709551615))])])]),
      ("Step", .object [("type", .string "integer"), ("format", .string "int16"),
        ("enum", .array [.number (.int (-32768)), .number (.int 5)])])]
  revision := none
  distinct := by decide

/-- The default of a field of integers. -/
def Field.integerDefault? (field : Field) : Option (IntWidth × Int) :=
  match field.descriptor, field.presence with
  | .scalar (.integer width), .defaulted (.number (.int number)) => some (width, number)
  | _, _ => none

theorem Field.of_integerDefault? {field : Field} {width : IntWidth} {number : Int}
    (h : field.integerDefault? = some (width, number)) :
    field.descriptor = .scalar (.integer width) ∧
      field.presence = .defaulted (.number (.int number)) := by
  unfold integerDefault? at h
  split at h
  · rename_i hdescriptor hpresence
    cases h
    exact ⟨hdescriptor, hpresence⟩
  · cases h

end SchemaCompiler
