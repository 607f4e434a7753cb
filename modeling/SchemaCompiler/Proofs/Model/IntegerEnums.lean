import Mathlib
import SchemaCompiler.Proofs.Model.CaseNames
import SchemaCompiler.Proofs.Wire.IntegerEnum

/-!
# Integer enumerations

The members of an integer enumeration are written into the source as integer literals, from which
the codec takes its numbers (`integerCodec?`).  Values are compared as texts when they are listed,
but every value is the text of an integer that was found to fit the width, so distinct texts are
distinct numbers within it and the codec reads and writes them all (`Model.integer_enumerations`).
-/

namespace SchemaCompiler

open Fallible

/-- The name of a member with the number that its literal stands for. -/
def numbered? (member : EnumMember) : Option (String × Int) :=
  member.value.toInt?.map (member.name, ·)

/-- The codec that the source of an integer enumeration declares; none if the value of a member is
no integer literal. -/
def integerCodec? (name : String) (width : IntWidth) (members : List EnumMember)
    (catchAll : Option CatchAll) : Option Wire.IntegerEnum :=
  (members.mapM numbered?).map fun listed => ⟨name, width, listed, catchAll.map (·.name)⟩

/-! ## Values that fit a width -/

namespace Build

theorem of_memberValue_integer {definition : String} {width : IntWidth} {value : Json}
    {text : String} (h : memberValue definition (.integer width) value = .ok text) :
    ∃ number, width.holds number = true ∧ text = toString number := by
  cases value with
  | number value =>
      rw [memberValue] at h
      split at h
      · rename_i haccepts
        cases value with
        | int number => exact ⟨number, haccepts, (Except.ok.inj h).symm⟩
        | float number => cases haccepts
      · cases h
  | _ => cases h

theorem memberValue_of_additionOfItem {definition : String} {form : EnumForm} {item : Node}
    {addition : Addition} {value : String}
    (h : additionOfItem definition form item = .ok (some addition))
    (hvalue : addition.value? = some value) :
    (∃ constant, memberValue definition form constant = .ok value) ∨ form = .string := by
  rw [additionOfItem] at h
  split at h
  · cases h
  · split at h
    · obtain ⟨text, htext, haddition⟩ := map_eq_ok_iff.mp h
      obtain rfl := Option.some.inj haddition
      obtain rfl : text = value := Option.some.inj hvalue
      exact Or.inl ⟨_, htext⟩
    · split at h
      · obtain rfl := Option.some.inj (Except.ok.inj h)
        cases hvalue
      · exact Or.inr rfl

/-- What an integer enumeration lists are texts of integers within its width. -/
theorem Enumerates.exists_number {definition : Definition} {width : IntWidth}
    {additions : List Addition} (h : Enumerates definition (.integer width) additions)
    {value : String} (hvalue : value ∈ additions.filterMap Addition.value?) :
    ∃ number, width.holds number = true ∧ value = toString number := by
  obtain ⟨addition, haddition, hadds⟩ := List.mem_filterMap.mp hvalue
  rcases h.exists_source haddition with ⟨constant, hconstant⟩ | ⟨item, hitem⟩
  · obtain ⟨text, htext, rfl⟩ := map_eq_ok_iff.mp hconstant
    obtain rfl : text = value := Option.some.inj hadds
    exact of_memberValue_integer htext
  · rcases memberValue_of_additionOfItem hitem hadds with ⟨constant, hconstant⟩ | hstring
    · exact of_memberValue_integer hconstant
    · exact EnumForm.noConfusion hstring

end Build

theorem numbered?_eq (name : String) (number : Int) (description : Option String) :
    numbered? ⟨name, toString number, description⟩ = some (name, number) := by
  have hread : (toString number).toInt? = some number := Int.toInt?_repr number
  rw [numbered?, hread]
  rfl

/-- Literals of integers are read as the integers they were written for. -/
theorem exists_numbered {width : IntWidth} {members : List EnumMember}
    (h : ∀ member ∈ members, ∃ number, width.holds number = true ∧
      member.value = toString number) :
    ∃ listed, members.mapM numbered? = some listed ∧
      listed.map (·.1) = members.map (·.name) ∧
      (listed.map (·.2)).map toString = members.map (·.value) ∧
      ∀ entry ∈ listed, width.holds entry.2 = true := by
  induction members with
  | nil => exact ⟨[], rfl, rfl, rfl, fun _ hentry => absurd hentry List.not_mem_nil⟩
  | cons member rest ih =>
      obtain ⟨⟨number, hholds, hvalue⟩, hrest⟩ := List.forall_mem_cons.mp h
      obtain ⟨listed, hlisted, hnames, htexts, hall⟩ := ih hrest
      have hnumbered : numbered? member = some (member.name, number) := by
        rw [← numbered?_eq member.name number member.description, ← hvalue]
      refine ⟨(member.name, number) :: listed, ?_, ?_, ?_, List.forall_mem_cons.mpr ⟨hholds, hall⟩⟩
      · rw [List.mapM_cons, hnumbered, hlisted]
        rfl
      · rw [List.map_cons, List.map_cons, hnames]
      · rw [List.map_cons, List.map_cons, List.map_cons, htexts, hvalue]

namespace Compilation

variable {document : Document} (run : Compilation document)

/-- The values of an emitted integer enumeration are distinct texts of integers that fit. -/
theorem values_of_integers {type : TypeDecl} (htype : type ∈ run.model.types) {width : IntWidth}
    {members : List EnumMember} {catchAll : Option CatchAll}
    (hbody : type.body = .enumeration (.integer width) members catchAll) :
    members ≠ [] ∧ (members.map (·.value)).Nodup ∧
      ∀ member ∈ members, ∃ number, width.holds number = true ∧
        member.value = toString number := by
  obtain ⟨definition, -, additions, henumerates, hrun⟩ := run.enumerates htype hbody
  obtain ⟨-, -, -, hsome⟩ := Build.of_toBody_eq_enumeration hrun
  have hvalues := Build.values_of_toBody hrun
  refine ⟨hsome fun hform => EnumForm.noConfusion hform, hvalues ▸ nodup_eraseDups _, ?_⟩
  intro member hmember
  have hvalue : member.value ∈ members.map (·.value) := List.mem_map_of_mem hmember
  rw [hvalues, List.mem_eraseDups] at hvalue
  exact henumerates.exists_number hvalue

end Compilation

/-- Two codes with a name, and a title for all others. -/
def codeDocument : Document where
  definitions :=
    [("Code", .object [("oneOf", .array
      [.object [("type", .string "integer"), ("const", .number (.int (-32700))),
          ("title", .string "Parse error")],
        .object [("type", .string "integer"), ("const", .number (.int 7))],
        .object [("type", .string "integer"), ("title", .string "Other")]])])]
  revision := none
  distinct := by decide

end SchemaCompiler
