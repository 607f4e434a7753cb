import SchemaCompiler.Json.Basic

/-!
# What is inside a value

The numbers and the strings that a JSON value is made of, and the induction over its items and
members.
-/

namespace SchemaCompiler.Json

/-- What holds of the leaves, and of an array or an object once it holds of everything in it, holds
of every value. -/
@[elab_as_elim]
theorem inside_induction {motive : Json → Prop} (null : motive .null)
    (bool : ∀ value, motive (.bool value)) (number : ∀ value, motive (.number value))
    (string : ∀ value, motive (.string value))
    (array : ∀ items : List Json, (∀ item ∈ items, motive item) → motive (.array items))
    (object : ∀ members : List (String × Json), (∀ member ∈ members, motive member.2) →
      motive (.object members)) (value : Json) : motive value :=
  @Json.rec motive (fun items => ∀ item ∈ items, motive item)
    (fun members => ∀ member ∈ members, motive member.2) (fun member => motive member.2)
    null bool number string array object
    (fun _ h => absurd h List.not_mem_nil)
    (fun _ _ hhead hrest => List.forall_mem_cons.mpr ⟨hhead, hrest⟩)
    (fun _ h => absurd h List.not_mem_nil)
    (fun _ _ hhead hrest => List.forall_mem_cons.mpr ⟨hhead, hrest⟩)
    (fun _ _ h => h) value

mutual

/-- The numbers inside a value. -/
def numbers : Json → List Number
  | .number value => [value]
  | .array items => numbersOfAll items
  | .object members => numbersOfMembers members
  | _ => []

def numbersOfAll : List Json → List Number
  | [] => []
  | item :: rest => numbers item ++ numbersOfAll rest

def numbersOfMembers : List (String × Json) → List Number
  | [] => []
  | (_, value) :: rest => numbers value ++ numbersOfMembers rest

end

mutual

/-- The strings inside a value, keys included. -/
def texts : Json → List String
  | .string value => [value]
  | .array items => textsOfAll items
  | .object members => textsOfMembers members
  | _ => []

def textsOfAll : List Json → List String
  | [] => []
  | item :: rest => texts item ++ textsOfAll rest

def textsOfMembers : List (String × Json) → List String
  | [] => []
  | (key, value) :: rest => key :: texts value ++ textsOfMembers rest

end

theorem numbers_array (items : List Json) : (array items).numbers = items.flatMap numbers := by
  show numbersOfAll items = _
  induction items with
  | nil => rfl
  | cons item rest ih =>
      show numbers item ++ numbersOfAll rest = _
      rw [ih, List.flatMap_cons]

theorem numbers_object (members : List (String × Json)) :
    (object members).numbers = members.flatMap fun member => member.2.numbers := by
  show numbersOfMembers members = _
  induction members with
  | nil => rfl
  | cons member rest ih =>
      show numbers member.2 ++ numbersOfMembers rest = _
      rw [ih, List.flatMap_cons]

theorem texts_array (items : List Json) : (array items).texts = items.flatMap texts := by
  show textsOfAll items = _
  induction items with
  | nil => rfl
  | cons item rest ih =>
      show texts item ++ textsOfAll rest = _
      rw [ih, List.flatMap_cons]

theorem texts_object (members : List (String × Json)) :
    (object members).texts = members.flatMap fun member => member.1 :: member.2.texts := by
  show textsOfMembers members = _
  induction members with
  | nil => rfl
  | cons member rest ih =>
      show member.1 :: texts member.2 ++ textsOfMembers rest = _
      rw [ih, List.flatMap_cons]

theorem mem_numbers_of_item {items : List Json} {item : Json} (h : item ∈ items) {number : Number}
    (hnumber : number ∈ item.numbers) : number ∈ (array items).numbers := by
  rw [numbers_array]
  exact List.mem_flatMap_of_mem h hnumber

theorem mem_numbers_of_member {members : List (String × Json)} {member : String × Json}
    (h : member ∈ members) {number : Number} (hnumber : number ∈ member.2.numbers) :
    number ∈ (object members).numbers := by
  rw [numbers_object]
  exact List.mem_flatMap.mpr ⟨member, h, hnumber⟩

end SchemaCompiler.Json
