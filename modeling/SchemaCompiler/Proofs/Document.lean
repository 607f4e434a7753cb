import Mathlib.Data.List.Basic
import Mathlib.Data.List.Nodup
import SchemaCompiler.Document
import SchemaCompiler.Proofs.Sorting

/-!
# Definitions of a document

Looking a definition up and going through all of them in order find the same definitions, each of
them once.
-/

namespace SchemaCompiler

/-! ## Finding by name -/

section Find

variable {α : Type} {nameOf : α → String} {items : List α} {item : α} {name : String}

theorem of_find?_name_eq_some (h : items.find? (nameOf · = name) = some item) :
    item ∈ items ∧ nameOf item = name :=
  ⟨List.mem_of_find?_eq_some h, by simpa using List.find?_some h⟩

/-- What alone has a name is found by it. -/
theorem find?_name_eq_some (hitem : item ∈ items) (hname : nameOf item = name)
    (hunique : ∀ other ∈ items, nameOf other = name → other = item) :
    items.find? (nameOf · = name) = some item := by
  cases hfound : items.find? (nameOf · = name) with
  | none =>
      have hnone := List.find?_eq_none.mp hfound item hitem
      exact absurd (decide_eq_true hname) hnone
  | some found =>
      obtain ⟨hmem, hfoundName⟩ := of_find?_name_eq_some hfound
      rw [hunique found hmem hfoundName]

end Find

/-! ## Members of a node -/

theorem Node.contains_of_array? {node : Node} {key : String} {items : List Json}
    (h : node.array? key = some items) : Entries.contains node key = true := by
  obtain ⟨value, hvalue, -⟩ := Option.bind_eq_some_iff.mp h
  rw [Entries.contains, hvalue, Option.isSome_some]

theorem Node.contains_of_object? {node : Node} {key : String} {members : Node}
    (h : node.object? key = some members) : Entries.contains node key = true := by
  obtain ⟨value, hvalue, -⟩ := Option.bind_eq_some_iff.mp h
  rw [Entries.contains, hvalue, Option.isSome_some]

theorem Json.string?_eq_some_iff {value : Json} {text : String} :
    value.string? = some text ↔ value = .string text := by
  cases value <;> simp [Json.string?]

theorem Json.mem_filterMap_string?_iff {values : List Json} {text : String} :
    text ∈ values.filterMap Json.string? ↔ .string text ∈ values := by
  simp [List.mem_filterMap, string?_eq_some_iff]

theorem Node.mem_objectItems_iff {items : List Json} {node : Node} :
    node ∈ objectItems items ↔ .object node ∈ items := by
  have hobject {value : Json} : value.object? = some node ↔ value = .object node := by
    cases value <;> simp [Json.object?]
  simp [objectItems, List.mem_filterMap, hobject]

/-! ## Definitions -/

/-- The definition that an entry is, if it is an object. -/
def Document.definition? : String × Json → Option Definition
  | (name, .object node) => some ⟨name, node⟩
  | _ => none

namespace Document

variable {document : Document}

theorem sorted_eq (document : Document) :
    document.sorted =
      sortBy (fun a b => a.name ≤ b.name) (document.definitions.filterMap definition?) := by
  rw [sorted]
  refine congrArg _ (congrArg (List.filterMap · _) (funext fun entry => ?_))
  obtain ⟨name, value⟩ := entry
  cases value <;> rfl

theorem get?_eq_some_iff {name : String} {definition : Definition} :
    document.get? name = some definition ↔
      definition.name = name ∧ (name, .object definition.node) ∈ document.definitions := by
  rw [← document.distinct.get?_eq_some_iff, get?]
  obtain ⟨definitionName, node⟩ := definition
  split
  · rename_i node' hget
    rw [hget]
    simp only [Option.some.injEq, Definition.mk.injEq, Json.object.injEq]
    exact and_congr_left fun _ => eq_comm
  · rename_i hother
    constructor
    · intro h
      cases h
    · rintro ⟨-, hget⟩
      exact absurd hget (hother node)

theorem name_of_get? {name : String} {definition : Definition}
    (h : document.get? name = some definition) : definition.name = name := by
  rw [get?_eq_some_iff] at h
  exact h.1

theorem mem_sorted_iff {definition : Definition} :
    definition ∈ document.sorted ↔
      (definition.name, Json.object definition.node) ∈ document.definitions := by
  rw [sorted, (sortBy_perm _ _).mem_iff, List.mem_filterMap]
  constructor
  · rintro ⟨⟨name, value⟩, hmem, h⟩
    cases value with
    | object node =>
        obtain rfl : Definition.mk name node = definition := Option.some.inj h
        exact hmem
    | _ => cases h
  · intro hmem
    exact ⟨_, hmem, rfl⟩

theorem mem_sorted_of_get? {name : String} {definition : Definition}
    (h : document.get? name = some definition) : definition ∈ document.sorted := by
  rw [get?_eq_some_iff] at h
  obtain ⟨rfl, hmem⟩ := h
  rw [mem_sorted_iff]
  exact hmem

theorem get?_of_mem_sorted {definition : Definition} (h : definition ∈ document.sorted) :
    document.get? definition.name = some definition := by
  rw [mem_sorted_iff] at h
  rw [get?_eq_some_iff]
  exact ⟨rfl, h⟩

theorem sorted_names_nodup (document : Document) :
    (document.sorted.map (·.name)).Nodup := by
  rw [sorted]
  refine ((sortBy_perm _ _).map Definition.name).symm.nodup
    (List.Nodup.sublist ?_ document.distinct)
  rw [List.map_filterMap]
  -- dropping what is no object leaves a sublist of the keys
  generalize document.definitions = definitions
  induction definitions with
  | nil => exact List.Sublist.slnil
  | cons head rest ih =>
      obtain ⟨name, value⟩ := head
      cases value with
      | object node => exact List.Sublist.cons_cons name ih
      | _ => exact List.Sublist.cons name ih

theorem sorted_pairwise (document : Document) :
    document.sorted.Pairwise (·.name < ·.name) := by
  have hnodup := ((sortBy_perm _ _).map Definition.name).nodup document.sorted_names_nodup
  exact sortBy_key_pairwise_lt hnodup

theorem eq_of_name_eq {a b : Definition} (ha : a ∈ document.sorted) (hb : b ∈ document.sorted)
    (h : a.name = b.name) : a = b :=
  List.inj_on_of_nodup_map document.sorted_names_nodup ha hb h

end Document

end SchemaCompiler
