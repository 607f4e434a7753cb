import SchemaCompiler.Model.Build
import SchemaCompiler.Proofs.Reference

/-!
# References of descriptors

Whatever a descriptor refers to, at any depth, the node it was read from refers to as well, and the
tally counts it there (`mem_ofJson_of_mem_references`): the reading of a node takes references only
from places that the tally visits.
-/

namespace SchemaCompiler

/-- The definitions a descriptor refers to, through arrays and options. -/
def Descriptor.references : Descriptor → List String
  | reference name => [name]
  | array items => items.references
  | nullable inner => inner.references
  | scalar _ | dynamic => []

@[simp] theorem Descriptor.references_optional (descriptor : Descriptor) :
    descriptor.optional.references = descriptor.references := by
  cases descriptor <;> rfl

theorem Build.references_known_subset (document : Document) (descriptor : Descriptor) :
    (known document descriptor).references ⊆ descriptor.references := by
  induction descriptor with
  | scalar => exact List.Subset.refl _
  | reference name =>
      rw [known]
      split
      · exact List.Subset.refl _
      · exact List.nil_subset _
  | array items ih => exact ih
  | nullable inner ih =>
      rw [known, Descriptor.references_optional]
      exact ih
  | dynamic => exact List.Subset.refl _

namespace Resolve

variable {name : String}

@[simp] theorem references_wrap (nullable : Bool) (descriptor : Descriptor) :
    (wrap nullable descriptor).references = descriptor.references := by
  cases nullable with
  | false => rfl
  | true => exact descriptor.references_optional

theorem mem_ofMembers_of_nullableReference? {node : Node} {items : List Json}
    (hitems : node.array? "anyOf" = some items) (h : nullableReference? items = some name) :
    name ∈ Tally.ofMembers node := by
  unfold nullableReference? at h
  split at h
  · cases h
  · dsimp only at h
    split at h
    · obtain ⟨item, hitem, href⟩ := List.mem_filterMap.mp (List.mem_of_getLast? h)
      exact Tally.mem_ofMembers_of_item hitems (by decide) hitem
        (Tally.mem_ofMembers_of_directRef? href)
    · cases h

/-- Without a reference of its own, a node that is no array refers to at most one definition, in
its `anyOf`. -/
theorem mem_ofMembers_of_mem_plain {node : Node} {type : TypeKeyword}
    (h : name ∈ (plain node type).references) : name ∈ Tally.ofMembers node := by
  unfold plain at h
  split at h
  · rw [references_wrap] at h
    exact absurd h List.not_mem_nil
  · split at h
    · split at h
      · rw [references_wrap] at h
        exact absurd h List.not_mem_nil
      · exact absurd h List.not_mem_nil
    · split at h
      · rename_i found hfound
        obtain ⟨items, hitems, hreference⟩ := Option.bind_eq_some_iff.mp hfound
        obtain rfl : name = found := List.mem_singleton.mp h
        exact mem_ofMembers_of_nullableReference? hitems hreference
      · exact absurd h List.not_mem_nil

mutual

/-- **The tally counts every reference of a descriptor.** -/
theorem mem_ofJson_of_mem_references (value : Json) (h : name ∈ (ofJson value).references) :
    name ∈ Tally.ofJson value := by
  cases value with
  | object node =>
      rw [ofJson] at h
      rw [Tally.ofJson]
      split at h
      · rename_i found hfound
        obtain rfl : name = found := List.mem_singleton.mp h
        exact Tally.mem_ofMembers_of_ref? hfound
      · dsimp only at h
        split at h
        · rw [references_wrap] at h
          exact mem_ofMembers_of_mem_references node h
        · exact mem_ofMembers_of_mem_plain h
  | _ => exact absurd h List.not_mem_nil

/-- The `items` of a node are counted with it. -/
theorem mem_ofMembers_of_mem_references (members : List (String × Json))
    (h : name ∈ (ofItems members).references) : name ∈ Tally.ofMembers members := by
  cases members with
  | nil => exact absurd h List.not_mem_nil
  | cons member rest =>
      obtain ⟨key, value⟩ := member
      rw [ofItems] at h
      rw [Tally.ofMembers, List.mem_append]
      split at h
      · rename_i hkey
        have hcounted : key ≠ "$ref" := by
          rw [hkey]
          decide
        rw [if_neg hcounted]
        exact Or.inl (mem_ofJson_of_mem_references value h)
      · exact Or.inr (mem_ofMembers_of_mem_references rest h)

end

end Resolve

end SchemaCompiler
