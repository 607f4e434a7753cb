import Mathlib.Data.List.Perm.Basic
import SchemaCompiler.Proofs.Document
import SchemaCompiler.Proofs.Fallible
import SchemaCompiler.Proofs.Reference
import SchemaCompiler.Proofs.Sorting

/-!
# Reordered documents

A document is reordered by moving its definitions around and, inside an explicit base, the items of
its `oneOf`.  A reordered base agrees with the original in everything but the order of these items
(`Node.Reordered.get?_eq`), and the tally of references is the same up to its order.  The sorted
definitions of a reordered document are those of the original, one by one
(`Document.Reordered.sorted`).
-/

namespace SchemaCompiler

/-! ## Reordering -/

/-- A member of a node, with the items of a `oneOf` in any order. -/
inductive MemberReordered : String × Json → String × Json → Prop where
  | same (member : String × Json) : MemberReordered member member
  | branches {items items' : List Json} (h : items.Perm items') :
      MemberReordered ("oneOf", .array items) ("oneOf", .array items')

/-- An explicit base with its branches in any order. -/
structure Node.Reordered (node node' : Node) : Prop where
  discriminator : (node.object? "discriminator").isSome = true
  branches : (node.array? "oneOf").isSome = true
  members : List.Forall₂ MemberReordered node node'

inductive EntryReordered : String × Json → String × Json → Prop where
  | same (entry : String × Json) : EntryReordered entry entry
  | base {name : String} {node node' : Node} (h : node.Reordered node') :
      EntryReordered (name, .object node) (name, .object node')

/-- The definitions of a document in any order, and the branches of its explicit bases too. -/
structure Document.Reordered (document other : Document) : Prop where
  revision_eq : document.revision = other.revision
  entries : ∃ entries, document.definitions.Perm entries ∧
    List.Forall₂ EntryReordered entries other.definitions

inductive Definition.Reordered : Definition → Definition → Prop where
  | same (definition : Definition) : Reordered definition definition
  | base {name : String} {node node' : Node} (h : node.Reordered node') :
      Reordered ⟨name, node⟩ ⟨name, node'⟩

/-! ## Nodes -/

theorem MemberReordered.symm {a b : String × Json} (h : MemberReordered a b) :
    MemberReordered b a := by
  cases h with
  | same => exact .same a
  | branches h => exact .branches h.symm

section Members

variable {node node' : Node} (h : List.Forall₂ MemberReordered node node')

include h

/-- Every member stays, and only the items of a `oneOf` move. -/
theorem get?_of_members (key : String) :
    Entries.get? node key = Entries.get? node' key ∨
      key = "oneOf" ∧ ∃ items items', Entries.get? node key = some (.array items) ∧
        Entries.get? node' key = some (.array items') ∧ items.Perm items' := by
  induction h with
  | nil => exact Or.inl rfl
  | @cons first first' rest rest' hfirst _ ih =>
      cases hfirst with
      | same =>
          obtain ⟨k, v⟩ := first
          rw [Entries.get?_cons, Entries.get?_cons]
          split
          · exact Or.inl rfl
          · exact ih
      | @branches items items' hperm =>
          rw [Entries.get?_cons, Entries.get?_cons]
          split
          · rename_i hkey
            exact Or.inr ⟨hkey.symm, items, items', rfl, rfl, hperm⟩
          · exact ih

theorem tally_of_members : (Tally.ofMembers node).Perm (Tally.ofMembers node') := by
  rw [Tally.ofMembers_eq_flatMap, Tally.ofMembers_eq_flatMap]
  induction h with
  | nil => exact List.Perm.refl _
  | @cons first first' rest rest' hfirst _ ih =>
      rw [List.flatMap_cons, List.flatMap_cons]
      refine List.Perm.append ?_ ih
      cases hfirst with
      | same => exact List.Perm.refl _
      | branches hperm =>
          rw [Tally.ofMember_of_ne (by decide), Tally.ofMember_of_ne (by decide), Tally.ofJson,
            Tally.ofJson, Tally.ofItems_eq_flatMap, Tally.ofItems_eq_flatMap]
          exact hperm.flatMap_right _

end Members

namespace Node.Reordered

variable {node node' : Node} (h : node.Reordered node')

include h

theorem get?_eq {key : String} (hkey : key ≠ "oneOf") :
    Entries.get? node key = Entries.get? node' key :=
  (get?_of_members h.members key).resolve_right fun hbranches => hkey hbranches.1

theorem contains_eq (key : String) : Entries.contains node key = Entries.contains node' key := by
  rw [Entries.contains, Entries.contains]
  rcases get?_of_members h.members key with heq | ⟨-, items, items', hitems, hitems', -⟩
  · rw [heq]
  · rw [hitems, hitems']
    rfl

theorem contains_discriminator : Entries.contains node "discriminator" = true := by
  obtain ⟨discriminator, hdiscriminator⟩ := Option.isSome_iff_exists.mp h.discriminator
  exact contains_of_object? hdiscriminator

theorem branches_perm : ∃ items items', node.array? "oneOf" = some items ∧
    node'.array? "oneOf" = some items' ∧ items.Perm items' := by
  rcases get?_of_members h.members "oneOf" with heq | ⟨-, items, items', hitems, hitems', hperm⟩
  · obtain ⟨items, hitems⟩ := Option.isSome_iff_exists.mp h.branches
    refine ⟨items, items, hitems, ?_, List.Perm.refl _⟩
    rw [array?, ← heq]
    exact hitems
  · exact ⟨items, items', by rw [array?, hitems]; rfl, by rw [array?, hitems']; rfl, hperm⟩

theorem object?_eq {key : String} (hkey : key ≠ "oneOf") :
    node.object? key = node'.object? key := by
  rw [object?, object?, h.get?_eq hkey]

theorem symm : node'.Reordered node where
  discriminator := by
    rw [← h.object?_eq (by decide)]
    exact h.discriminator
  branches := by
    obtain ⟨items, items', -, hitems', -⟩ := h.branches_perm
    rw [hitems']
    rfl
  members := (h.members.imp fun _ _ hmember => hmember.symm).flip

end Node.Reordered

namespace Definition.Reordered

variable {definition definition' : Definition} (h : definition.Reordered definition')

include h

theorem symm : definition'.Reordered definition := by
  cases h with
  | same => exact .same definition
  | base hnode => exact .base hnode.symm

theorem name_eq : definition.name = definition'.name := by
  cases h <;> rfl

theorem get?_eq {key : String} (hkey : key ≠ "oneOf") :
    Entries.get? definition.node key = Entries.get? definition'.node key := by
  cases h with
  | same => rfl
  | base hnode => exact hnode.get?_eq hkey

theorem contains_eq (key : String) :
    Entries.contains definition.node key = Entries.contains definition'.node key := by
  cases h with
  | same => rfl
  | base hnode => exact hnode.contains_eq key

theorem tally_perm :
    (Tally.ofMembers definition.node).Perm (Tally.ofMembers definition'.node) := by
  cases h with
  | same => exact List.Perm.refl _
  | base hnode => exact tally_of_members hnode.members

end Definition.Reordered

/-! ## Documents -/

theorem EntryReordered.symm {a b : String × Json} (h : EntryReordered a b) :
    EntryReordered b a := by
  cases h with
  | same => exact .same a
  | base hnode => exact .base hnode.symm

theorem EntryReordered.key_eq {a b : String × Json} (h : EntryReordered a b) : a.1 = b.1 := by
  cases h <;> rfl

theorem EntryReordered.tally_perm {a b : String × Json} (h : EntryReordered a b) :
    (Tally.ofJson a.2).Perm (Tally.ofJson b.2) := by
  cases h with
  | same => exact List.Perm.refl _
  | base hnode =>
      rw [Tally.ofJson, Tally.ofJson]
      exact tally_of_members hnode.members

theorem EntryReordered.definition? {a b : String × Json} (h : EntryReordered a b) :
    Option.Rel Definition.Reordered (Document.definition? a) (Document.definition? b) := by
  cases h with
  | same =>
      cases Document.definition? a with
      | none => exact .none
      | some definition => exact .some (.same definition)
  | base hnode => exact .some (.base hnode)

namespace Document

namespace Reordered

variable {document other : Document} (h : document.Reordered other)

include h

theorem symm : other.Reordered document where
  revision_eq := h.revision_eq.symm
  entries := by
    obtain ⟨entries, hperm, hentries⟩ := h.entries
    obtain ⟨moved, hmoved, hback⟩ := List.perm_comp_forall₂ hperm hentries
    exact ⟨moved, hback.symm, (hmoved.imp fun _ _ hentry => hentry.symm).flip⟩

theorem tally_perm : (Tally.ofDocument document).Perm (Tally.ofDocument other) := by
  obtain ⟨entries, hperm, hentries⟩ := h.entries
  refine (hperm.flatMap_right _).trans ?_
  rw [Tally.ofDocument]
  generalize other.definitions = others at hentries
  clear hperm
  induction hentries with
  | nil => exact List.Perm.refl _
  | cons hentry _ ih =>
      rw [List.flatMap_cons, List.flatMap_cons]
      exact hentry.tally_perm.append ih

theorem contains_eq (name : String) :
    document.definitions.contains name = other.definitions.contains name := by
  obtain ⟨entries, hperm, hentries⟩ := h.entries
  have hkeys : entries.map Prod.fst = other.definitions.map Prod.fst := by
    rw [← List.forall₂_eq_eq_eq, List.forall₂_map_left_iff, List.forall₂_map_right_iff]
    exact hentries.imp fun _ _ hentry => hentry.key_eq
  have hmem : name ∈ document.definitions.keys ↔ name ∈ other.definitions.keys := by
    rw [Entries.keys, Entries.keys, ← hkeys]
    exact (hperm.map Prod.fst).mem_iff
  rw [Bool.eq_iff_iff, Entries.contains, Entries.contains, Option.isSome_iff_ne_none,
    Option.isSome_iff_ne_none, ne_eq, ne_eq, Entries.get?_eq_none_iff, Entries.get?_eq_none_iff,
    not_not, not_not, hmem]

theorem sorted : List.Forall₂ Definition.Reordered document.sorted other.sorted := by
  obtain ⟨entries, hperm, hentries⟩ := h.entries
  have hnames : ((document.definitions.filterMap definition?).map (·.name)).Nodup := by
    have hnodup := document.sorted_names_nodup
    rw [sorted_eq] at hnodup
    exact ((sortBy_perm _ _).map _).nodup hnodup
  rw [sorted_eq, sorted_eq, sortBy_key_eq_of_perm (hperm.filterMap definition?) hnames]
  refine forall₂_sortBy_key (fun _ _ hdefinition => hdefinition.name_eq) ?_
  exact List.rel_filterMap (fun _ _ hentry => hentry.definition?) hentries

theorem exists_of_get? {name : String} {definition : Definition}
    (hdefinition : document.get? name = some definition) :
    ∃ definition', other.get? name = some definition' ∧ definition.Reordered definition' := by
  obtain ⟨definition', hmem, hreordered⟩ :=
    Fallible.exists_of_mem_forall₂ h.sorted (mem_sorted_of_get? hdefinition)
  have hname : definition'.name = name := by
    rw [← hreordered.name_eq, name_of_get? hdefinition]
  refine ⟨definition', ?_, hreordered⟩
  rw [← hname]
  exact get?_of_mem_sorted hmem

/-- A definition is looked up as itself or as a reordered base. -/
theorem get?_rel (name : String) :
    Option.Rel Definition.Reordered (document.get? name) (other.get? name) := by
  cases hfound : document.get? name with
  | some definition =>
      obtain ⟨definition', hfound', hdefinition⟩ := h.exists_of_get? hfound
      rw [hfound']
      exact .some hdefinition
  | none =>
      cases hfound' : other.get? name with
      | none => exact .none
      | some definition' =>
          obtain ⟨definition, hback, -⟩ := h.symm.exists_of_get? hfound'
          rw [hfound] at hback
          cases hback

end Reordered

end Document

end SchemaCompiler
