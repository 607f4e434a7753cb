import Mathlib.Data.List.Nodup
import SchemaCompiler.Sorting

/-!
# Sorting by a key

Sorting by a text key puts the keys in order, so a list without repeated keys is sorted in one way
only, whatever order it came in (`sortBy_key_eq_of_perm`).  Two lists that agree item by item up to
a relation that keeps the key are sorted alike (`forall₂_sortBy_key`).  Sorting by a rank that many
items share keeps the order within each rank (`sortBy_rank_eq_flatMap`).  A map that keeps the order
goes through a sort (`sortBy_map`).
-/

namespace SchemaCompiler

variable {α β : Type}

section Order

variable {le : α → α → Bool} (total : ∀ a b, le a b = true ∨ le b a = true)
  (trans : ∀ a b c, le a b = true → le b c = true → le a c = true)

include total trans

theorem insertSorted_pairwise {item : α} {items : List α}
    (h : items.Pairwise (le · · = true)) :
    (insertSorted le item items).Pairwise (le · · = true) := by
  induction items with
  | nil => exact List.pairwise_singleton _ item
  | cons first rest ih =>
      obtain ⟨hfirst, hrest⟩ := List.pairwise_cons.mp h
      rw [insertSorted]
      split
      · rename_i hle
        refine List.pairwise_cons.mpr ⟨fun other hother => ?_, h⟩
        rcases List.mem_cons.mp hother with rfl | hother
        · exact hle
        · exact trans item first other hle (hfirst other hother)
      · rename_i hle
        refine List.pairwise_cons.mpr ⟨fun other hother => ?_, ih hrest⟩
        rcases List.mem_cons.mp ((insertSorted_perm le item rest).mem_iff.mp hother) with
          rfl | hother
        · exact (total other first).resolve_left hle
        · exact hfirst other hother

theorem sortBy_pairwise (items : List α) : (sortBy le items).Pairwise (le · · = true) := by
  induction items with
  | nil => exact List.Pairwise.nil
  | cons item rest ih => exact insertSorted_pairwise total trans ih

end Order

section Rank

/-- An item stops in front of the first one that it may stand before. -/
theorem insertSorted_append {le : α → α → Bool} {item : α} {front back : List α}
    (hfront : ∀ other ∈ front, le item other = false)
    (hback : ∀ other ∈ back, le item other = true) :
    insertSorted le item (front ++ back) = front ++ item :: back := by
  induction front with
  | nil =>
      cases back with
      | nil => rfl
      | cons first rest => simp [insertSorted, hback]
  | cons first rest ih =>
      obtain ⟨hfirst, hrest⟩ := List.forall_mem_cons.mp hfront
      simp [insertSorted, hfirst, ih hrest]

/-- Sorting by a rank puts the items of each rank together, in the order in which they came. -/
theorem sortBy_rank_eq_flatMap {rank : α → Nat} {ranks : List Nat}
    (hranks : ranks.Pairwise (· < ·)) {items : List α}
    (hitems : ∀ item ∈ items, rank item ∈ ranks) :
    sortBy (fun a b => rank a ≤ rank b) items =
      ranks.flatMap fun r => items.filter (rank · = r) := by
  induction items with
  | nil => simp [sortBy]
  | cons item rest ih =>
      obtain ⟨hitem, hrest⟩ := List.forall_mem_cons.mp hitems
      -- the ranks below that of the item, and those above
      obtain ⟨below, above, rfl⟩ := List.append_of_mem hitem
      obtain ⟨-, habove, hbelow⟩ := List.pairwise_append.mp hranks
      replace hbelow : ∀ r ∈ below, r < rank item :=
        fun r hr => hbelow r hr _ List.mem_cons_self
      replace habove := (List.pairwise_cons.mp habove).1
      have hkeep {side : List Nat} (hside : ∀ r ∈ side, r ≠ rank item) :
          (side.flatMap fun r => (item :: rest).filter (rank · = r)) =
            side.flatMap fun r => rest.filter (rank · = r) :=
        List.flatMap_congr fun r hr => List.filter_cons_of_neg (by simpa using (hside r hr).symm)
      have hown : (item :: rest).filter (rank · = rank item) =
          item :: rest.filter (rank · = rank item) :=
        List.filter_cons_of_pos (by simp)
      rw [sortBy, ih hrest, List.flatMap_append, List.flatMap_cons, List.flatMap_append,
        List.flatMap_cons, hkeep fun r hr => Nat.ne_of_lt (hbelow r hr),
        hkeep fun r hr => Nat.ne_of_gt (habove r hr), hown, List.cons_append]
      refine insertSorted_append (fun other hother => ?_) fun other hother => ?_
      · obtain ⟨r, hr, hother⟩ := List.mem_flatMap.mp hother
        obtain rfl : rank other = r := by simpa using (List.mem_filter.mp hother).2
        simpa using hbelow _ hr
      · rcases List.mem_append.mp hother with hother | hother
        · have hrank : rank other = rank item := by simpa using (List.mem_filter.mp hother).2
          simp [hrank]
        · obtain ⟨r, hr, hother⟩ := List.mem_flatMap.mp hother
          obtain rfl : rank other = r := by simpa using (List.mem_filter.mp hother).2
          simpa using Nat.le_of_lt (habove _ hr)

end Rank

section Key

variable {key : α → String}

theorem sortBy_key_pairwise (items : List α) :
    (sortBy (fun a b => key a ≤ key b) items).Pairwise (key · ≤ key ·) := by
  have hsorted : (sortBy (fun a b => decide (key a ≤ key b)) items).Pairwise
      (fun a b => decide (key a ≤ key b) = true) :=
    sortBy_pairwise (fun a b => by simpa using String.le_total (key a) (key b))
      (fun a b c hab hbc => by
        simpa using String.le_trans (of_decide_eq_true hab) (of_decide_eq_true hbc)) items
  exact hsorted.imp fun h => of_decide_eq_true h

theorem sortBy_key_pairwise_lt {items : List α} (hnodup : (items.map key).Nodup) :
    (sortBy (fun a b => key a ≤ key b) items).Pairwise (key · < key ·) := by
  have hsorted : (sortBy (fun a b => decide (key a ≤ key b)) items).Pairwise (key · ≤ key ·) :=
    sortBy_key_pairwise items
  have hdistinct : ((sortBy (fun a b => decide (key a ≤ key b)) items).map key).Nodup :=
    ((sortBy_perm _ items).map key).symm.nodup hnodup
  refine (hsorted.and (List.pairwise_map.mp hdistinct)).imp fun h => ?_
  exact Std.lt_of_le_of_ne h.1 h.2

/-- In a list that is in order, all that stands in front of an item is related to it. -/
theorem exists_split_of_pairwise {r : α → α → Prop} {items : List α} (h : items.Pairwise r)
    {item : α} (hitem : item ∈ items) :
    ∃ front back, items = front ++ item :: back ∧ ∀ other ∈ front, r other item := by
  obtain ⟨front, back, rfl⟩ := List.append_of_mem hitem
  refine ⟨front, back, rfl, fun other hother => ?_⟩
  exact (List.pairwise_append.mp h).2.2 other hother item List.mem_cons_self

/-- Without repeated keys there is only one order. -/
theorem sortBy_key_eq_of_perm {items items' : List α} (h : items.Perm items')
    (hnodup : (items.map key).Nodup) :
    sortBy (fun a b => key a ≤ key b) items = sortBy (fun a b => key a ≤ key b) items' := by
  have hperm := (sortBy_perm (fun a b => decide (key a ≤ key b)) items).trans
    (h.trans (sortBy_perm (fun a b => decide (key a ≤ key b)) items').symm)
  refine hperm.eq_of_pairwise ?_ (sortBy_key_pairwise items) (sortBy_key_pairwise items')
  intro a b ha hb hab hba
  have ha : a ∈ items := (sortBy_perm _ items).mem_iff.mp ha
  have hb : b ∈ items := h.mem_iff.mpr ((sortBy_perm _ items').mem_iff.mp hb)
  exact List.inj_on_of_nodup_map hnodup ha hb (String.le_antisymm hab hba)

variable {key' : β → String} {r : α → β → Prop} (hkey : ∀ a b, r a b → key a = key' b)

include hkey

theorem forall₂_insertSorted_key {a : α} {b : β} (hab : r a b) {xs : List α} {ys : List β}
    (h : List.Forall₂ r xs ys) :
    List.Forall₂ r (insertSorted (fun a b => key a ≤ key b) a xs)
      (insertSorted (fun a b => key' a ≤ key' b) b ys) := by
  induction h with
  | nil => exact .cons hab .nil
  | @cons x y xs ys hxy hrest ih =>
      rw [insertSorted, insertSorted, hkey a b hab, hkey x y hxy]
      split
      · exact .cons hab (.cons hxy hrest)
      · exact .cons hxy ih

theorem forall₂_sortBy_key {xs : List α} {ys : List β} (h : List.Forall₂ r xs ys) :
    List.Forall₂ r (sortBy (fun a b => key a ≤ key b) xs)
      (sortBy (fun a b => key' a ≤ key' b) ys) := by
  induction h with
  | nil => exact .nil
  | cons hab _ ih => exact forall₂_insertSorted_key hkey hab ih

end Key

/-! ## Sorting images -/

section Map

variable {le : α → α → Bool} {le' : β → β → Bool} {f : α → β}
  (h : ∀ a b, le' (f a) (f b) = le a b)

include h

theorem insertSorted_map (item : α) (items : List α) :
    insertSorted le' (f item) (items.map f) = (insertSorted le item items).map f := by
  induction items with
  | nil => rfl
  | cons first rest ih =>
      rw [List.map_cons, insertSorted, insertSorted, h, ih]
      split <;> rfl

/-- What keeps the order can be done before or after sorting. -/
theorem sortBy_map (items : List α) : sortBy le' (items.map f) = (sortBy le items).map f := by
  induction items with
  | nil => rfl
  | cons item rest ih => rw [List.map_cons, sortBy, sortBy, ih, insertSorted_map h]

end Map

/-! ## Distinct names -/

theorem nodup_eraseDups [BEq α] [LawfulBEq α] (items : List α) : items.eraseDups.Nodup := by
  induction hlength : items.length using Nat.strongRecOn generalizing items with
  | _ n ih =>
      cases items with
      | nil => exact List.nodup_nil
      | cons first rest =>
          rw [List.eraseDups_cons, List.nodup_cons, List.mem_eraseDups]
          refine ⟨fun hmem => by simpa using (List.mem_filter.mp hmem).2, ih _ ?_ _ rfl⟩
          rw [← hlength]
          exact Nat.lt_succ_of_le (List.length_filter_le _ _)

theorem eraseDups_eq_self [DecidableEq α] {items : List α} (h : items.Nodup) :
    items.eraseDups = items := by
  induction items with
  | nil => rfl
  | cons item rest ih =>
      obtain ⟨hitem, hrest⟩ := List.nodup_cons.mp h
      have hkeep : rest.filter (fun other => !other == item) = rest :=
        List.filter_eq_self.mpr fun other hother => by
          simpa using ne_of_mem_of_not_mem hother hitem
      rw [List.eraseDups_cons, hkeep, ih hrest]

theorem eraseDups_eraseDups_append [DecidableEq α] (front back : List α) :
    (front.eraseDups ++ back).eraseDups = (front ++ back).eraseDups := by
  have hremoved : back.removeAll front.eraseDups = back.removeAll front := by
    simp only [List.removeAll, List.elem_eq_mem, List.mem_eraseDups]
  rw [List.eraseDups_append, List.eraseDups_append, hremoved,
    eraseDups_eq_self (nodup_eraseDups front)]

theorem eraseDups_append_of_mem [DecidableEq α] {items : List α} {item : α} (h : item ∈ items) :
    (items ++ [item]).eraseDups = items.eraseDups := by
  simp [List.eraseDups_append, List.removeAll, h]

/-- The distinct members of a list in order depend on nothing but the members. -/
theorem sortBy_eraseDups_eq {items items' : List String}
    (h : ∀ item, item ∈ items ↔ item ∈ items') :
    sortBy (fun a b => a ≤ b) items.eraseDups = sortBy (fun a b => a ≤ b) items'.eraseDups := by
  have hperm : items.eraseDups.Perm items'.eraseDups := by
    refine (List.perm_ext_iff_of_nodup (nodup_eraseDups items) (nodup_eraseDups items')).mpr ?_
    intro item
    rw [List.mem_eraseDups, List.mem_eraseDups, h]
  have hnodup : (items.eraseDups.map id).Nodup := by
    rw [List.map_id]
    exact nodup_eraseDups items
  exact sortBy_key_eq_of_perm hperm hnodup

end SchemaCompiler
