import SchemaCompiler.Entries

/-!
# Entries of a table

What writing one pair, or many pairs one after the other, leaves in a table.
-/

namespace SchemaCompiler.Entries

variable {α : Type} {entries : Entries α} {key : String} {value : α} {entry : String × α}

theorem mem_insert (h : entry ∈ entries.insert key value) :
    entry = (key, value) ∨ entry ∈ entries := by
  induction entries with
  | nil => exact Or.inl (List.mem_singleton.mp h)
  | cons head rest ih =>
      obtain ⟨k, v⟩ := head
      rw [insert_cons] at h
      split at h
      · rcases List.mem_cons.mp h with rfl | hrest
        · exact Or.inl rfl
        · exact Or.inr (List.mem_cons_of_mem _ hrest)
      · rcases List.mem_cons.mp h with rfl | hrest
        · exact Or.inr List.mem_cons_self
        · rcases ih hrest with rfl | hrest
          · exact Or.inl rfl
          · exact Or.inr (List.mem_cons_of_mem _ hrest)

/-- Whatever is in the table was in it before or was written. -/
theorem mem_foldl_insert {pairs : List (String × α)}
    (h : entry ∈ pairs.foldl (fun entries (key, value) => entries.insert key value) entries) :
    entry ∈ entries ∨ entry ∈ pairs := by
  induction pairs generalizing entries with
  | nil => exact Or.inl h
  | cons pair rest ih =>
      rw [List.foldl_cons] at h
      rcases ih h with hset | hrest
      · rcases mem_insert hset with rfl | hset
        · exact Or.inr List.mem_cons_self
        · exact Or.inl hset
      · exact Or.inr (List.mem_cons_of_mem _ hrest)

theorem mem_ofPairs {pairs : List (String × α)} (h : entry ∈ ofPairs pairs) : entry ∈ pairs :=
  (mem_foldl_insert h).resolve_left List.not_mem_nil

/-! ## Mapped values -/

theorem get?_map {β : Type} (f : String → α → β) (entries : Entries α) (key : String) :
    get? (entries.map fun (key, value) => (key, f key value)) key =
      (entries.get? key).map (f key) := by
  induction entries with
  | nil => rfl
  | cons head rest ih =>
      obtain ⟨k, v⟩ := head
      rw [List.map_cons, get?_cons, get?_cons, ih]
      split
      · rename_i hkey
        rw [hkey]
        rfl
      · rfl

theorem insert_map {β : Type} (f : α → β) (entries : Entries α) (key : String) (value : α) :
    insert (entries.map fun (key, value) => (key, f value)) key (f value) =
      (entries.insert key value).map fun (key, value) => (key, f value) := by
  induction entries with
  | nil => rfl
  | cons head rest ih =>
      obtain ⟨k, v⟩ := head
      rw [List.map_cons, insert_cons, insert_cons, ih]
      split <;> rfl

/-! ## Keys -/

theorem mem_keys_foldl_insert {pairs : List (String × α)} {other : String} :
    other ∈ keys (pairs.foldl (fun entries (key, value) => entries.insert key value) entries) ↔
      other ∈ keys entries ∨ other ∈ keys pairs := by
  induction pairs generalizing entries with
  | nil => simp [keys]
  | cons pair rest ih =>
      have hcons : other ∈ keys (pair :: rest) ↔ other = pair.1 ∨ other ∈ keys rest :=
        List.mem_cons
      rw [List.foldl_cons, ih, mem_keys_insert, hcons, or_assoc, or_left_comm]

theorem Distinct.foldl_insert (h : entries.Distinct) (pairs : List (String × α)) :
    Distinct (pairs.foldl (fun entries (key, value) => entries.insert key value) entries) := by
  induction pairs generalizing entries with
  | nil => exact h
  | cons pair rest ih => exact ih (h.insert pair.1 pair.2)

/-- In a table without repeated keys, what is written under a key is all that is left under it. -/
theorem Distinct.mem_insert (h : entries.Distinct) (hmem : entry ∈ entries.insert key value) :
    entry = (key, value) ∨ (entry ∈ entries ∧ entry.1 ≠ key) := by
  obtain ⟨other, found⟩ := entry
  have hfound := (h.insert key value).get?_eq_some_iff.mpr hmem
  rw [get?_insert] at hfound
  split at hfound
  · rename_i hkey
    exact Or.inl (by rw [hkey, Option.some.inj hfound])
  · rename_i hkey
    exact Or.inr ⟨h.get?_eq_some_iff.mp hfound, Ne.symm hkey⟩

theorem Distinct.mem_foldl_insert {pairs : List (String × α)} (h : entries.Distinct)
    (hmem : entry ∈ pairs.foldl (fun entries (key, value) => entries.insert key value) entries) :
    entry ∈ pairs ∨ (entry ∈ entries ∧ entry.1 ∉ keys pairs) := by
  induction pairs generalizing entries with
  | nil => exact Or.inr ⟨hmem, List.not_mem_nil⟩
  | cons pair rest ih =>
      rcases ih (h.insert pair.1 pair.2) hmem with hrest | ⟨hbefore, hnot⟩
      · exact Or.inl (List.mem_cons_of_mem _ hrest)
      · rcases h.mem_insert hbefore with rfl | ⟨hold, hne⟩
        · exact Or.inl List.mem_cons_self
        · exact Or.inr ⟨hold, fun hkeys => (List.mem_cons.mp hkeys).elim hne hnot⟩

theorem insert_of_notMem (h : key ∉ entries.keys) :
    entries.insert key value = entries ++ [(key, value)] := by
  induction entries with
  | nil => rfl
  | cons head rest ih =>
      obtain ⟨k, v⟩ := head
      have hne : k ≠ key := fun heq => h (heq ▸ List.mem_cons_self)
      rw [insert_cons, if_neg hne, ih fun hmem => h (List.mem_cons_of_mem _ hmem), List.cons_append]

/-- Pairs without repeated keys are a table as they stand. -/
theorem Distinct.ofPairs_eq {pairs : List (String × α)} (h : Distinct pairs) :
    ofPairs pairs = pairs := by
  suffices ∀ entries : Entries α, Distinct (entries ++ pairs) →
      pairs.foldl (fun entries (key, value) => entries.insert key value) entries =
        entries ++ pairs from this [] h
  intro entries hdistinct
  clear h
  induction pairs generalizing entries with
  | nil => rw [List.foldl_nil, List.append_nil]
  | cons pair rest ih =>
      obtain ⟨key, value⟩ := pair
      have hnew : key ∉ entries.keys := by
        rw [Distinct, keys, List.map_append, List.nodup_append] at hdistinct
        exact fun hmem => hdistinct.2.2 key hmem key List.mem_cons_self rfl
      rw [List.foldl_cons]
      dsimp only
      rw [insert_of_notMem hnew, ih _ (by simpa using hdistinct), List.append_assoc,
        List.singleton_append]

theorem Distinct.erase (h : entries.Distinct) (key : String) : (entries.erase key).Distinct :=
  List.Nodup.sublist (List.Sublist.map Prod.fst List.filter_sublist) h

end SchemaCompiler.Entries
