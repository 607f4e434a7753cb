/-!
# Ordered entries

A table from text keys to values that remembers the order in which its keys arrived.  Writing to
a key that is already present replaces the value and keeps the place.  That no key stands twice
is `Entries.Distinct`, a property of the tables built by `insert` and not part of the type.
-/

namespace SchemaCompiler

abbrev Entries (α : Type) := List (String × α)

namespace Entries

variable {α : Type}

def keys (entries : Entries α) : List String :=
  entries.map Prod.fst

def get? (entries : Entries α) (key : String) : Option α :=
  List.lookup key entries

def contains (entries : Entries α) (key : String) : Bool :=
  (entries.get? key).isSome

def insert : Entries α → String → α → Entries α
  | [], key, value => [(key, value)]
  | (k, v) :: rest, key, value =>
    if k = key then (key, value) :: rest else (k, v) :: insert rest key value

def erase (entries : Entries α) (key : String) : Entries α :=
  entries.filter fun (k, _) => k ≠ key

/-- Writes the pairs one after the other: a repeated key keeps its first place and takes its last
value. -/
def ofPairs (pairs : List (String × α)) : Entries α :=
  pairs.foldl (fun entries (key, value) => entries.insert key value) []

def Distinct (entries : Entries α) : Prop :=
  entries.keys.Nodup

instance (entries : Entries α) : Decidable entries.Distinct :=
  inferInstanceAs (Decidable entries.keys.Nodup)

@[simp] theorem get?_nil (key : String) : get? ([] : Entries α) key = none := rfl

theorem get?_cons (k : String) (v : α) (rest : Entries α) (key : String) :
    get? ((k, v) :: rest) key = if k = key then some v else get? rest key := by
  by_cases h : k = key
  · simp [get?, h]
  · have h' : (key == k) = false := by simpa using fun e => h e.symm
    simp [get?, List.lookup_cons, h, h']

@[simp] theorem insert_nil (key : String) (value : α) :
    insert ([] : Entries α) key value = [(key, value)] := rfl

theorem insert_cons (k : String) (v : α) (rest : Entries α) (key : String) (value : α) :
    insert ((k, v) :: rest) key value =
      if k = key then (key, value) :: rest else (k, v) :: insert rest key value := rfl

theorem mem_of_get?_eq_some {entries : Entries α} {key : String} {value : α}
    (h : entries.get? key = some value) : (key, value) ∈ entries := by
  induction entries with
  | nil => cases h
  | cons head rest ih =>
    obtain ⟨k, v⟩ := head
    rw [get?_cons] at h
    by_cases hk : k = key
    · rw [if_pos hk] at h
      cases h
      rw [hk]
      exact List.mem_cons_self
    · rw [if_neg hk] at h
      exact List.mem_cons_of_mem _ (ih h)

theorem get?_eq_none_iff {entries : Entries α} {key : String} :
    entries.get? key = none ↔ key ∉ entries.keys := by
  induction entries with
  | nil => simp [keys]
  | cons head rest ih =>
    obtain ⟨k, v⟩ := head
    rw [get?_cons, keys, List.map_cons, List.mem_cons, not_or]
    by_cases hk : k = key
    · simp [hk]
    · rw [if_neg hk, ih]
      exact (and_iff_right (Ne.symm hk)).symm

theorem get?_insert (entries : Entries α) (key : String) (value : α) (other : String) :
    (entries.insert key value).get? other =
      if key = other then some value else entries.get? other := by
  induction entries with
  | nil => simp [get?_cons]
  | cons head rest ih =>
    obtain ⟨k, v⟩ := head
    by_cases hk : k = key
    · by_cases ho : key = other <;> simp [insert_cons, get?_cons, hk, ho]
    · by_cases ho : k = other
      · have hne : key ≠ other := fun e => hk (ho.trans e.symm)
        subst ho
        simp [insert_cons, get?_cons, hk, hne]
      · simp [insert_cons, get?_cons, hk, ho, ih]

theorem get?_append_of_notMem {front back : Entries α} {key : String}
    (h : key ∉ front.keys) : get? (front ++ back) key = back.get? key := by
  induction front with
  | nil => rfl
  | cons head rest ih =>
    obtain ⟨k, v⟩ := head
    rw [keys, List.map_cons, List.mem_cons, not_or] at h
    rw [List.cons_append, get?_cons, if_neg (Ne.symm h.1)]
    exact ih h.2

/-- Leaving out other keys does not change what is found under a key. -/
theorem get?_filter {entries : Entries α} {keep : String × α → Bool} {key : String}
    (h : ∀ value, keep (key, value) = true) :
    get? (entries.filter keep) key = entries.get? key := by
  induction entries with
  | nil => rfl
  | cons head rest ih =>
    obtain ⟨k, v⟩ := head
    rw [List.filter_cons, get?_cons]
    by_cases hk : k = key
    · subst hk
      rw [h v, if_pos rfl, if_pos rfl, get?_cons, if_pos rfl]
    · rw [if_neg hk, ← ih]
      split
      · rw [get?_cons, if_neg hk]
      · rfl

theorem erase_eq_self {entries : Entries α} {key : String} (h : key ∉ entries.keys) :
    entries.erase key = entries := by
  refine List.filter_eq_self.2 fun entry hentry => ?_
  exact decide_eq_true fun heq => h (heq ▸ List.mem_map_of_mem hentry)

theorem mem_keys_erase {entries : Entries α} {key other : String} :
    other ∈ (entries.erase key).keys ↔ other ∈ entries.keys ∧ other ≠ key := by
  unfold erase keys
  simp only [List.mem_map, List.mem_filter, decide_eq_true_eq]
  constructor
  · rintro ⟨entry, ⟨hentry, hne⟩, rfl⟩
    exact ⟨⟨entry, hentry, rfl⟩, hne⟩
  · rintro ⟨⟨entry, hentry, rfl⟩, hne⟩
    exact ⟨entry, ⟨hentry, hne⟩, rfl⟩

theorem mem_keys_insert (entries : Entries α) (key : String) (value : α) (other : String) :
    other ∈ (entries.insert key value).keys ↔ other = key ∨ other ∈ entries.keys := by
  induction entries with
  | nil => simp [keys]
  | cons head rest ih =>
    obtain ⟨k, v⟩ := head
    by_cases hk : k = key
    · simp [insert_cons, keys, hk]
    · simp only [keys, List.map_cons, List.mem_cons, insert_cons, if_neg hk] at ih ⊢
      rw [ih]
      exact or_left_comm

theorem Distinct.insert {entries : Entries α} (h : entries.Distinct) (key : String) (value : α) :
    (entries.insert key value).Distinct := by
  induction entries with
  | nil => simp [Distinct, keys]
  | cons head rest ih =>
    obtain ⟨k, v⟩ := head
    have hrest : Distinct rest := (List.nodup_cons.1 h).2
    have hk' : k ∉ keys rest := (List.nodup_cons.1 h).1
    by_cases hk : k = key
    · subst hk
      simpa [insert_cons, Distinct, keys] using h
    · have hmem : k ∉ keys (Entries.insert rest key value) := by
        simp [mem_keys_insert, hk, hk']
      simpa [insert_cons, hk, Distinct, keys] using
        List.nodup_cons.2 ⟨hmem, ih hrest⟩

theorem distinct_ofPairs (pairs : List (String × α)) : (ofPairs pairs).Distinct := by
  suffices ∀ entries : Entries α, entries.Distinct →
      (pairs.foldl (fun entries (key, value) => entries.insert key value) entries).Distinct from
    this [] (by simp [Distinct, keys])
  induction pairs with
  | nil => exact fun _ h => h
  | cons pair rest ih => exact fun _ h => ih _ (h.insert pair.1 pair.2)

/-- In a table without repeated keys, looking up is membership. -/
theorem Distinct.get?_eq_some_iff {entries : Entries α} (h : entries.Distinct) {key : String}
    {value : α} : entries.get? key = some value ↔ (key, value) ∈ entries := by
  induction entries with
  | nil => simp
  | cons head rest ih =>
    obtain ⟨k, v⟩ := head
    have hrest : Distinct rest := (List.nodup_cons.1 h).2
    have hk : k ∉ keys rest := (List.nodup_cons.1 h).1
    rw [get?_cons, List.mem_cons]
    by_cases hkey : k = key
    · subst hkey
      have hmem : (k, value) ∉ rest := fun hmem => hk (List.mem_map_of_mem hmem)
      rw [if_pos rfl]
      simp only [Option.some.injEq, Prod.mk.injEq, true_and, hmem, or_false]
      exact eq_comm
    · rw [if_neg hkey, ih hrest]
      simp [Ne.symm hkey]

end Entries

end SchemaCompiler
