import Mathlib.Data.List.Nodup
import Mathlib.Data.List.Perm.Subperm
import SchemaCompiler.Naming.Fresh

/-!
# Numbered names are free

There is one more candidate than there are names in use.  If no two candidates have the same key,
they cannot all be in use, so the one that is chosen is free (`key_freshBy_notMem`).
-/

namespace SchemaCompiler.Naming

theorem toString_inj {m n : Nat} (h : toString m = toString n) : m = n := by
  have hdigits : Nat.toDigits 10 m = Nat.toDigits 10 n := by
    simpa only [Nat.toString_eq_repr, Nat.toList_repr] using congrArg String.toList h
  have hnumbers := congrArg (fun digits => Nat.ofDigitChars 10 digits 0) hdigits
  simpa using hnumbers

theorem isDigit_of_mem_toString {n : Nat} {c : Char} (h : c ∈ (toString n).toList) :
    c.isDigit = true := by
  rw [Nat.toString_eq_repr, Nat.toList_repr] at h
  exact Nat.isDigit_of_mem_toDigits (by decide) (by decide) h

theorem append_toString_ne (text : String) (n : Nat) : text ++ toString n ≠ text := by
  intro h
  have hlist := congrArg String.toList h
  simp at hlist

theorem append_toString_inj {text : String} {m n : Nat}
    (h : text ++ toString m = text ++ toString n) : m = n := by
  have hlist := congrArg String.toList h
  rw [String.toList_append, String.toList_append] at hlist
  exact toString_inj (String.toList_inj.mp (List.append_cancel_left hlist))

/-! ## Candidates -/

variable {key : String → String} {used : List String} {base : String}

theorem mem_candidates {count : Nat} {name : String} :
    name ∈ candidates base count ↔ name = base ∨ ∃ n < count, name = base ++ toString (n + 2) := by
  simp only [candidates, List.mem_cons, List.mem_map, List.mem_range, eq_comm (a := name)]

theorem length_candidates (base : String) (count : Nat) :
    (candidates base count).length = count + 1 := by
  simp [candidates]

theorem freshBy_mem_candidates (key : String → String) (used : List String) (base : String) :
    freshBy key used base ∈ candidates base used.length := by
  unfold freshBy
  cases h : (candidates base used.length).find? fun name => !used.contains (key name) with
  | none => exact List.mem_cons_self
  | some name => exact List.mem_of_find?_eq_some h

theorem freshBy_of_notMem (h : key base ∉ used) : freshBy key used base = base := by
  simp [freshBy, candidates, h]

/-- Where no two candidates have the same key, the one that is chosen is free. -/
theorem key_freshBy_notMem (key : String → String)
    (hnodup : ((candidates base used.length).map key).Nodup) :
    key (freshBy key used base) ∉ used := by
  unfold freshBy
  cases h : (candidates base used.length).find? fun name => !used.contains (key name) with
  | some name =>
      have hfree := List.find?_some h
      simpa using hfree
  | none =>
      -- then every key is in use, and there are too many of them
      exfalso
      have hused : (candidates base used.length).map key ⊆ used := by
        intro taken htaken
        obtain ⟨name, hname, rfl⟩ := List.mem_map.mp htaken
        have hnone := List.find?_eq_none.mp h name hname
        simpa using hnone
      have hlength := (List.subperm_of_subset hnodup hused).length_le
      rw [List.length_map, length_candidates] at hlength
      omega

/-- Keys that keep the number are distinct. -/
theorem nodup_map_candidates (stem : String)
    (hnumber : ∀ n : Nat, key (base ++ toString n) = stem ++ toString n)
    (hbase : ∀ n : Nat, key base ≠ stem ++ toString n) (count : Nat) :
    ((candidates base count).map key).Nodup := by
  rw [candidates, List.map_cons, List.nodup_cons, List.map_map]
  constructor
  · intro hmem
    obtain ⟨n, -, hn⟩ := List.mem_map.mp hmem
    exact hbase (n + 2) (hn.symm.trans (hnumber (n + 2)))
  · refine List.Nodup.map_on ?_ List.nodup_range
    intro m _ n _ h
    have hkeys : key (base ++ toString (m + 2)) = key (base ++ toString (n + 2)) := h
    rw [hnumber, hnumber] at hkeys
    have hsame := append_toString_inj hkeys
    omega

theorem fresh_notMem (used : List String) (base : String) : fresh used base ∉ used :=
  key_freshBy_notMem id
    (nodup_map_candidates base (fun _ => rfl)
      (fun n h => append_toString_ne base n h.symm) used.length)

/-- A name that is taken gets the first number that makes it free. -/
theorem exists_fresh_eq_append (h : base ∈ used) :
    ∃ n, fresh used base = base ++ toString (n + 2) ∧
      ∀ m < n, base ++ toString (m + 2) ∈ used := by
  have hfind : fresh used base =
      (((List.range used.length).find?
        ((fun name => !used.contains (id name)) ∘ fun n => base ++ toString (n + 2))).map
          fun n => base ++ toString (n + 2)).getD base := by
    rw [fresh, freshBy, candidates, List.find?_cons_of_neg (by simpa using h), List.find?_map]
  cases hnumber : (List.range used.length).find?
      ((fun name => !used.contains (id name)) ∘ fun n => base ++ toString (n + 2)) with
  | none =>
      -- the name itself would be free
      have hbase : fresh used base = base := by rw [hfind, hnumber]; rfl
      exact absurd h (hbase ▸ fresh_notMem used base)
  | some n =>
      rw [hnumber] at hfind
      refine ⟨n, hfind, fun m hm => ?_⟩
      simpa using (List.find?_range_eq_some.mp hnumber).2.2 m hm

end SchemaCompiler.Naming
