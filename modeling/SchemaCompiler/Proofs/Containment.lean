import Mathlib.Data.List.Count
import Mathlib.Logic.Relation
import SchemaCompiler.Containment

/-!
# Reachability in a containment

What `grow` collects is reached by edges, and no edge leaves it, because each step but the last
takes in the target of an edge that was missing before.  So `leadsTo` decides reachability
(`leadsTo_iff`), and a field needs a box exactly if it lies on a cycle (`needsBox_iff`).
-/

namespace SchemaCompiler.Containment

/-- One type holds another in place. -/
def Holds (edges : Containment) (a b : String) : Prop :=
  ∃ e ∈ edges, e.source = a ∧ e.target = b

/-- One type holds another in any number of steps. -/
def Leads (edges : Containment) : String → String → Prop :=
  Relation.ReflTransGen edges.Holds

/-- No edge leaves the given types. -/
def Closed (edges : Containment) (types : List String) : Prop :=
  ∀ e ∈ edges, e.source ∈ types → e.target ∈ types

/-- The number of edges whose target is not among the given types. -/
def missing (edges : Containment) (types : List String) : Nat :=
  edges.countP fun e => !types.contains e.target

variable {edges : Containment} {seen : List String}

theorem mem_fresh_iff {type : String} :
    type ∈ fresh edges seen ↔ ∃ e ∈ edges, e.source ∈ seen ∧ e.target ∉ seen ∧ e.target = type := by
  rw [fresh, List.mem_eraseDups, List.mem_map]
  simp only [List.mem_filter, Bool.and_eq_true, List.contains_iff_mem, Bool.not_eq_true',
    ← Bool.not_eq_true, and_assoc]

theorem closed_of_fresh_eq_nil (h : fresh edges seen = []) : edges.Closed seen := by
  intro e he hsource
  by_contra htarget
  have hmem : e.target ∈ fresh edges seen := by
    rw [mem_fresh_iff]
    exact ⟨e, he, hsource, htarget, rfl⟩
  rw [h] at hmem
  exact List.not_mem_nil hmem

/-! ## One step -/

theorem missing_append_fresh_lt (h : fresh edges seen ≠ []) :
    edges.missing (seen ++ fresh edges seen) < edges.missing seen := by
  obtain ⟨type, htype⟩ := List.exists_mem_of_ne_nil _ h
  have hreached := htype
  rw [mem_fresh_iff] at hreached
  obtain ⟨e, he, -, hseen, rfl⟩ := hreached
  generalize fresh edges seen = next at htype
  have hle (part : Containment) : part.missing (seen ++ next) ≤ part.missing seen := by
    refine List.countP_mono_left fun other _ hother => ?_
    simp only [Bool.not_eq_true', ← Bool.not_eq_true, List.contains_iff_mem] at hother ⊢
    exact fun hmem => hother (List.mem_append_left _ hmem)
  obtain ⟨front, back, rfl⟩ := List.append_of_mem he
  have hfront := hle front
  have hback := hle back
  -- the edge itself was missing and is missing no more
  have hbefore : missing (e :: back) seen = missing back seen + 1 := by
    simp [missing, hseen]
  have hafter : missing (e :: back) (seen ++ next) = missing back (seen ++ next) := by
    simp [missing, htype]
  have hsplit (types : List String) :
      missing (front ++ e :: back) types = missing front types + missing (e :: back) types :=
    List.countP_append
  rw [hsplit, hsplit, hbefore, hafter]
  omega

theorem leads_append_fresh {type : String} (h : ∀ other ∈ seen, edges.Leads type other) :
    ∀ other ∈ seen ++ fresh edges seen, edges.Leads type other := by
  intro other hother
  rcases List.mem_append.mp hother with hseen | hfresh
  · exact h other hseen
  · rw [mem_fresh_iff] at hfresh
    obtain ⟨e, he, hsource, -, rfl⟩ := hfresh
    exact (h e.source hsource).tail ⟨e, he, rfl, rfl⟩

/-! ## All steps -/

theorem grow_succ (edges : Containment) (n : Nat) (seen : List String) :
    grow edges (n + 1) seen =
      match fresh edges seen with
      | [] => seen
      | next => grow edges n (seen ++ next) :=
  rfl

theorem subset_grow (edges : Containment) (n : Nat) (seen : List String) :
    seen ⊆ grow edges n seen := by
  induction n generalizing seen with
  | zero => exact List.Subset.refl seen
  | succ n ih =>
      rw [grow_succ]
      split
      · exact List.Subset.refl seen
      · exact List.Subset.trans (List.subset_append_left _ _) (ih _)

theorem leads_of_mem_grow {n : Nat} {type : String} (h : ∀ other ∈ seen, edges.Leads type other) :
    ∀ other ∈ grow edges n seen, edges.Leads type other := by
  induction n generalizing seen with
  | zero => exact h
  | succ n ih =>
      rw [grow_succ]
      split
      · exact h
      · exact ih (leads_append_fresh h)

theorem closed_grow {n : Nat} (h : edges.missing seen < n) : edges.Closed (grow edges n seen) := by
  induction n generalizing seen with
  | zero => exact absurd h (Nat.not_lt_zero _)
  | succ n ih =>
      rw [grow_succ]
      split
      · rename_i hnone
        exact closed_of_fresh_eq_nil hnone
      · -- the bound goes down with the missing edges
        rename_i hsome
        have hlt := missing_append_fresh_lt hsome
        exact ih (Nat.lt_of_lt_of_le hlt (Nat.le_of_lt_succ h))

theorem mem_of_leads {types : List String} (hclosed : edges.Closed types) {a b : String}
    (ha : a ∈ types) (h : edges.Leads a b) : b ∈ types := by
  induction h with
  | refl => exact ha
  | tail _ hstep ih =>
      obtain ⟨e, he, rfl, rfl⟩ := hstep
      exact hclosed e he ih

/-- **The search decides reachability.** -/
theorem leadsTo_iff {a b : String} : leadsTo edges a b = true ↔ edges.Leads a b := by
  rw [leadsTo, List.contains_iff_mem, reachable]
  constructor
  · refine leads_of_mem_grow (fun other hother => ?_) b
    rw [List.mem_singleton.mp hother]
    exact Relation.ReflTransGen.refl
  · have hmissing : edges.missing [a] < edges.length + 1 :=
      Nat.lt_succ_of_le List.countP_le_length
    exact mem_of_leads (closed_grow hmissing)
      (subset_grow edges _ _ (List.mem_singleton_self a))

theorem needsBox_iff {type field : String} :
    needsBox edges type field = true ↔
      ∃ e ∈ edges, e.source = type ∧ e.field = some field ∧ edges.Leads e.target e.source := by
  rw [needsBox, List.any_eq_true]
  simp only [Bool.and_eq_true, decide_eq_true_eq, leadsTo_iff, and_assoc]

end SchemaCompiler.Containment
