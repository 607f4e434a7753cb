import SchemaCompiler.Naming.Claims
import SchemaCompiler.Proofs.Fallible

/-!
# Owners of claimed names

Once claimed, a name keeps its owner.  So a run of claims that succeeds gives every claimed name
one owner, and it is the one that every claim on the name stated.
-/

namespace SchemaCompiler.Naming.Claims

open Fallible

def Owns (claims : Claims) (name owner : String) : Prop :=
  claims.owners.get? name = some owner

variable {claims next : Claims} {name owner : String}

theorem claim_eq_ok_iff :
    claims.claim name owner = .ok next ↔
      claims.Owns name owner ∧ next = claims ∨
        claims.owners.get? name = none ∧ next = ⟨claims.owners.insert name owner⟩ := by
  rw [claim, Owns]
  cases hfirst : claims.owners.get? name with
  | none =>
      constructor
      · intro h
        cases h
        exact Or.inr ⟨rfl, rfl⟩
      · rintro (⟨h, -⟩ | ⟨-, rfl⟩)
        · cases h
        · rfl
  | some first =>
      by_cases heq : first = owner
      · subst heq
        simp only [if_pos, true_and, reduceCtorEq, false_and, or_false]
        exact ⟨fun h => (Except.ok.inj h).symm, fun h => congrArg Except.ok h.symm⟩
      · simp [heq]

theorem owns_of_claim (h : claims.claim name owner = .ok next) : next.Owns name owner := by
  rw [claim_eq_ok_iff] at h
  rcases h with ⟨howns, rfl⟩ | ⟨-, rfl⟩
  · exact howns
  · rw [Owns, Entries.get?_insert, if_pos rfl]

theorem Owns.claim {other first : String} (howns : claims.Owns other first)
    (h : claims.claim name owner = .ok next) : next.Owns other first := by
  rw [claim_eq_ok_iff] at h
  rcases h with ⟨-, rfl⟩ | ⟨hfree, rfl⟩
  · exact howns
  · have hne : name ≠ other := by
      rintro rfl
      rw [Owns, hfree] at howns
      cases howns
    rw [Owns, Entries.get?_insert, if_neg hne]
    exact howns

/-- A run of claims, one for each item of a list. -/
theorem owns_of_foldlM {α : Type} {name owner : α → String} {items : List α}
    (h : items.foldlM (fun claims item => claims.claim (name item) (owner item)) claims =
      .ok next) :
    (∀ other first, claims.Owns other first → next.Owns other first) ∧
      ∀ item ∈ items, next.Owns (name item) (owner item) := by
  induction items generalizing claims with
  | nil =>
      obtain rfl : claims = next := Except.ok.inj h
      exact ⟨fun _ _ howns => howns, fun item hitem => absurd hitem List.not_mem_nil⟩
  | cons item rest ih =>
      rw [List.foldlM_cons] at h
      obtain ⟨middle, hclaim, hrest⟩ := bind_eq_ok_iff.mp h
      -- the first claim holds after its own step and is kept by all others
      obtain ⟨hkept, howned⟩ := ih hrest
      refine ⟨fun other first howns => hkept other first (howns.claim hclaim), ?_⟩
      intro other hother
      rcases List.mem_cons.mp hother with rfl | hother
      · exact hkept _ _ (owns_of_claim hclaim)
      · exact howned other hother

end SchemaCompiler.Naming.Claims
