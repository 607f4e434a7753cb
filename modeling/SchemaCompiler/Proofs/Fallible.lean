import Mathlib.Data.List.Forall2

/-!
# Runs of steps that can fail

A run over a list succeeds if every step does, and its result is then known item by item.
-/

namespace SchemaCompiler.Fallible

variable {ε α β : Type}

theorem bind_eq_ok_iff {x : Except ε α} {f : α → Except ε β} {b : β} :
    (x >>= f) = .ok b ↔ ∃ a, x = .ok a ∧ f a = .ok b := by
  cases x with
  | error e =>
      constructor
      · intro h
        cases h
      · rintro ⟨a, ha, -⟩
        cases ha
  | ok a =>
      constructor
      · intro h
        exact ⟨a, rfl, h⟩
      · rintro ⟨a', ha, h⟩
        cases ha
        exact h

theorem map_eq_ok_iff {x : Except ε α} {f : α → β} {b : β} :
    x.map f = .ok b ↔ ∃ a, x = .ok a ∧ f a = b := by
  cases x with
  | error e =>
      constructor
      · intro h
        cases h
      · rintro ⟨a, ha, -⟩
        cases ha
  | ok a =>
      constructor
      · intro h
        exact ⟨a, rfl, Except.ok.inj h⟩
      · rintro ⟨a', ha, rfl⟩
        cases ha
        rfl

/-- What a test on the result shows, the result included. -/
theorem exists_of_toOption_map_eq_some {x : Except ε α} {f : α → β} {b : β}
    (h : x.toOption.map f = some b) : ∃ a, x = .ok a ∧ f a = b := by
  cases x with
  | error e => cases h
  | ok a => exact ⟨a, rfl, Option.some.inj h⟩

theorem bind_of_eq_ok {x : Except ε α} {f : α → Except ε β} {a : α} (h : x = .ok a) :
    (x >>= f) = f a := by
  rw [h]
  rfl

theorem bind_eq_error {x : Except ε α} {f : α → Except ε β} {e : ε} (h : x = .error e) :
    (x >>= f) = .error e := by
  rw [h]
  rfl

theorem mapM_eq_ok_iff {f : α → Except ε β} {xs : List α} {ys : List β} :
    xs.mapM f = .ok ys ↔ List.Forall₂ (fun x y => f x = .ok y) xs ys := by
  induction xs generalizing ys with
  | nil =>
      rw [List.mapM_nil, List.forall₂_nil_left_iff]
      constructor
      · intro h
        cases h
        rfl
      · rintro rfl
        rfl
  | cons x xs ih =>
      rw [List.mapM_cons, bind_eq_ok_iff, List.forall₂_cons_left_iff]
      constructor
      · rintro ⟨y, hy, h⟩
        obtain ⟨rest, hrest, h⟩ := bind_eq_ok_iff.mp h
        cases h
        exact ⟨y, rest, hy, ih.mp hrest, rfl⟩
      · rintro ⟨y, rest, hy, hrest, rfl⟩
        exact ⟨y, hy, bind_eq_ok_iff.mpr ⟨rest, ih.mpr hrest, rfl⟩⟩

theorem exists_mapM_eq_ok {f : α → Except ε β} {xs : List α} (h : ∀ x ∈ xs, ∃ y, f x = .ok y) :
    ∃ ys, xs.mapM f = .ok ys := by
  induction xs with
  | nil => exact ⟨[], rfl⟩
  | cons x xs ih =>
      obtain ⟨y, hy⟩ := h x List.mem_cons_self
      obtain ⟨ys, hys⟩ := ih fun x' hx' => h x' (List.mem_cons_of_mem x hx')
      refine ⟨y :: ys, ?_⟩
      rw [List.mapM_cons, hy, hys]
      rfl

/-- A run fails with the error of its first step that fails. -/
theorem mapM_eq_error {f : α → Except ε β} {front back : List α} {x : α} {e : ε}
    (hfront : ∀ y ∈ front, ∃ z, f y = .ok z) (hx : f x = .error e) :
    (front ++ x :: back).mapM f = .error e := by
  obtain ⟨zs, hzs⟩ := exists_mapM_eq_ok hfront
  rw [List.mapM_append, hzs, List.mapM_cons, hx]
  rfl

/-- The error of a run is the error of one of its steps. -/
theorem exists_of_mapM_eq_error {f : α → Except ε β} {xs : List α} {e : ε}
    (h : xs.mapM f = .error e) : ∃ x ∈ xs, f x = .error e := by
  induction xs with
  | nil => cases h
  | cons x xs ih =>
      rw [List.mapM_cons] at h
      cases hx : f x with
      | error fault =>
          rw [hx] at h
          obtain rfl : fault = e := Except.error.inj h
          exact ⟨x, List.mem_cons_self, hx⟩
      | ok y =>
          rw [bind_of_eq_ok hx] at h
          cases hxs : xs.mapM f with
          | error fault =>
              rw [hxs] at h
              obtain rfl : fault = e := Except.error.inj h
              obtain ⟨x', hx', herror⟩ := ih hxs
              exact ⟨x', List.mem_cons_of_mem x hx', herror⟩
          | ok ys =>
              rw [hxs] at h
              cases h

/-- If related items give related results, so do runs over related lists. -/
theorem mapM_related {α' β' : Type} {f : α → Except ε β} {g : α' → Except ε β'}
    {r : α → α' → Prop} {s : β → β' → Prop}
    (hstep : ∀ x x', r x x' → ∀ y, f x = .ok y → ∃ y', g x' = .ok y' ∧ s y y') {xs : List α}
    {xs' : List α'} (h : List.Forall₂ r xs xs') {ys : List β} (hys : xs.mapM f = .ok ys) :
    ∃ ys', xs'.mapM g = .ok ys' ∧ List.Forall₂ s ys ys' := by
  induction h generalizing ys with
  | nil =>
      obtain rfl : [] = ys := Except.ok.inj hys
      exact ⟨[], rfl, .nil⟩
  | @cons x x' xs xs' hx _ ih =>
      rw [List.mapM_cons] at hys
      obtain ⟨y, hy, hys⟩ := bind_eq_ok_iff.mp hys
      obtain ⟨rest, hrest, hys⟩ := bind_eq_ok_iff.mp hys
      cases hys
      obtain ⟨y', hy', hyy'⟩ := hstep x x' hx y hy
      obtain ⟨rest', hrest', hall⟩ := ih hrest
      refine ⟨y' :: rest', ?_, .cons hyy' hall⟩
      rw [List.mapM_cons, hy', hrest']
      rfl

theorem map_bind_eq {γ : Type} (x : Except ε α) (f : α → Except ε β) (g : β → γ) :
    (x.bind f).map g = x.bind fun a => (f a).map g := by
  cases x <;> rfl

theorem bind_map_eq {γ : Type} (x : Except ε α) (g : α → β) (f : β → Except ε γ) :
    (x.map g).bind f = x.bind fun a => f (g a) := by
  cases x <;> rfl

/-- Where two outcomes have one image, they fail alike or both succeed. -/
theorem of_map_eq_map {γ : Type} {x : Except ε α} {y : Except ε β} {f : α → γ} {g : β → γ}
    (h : x.map f = y.map g) :
    (∃ e, x = .error e ∧ y = .error e) ∨ ∃ a b, x = .ok a ∧ y = .ok b ∧ f a = g b := by
  cases x with
  | error e =>
      cases y with
      | error e' =>
          obtain rfl : e = e' := Except.error.inj h
          exact Or.inl ⟨e, rfl, rfl⟩
      | ok b => cases h
  | ok a =>
      cases y with
      | error e => cases h
      | ok b => exact Or.inr ⟨a, b, rfl, rfl, Except.ok.inj h⟩

/-- If the images of items give the images of their results, so do runs over lists. -/
theorem mapM_map_eq {α' β' : Type} {f : α → Except ε β} {f' : α' → Except ε β'} {g : α → α'}
    {k : β → β'} (h : ∀ x, f' (g x) = (f x).map k) (xs : List α) :
    (xs.map g).mapM f' = (xs.mapM f).map (·.map k) := by
  induction xs with
  | nil => rfl
  | cons x xs ih =>
      rw [List.map_cons, List.mapM_cons, List.mapM_cons, h, ih]
      cases f x with
      | error e => rfl
      | ok y =>
          cases xs.mapM f with
          | error e => rfl
          | ok ys => rfl

theorem exists_of_mem_forall₂ {r : α → β → Prop} {xs : List α} {ys : List β}
    (h : List.Forall₂ r xs ys) {x : α} (hx : x ∈ xs) : ∃ y ∈ ys, r x y := by
  obtain ⟨hlength, hsteps⟩ := List.forall₂_iff_get.mp h
  obtain ⟨i, hi, rfl⟩ := List.getElem_of_mem hx
  have hi' : i < ys.length := hlength ▸ hi
  exact ⟨ys[i], List.getElem_mem hi', hsteps i hi hi'⟩

/-- Every result of a run comes from one of its items. -/
theorem exists_of_mem_of_mapM {f : α → Except ε β} {xs : List α} {ys : List β}
    (h : xs.mapM f = .ok ys) {y : β} (hy : y ∈ ys) : ∃ x ∈ xs, f x = .ok y := by
  rw [mapM_eq_ok_iff] at h
  exact exists_of_mem_forall₂ h.flip hy

theorem exists_result_of_mem_of_mapM {f : α → Except ε β} {xs : List α} {ys : List β}
    (h : xs.mapM f = .ok ys) {x : α} (hx : x ∈ xs) : ∃ y ∈ ys, f x = .ok y := by
  rw [mapM_eq_ok_iff] at h
  exact exists_of_mem_forall₂ h hx

/-- Where a run may drop items, what it keeps still comes from one of them. -/
theorem exists_of_mem_filterMap_of_mapM {f : α → Except ε (Option β)} {xs : List α}
    {ys : List (Option β)} (h : xs.mapM f = .ok ys) {y : β} (hy : y ∈ ys.filterMap id) :
    ∃ x ∈ xs, f x = .ok (some y) := by
  obtain ⟨result, hresult, hkept⟩ := List.mem_filterMap.mp hy
  obtain rfl : result = some y := hkept
  exact exists_of_mem_of_mapM h hresult

theorem exists_of_mem_of_mapM_some {f : α → Option β} {xs : List α} {ys : List β}
    (h : xs.mapM f = some ys) {y : β} (hy : y ∈ ys) : ∃ x ∈ xs, f x = some y := by
  induction xs generalizing ys with
  | nil =>
      cases h
      exact absurd hy List.not_mem_nil
  | cons x xs ih =>
      rw [List.mapM_cons] at h
      obtain ⟨first, hfirst, h⟩ := Option.bind_eq_some_iff.mp h
      obtain ⟨rest, hrest, h⟩ := Option.bind_eq_some_iff.mp h
      cases h
      rcases List.mem_cons.mp hy with rfl | hy
      · exact ⟨x, List.mem_cons_self, hfirst⟩
      · obtain ⟨x', hx', hfound⟩ := ih hrest hy
        exact ⟨x', List.mem_cons_of_mem _ hx', hfound⟩

/-- If one step can be undone and done again, so can a run. -/
theorem exists_undone_of_mapM {f : α → Except ε β} {g : β → Option α}
    (hstep : ∀ x y, f x = .ok y → ∃ x', g y = some x' ∧ f x' = .ok y) {xs : List α}
    {ys : List β} (h : xs.mapM f = .ok ys) : ∃ xs', ys.mapM g = some xs' ∧ xs'.mapM f = .ok ys := by
  induction xs generalizing ys with
  | nil =>
      cases h
      exact ⟨[], rfl, rfl⟩
  | cons x xs ih =>
      rw [List.mapM_cons] at h
      obtain ⟨y, hy, h⟩ := bind_eq_ok_iff.mp h
      obtain ⟨rest, hrest, h⟩ := bind_eq_ok_iff.mp h
      cases h
      obtain ⟨x', hx', hy'⟩ := hstep x y hy
      obtain ⟨xs', hxs', hrest'⟩ := ih hrest
      refine ⟨x' :: xs', ?_, ?_⟩
      · rw [List.mapM_cons, hx', hxs']
        rfl
      · rw [List.mapM_cons, hy', hrest']
        rfl

end SchemaCompiler.Fallible
