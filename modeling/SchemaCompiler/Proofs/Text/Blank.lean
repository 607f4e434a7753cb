import Mathlib.Data.List.Infix
import SchemaCompiler.Text.Blank

/-!
# Trimming and splitting

The pieces of a split are the longest stretches without a separator: each stands in the text
(`infix_of_mem_splitBy`), and every such stretch stands in one of them (`exists_piece_of_isInfix`).
Trimming keeps every stretch that begins and ends with a character that is not blank
(`infix_trim`).
-/

namespace SchemaCompiler.Text

variable {p : Char → Bool} {cs : List Char}

/-! ## Splitting -/

theorem splitBy_cons (p : Char → Bool) (c : Char) (cs : List Char) :
    ∃ first rest, splitBy p cs = first :: rest ∧
      splitBy p (c :: cs) = if p c then [] :: first :: rest else (c :: first) :: rest := by
  obtain ⟨first, rest, hsplit⟩ := List.exists_cons_of_ne_nil (splitBy_ne_nil p cs)
  exact ⟨first, rest, hsplit, by rw [splitBy, hsplit]⟩

/-- Text without a separator is one piece. -/
theorem splitBy_eq_singleton (h : ∀ c ∈ cs, p c = false) : splitBy p cs = [cs] := by
  induction cs with
  | nil => rfl
  | cons c cs ih =>
      obtain ⟨hc, hrest⟩ := List.forall_mem_cons.mp h
      simp [splitBy, ih hrest, hc]

/-- A separator ends a piece. -/
theorem splitBy_append_cons {c : Char} (hc : p c = true) (front back : List Char) :
    splitBy p (front ++ c :: back) = splitBy p front ++ splitBy p back := by
  induction front with
  | nil =>
      obtain ⟨first, rest, hsplit, hcons⟩ := splitBy_cons p c back
      rw [List.nil_append, hcons, if_pos hc, hsplit]
      rfl
  | cons d front ih =>
      obtain ⟨first, rest, hsplit, hcons⟩ := splitBy_cons p d front
      obtain ⟨first', rest', hsplit', hcons'⟩ := splitBy_cons p d (front ++ c :: back)
      rw [ih, hsplit, List.cons_append] at hsplit'
      obtain ⟨rfl, rfl⟩ := List.cons.inj hsplit'
      rw [List.cons_append, hcons, hcons']
      split <;> rfl

/-- Text without a separator goes to the last piece. -/
theorem exists_splitBy_append (p : Char → Bool) (cs : List Char) :
    ∃ front last, ∀ tail : List Char, (∀ c ∈ tail, p c = false) →
      splitBy p (cs ++ tail) = front ++ [last ++ tail] := by
  induction cs with
  | nil => exact ⟨[], [], fun tail htail => splitBy_eq_singleton htail⟩
  | cons c cs ih =>
      obtain ⟨front, last, happend⟩ := ih
      -- the character begins a piece, or goes to the first one
      cases hc : p c with
      | true =>
          refine ⟨[] :: front, last, fun tail htail => ?_⟩
          cases front <;> simp [splitBy, happend tail htail, hc]
      | false =>
          cases front with
          | nil =>
              exact ⟨[], c :: last, fun tail htail => by simp [splitBy, happend tail htail, hc]⟩
          | cons first front =>
              exact ⟨(c :: first) :: front, last, fun tail htail => by
                simp [splitBy, happend tail htail, hc]⟩

theorem not_of_mem_splitBy {piece : List Char} (hpiece : piece ∈ splitBy p cs) :
    ∀ c ∈ piece, p c = false := by
  induction cs generalizing piece with
  | nil =>
      obtain rfl := List.mem_singleton.mp hpiece
      simp
  | cons d cs ih =>
      obtain ⟨first, rest, hsplit, hcons⟩ := splitBy_cons p d cs
      rw [hsplit] at ih
      rw [hcons] at hpiece
      split at hpiece
      · rcases List.mem_cons.mp hpiece with rfl | hpiece
        · simp
        · exact ih hpiece
      · next hd =>
          rcases List.mem_cons.mp hpiece with rfl | hpiece
          · exact List.forall_mem_cons.mpr ⟨by simpa using hd, ih List.mem_cons_self⟩
          · exact ih (List.mem_cons_of_mem _ hpiece)

theorem prefix_of_splitBy {first : List Char} {rest : List (List Char)}
    (h : splitBy p cs = first :: rest) : first <+: cs := by
  induction cs generalizing first rest with
  | nil =>
      obtain ⟨rfl, -⟩ := List.cons.inj h
      exact List.prefix_refl []
  | cons c cs ih =>
      obtain ⟨first', rest', hsplit, hcons⟩ := splitBy_cons p c cs
      rw [hcons] at h
      split at h
      · obtain ⟨rfl, -⟩ := List.cons.inj h
        exact List.nil_prefix
      · obtain ⟨rfl, -⟩ := List.cons.inj h
        exact List.cons_prefix_cons.mpr ⟨rfl, ih hsplit⟩

theorem infix_of_mem_splitBy {piece : List Char} (hpiece : piece ∈ splitBy p cs) :
    piece <:+: cs := by
  induction cs generalizing piece with
  | nil =>
      obtain rfl := List.mem_singleton.mp hpiece
      exact List.infix_rfl
  | cons c cs ih =>
      obtain ⟨first, rest, hsplit, hcons⟩ := splitBy_cons p c cs
      rw [hsplit] at ih
      rw [hcons] at hpiece
      split at hpiece
      · rcases List.mem_cons.mp hpiece with rfl | hpiece
        · exact List.nil_infix
        · exact List.infix_cons (ih hpiece)
      · rcases List.mem_cons.mp hpiece with rfl | hpiece
        · exact (List.cons_prefix_cons.mpr ⟨rfl, prefix_of_splitBy hsplit⟩).isInfix
        · exact List.infix_cons (ih (List.mem_cons_of_mem _ hpiece))

section Segment

variable {segment : List Char}

/-- What begins a text and holds no separator stands in the first piece. -/
theorem prefix_first (h : segment <+: cs) (hsegment : ∀ c ∈ segment, p c = false)
    {first : List Char} {rest : List (List Char)} (hsplit : splitBy p cs = first :: rest) :
    segment <+: first := by
  induction cs generalizing segment first rest with
  | nil => exact List.prefix_nil.mp h ▸ List.nil_prefix
  | cons c cs ih =>
      obtain ⟨first', rest', hsplit', hcons⟩ := splitBy_cons p c cs
      rcases List.prefix_cons_iff.mp h with rfl | ⟨segment, rfl, hleads⟩
      · exact List.nil_prefix
      · obtain ⟨hc, hrest⟩ := List.forall_mem_cons.mp hsegment
        rw [hcons, if_neg (by simp [hc])] at hsplit
        obtain ⟨rfl, -⟩ := List.cons.inj hsplit
        exact List.cons_prefix_cons.mpr ⟨rfl, ih hleads hrest hsplit'⟩

theorem exists_piece_of_isInfix (h : segment <:+: cs) (hsegment : ∀ c ∈ segment, p c = false) :
    ∃ piece ∈ splitBy p cs, segment <:+: piece := by
  induction cs with
  | nil => exact ⟨[], List.mem_cons_self, h⟩
  | cons c cs ih =>
      obtain ⟨first, rest, hsplit, hcons⟩ := splitBy_cons p c cs
      rcases List.infix_cons_iff.mp h with hleads | hwithin
      · obtain ⟨first, rest, hsplit⟩ := List.exists_cons_of_ne_nil (splitBy_ne_nil p (c :: cs))
        exact ⟨first, hsplit ▸ List.mem_cons_self, (prefix_first hleads hsegment hsplit).isInfix⟩
      · obtain ⟨piece, hpiece, hin⟩ := ih hwithin
        rw [hsplit] at hpiece
        rw [hcons]
        split
        · exact ⟨piece, List.mem_cons_of_mem _ hpiece, hin⟩
        · rcases List.mem_cons.mp hpiece with rfl | hpiece
          · exact ⟨c :: piece, List.mem_cons_self, List.infix_cons hin⟩
          · exact ⟨piece, List.mem_cons_of_mem _ hpiece, hin⟩

end Segment

/-! ## Trimming -/

theorem infix_dropWhile {c : Char} {rest : List Char} (hc : p c = false) (h : c :: rest <:+: cs) :
    c :: rest <:+: cs.dropWhile p := by
  induction cs with
  | nil => exact h
  | cons d cs ih =>
      rw [List.dropWhile_cons]
      split
      · next hd =>
          rcases List.infix_cons_iff.mp h with hleads | hwithin
          · obtain ⟨rfl, -⟩ := List.cons_prefix_cons.mp hleads
            rw [hc] at hd
            cases hd
          · exact ih hwithin
      · exact h

theorem trimRight_isPrefix (cs : List Char) : trimRight cs <+: cs := by
  rw [trimRight, ← List.reverse_suffix, List.reverse_reverse]
  exact List.dropWhile_suffix isBlank

theorem trim_isInfix (cs : List Char) : trim cs <:+: cs :=
  (trimRight_isPrefix (trimLeft cs)).isInfix.trans (List.dropWhile_suffix isBlank).isInfix

/-- Trimming keeps what begins and ends with characters that are not blank. -/
theorem infix_trim {c d : Char} {middle : List Char} (hc : isBlank c = false)
    (hd : isBlank d = false) (h : c :: (middle ++ [d]) <:+: cs) :
    c :: (middle ++ [d]) <:+: trim cs := by
  have hleft : c :: (middle ++ [d]) <:+: trimLeft cs := infix_dropWhile hc h
  have hback : (c :: (middle ++ [d])).reverse = d :: (c :: middle).reverse := by simp
  rw [trim, trimRight, ← List.reverse_infix, List.reverse_reverse, hback]
  refine infix_dropWhile hd ?_
  rw [← hback]
  exact List.reverse_infix.mpr hleft

theorem isBlank_of_dropWhile_eq_cons {c : Char} {rest : List Char}
    (h : cs.dropWhile isBlank = c :: rest) : isBlank c = false := by
  have hhead := List.head?_dropWhile_not isBlank cs
  rw [h] at hhead
  simpa using hhead

theorem isBlank_of_trim_eq_cons {c : Char} {rest : List Char} (h : trim cs = c :: rest) :
    isBlank c = false := by
  obtain ⟨back, hback⟩ : c :: rest <+: trimLeft cs := h ▸ trimRight_isPrefix (trimLeft cs)
  exact isBlank_of_dropWhile_eq_cons hback.symm

theorem isBlank_of_trim_eq_append {d : Char} {front : List Char} (h : trim cs = front ++ [d]) :
    isBlank d = false := by
  rw [trim, trimRight, List.reverse_eq_iff, List.reverse_append] at h
  exact isBlank_of_dropWhile_eq_cons h

/-- A blank is left by trimming exactly if it stands between characters that are not blank. -/
theorem mem_trim_iff {x : Char} (hx : isBlank x = true) :
    x ∈ trim cs ↔ ∃ c left right d, c :: (left ++ x :: (right ++ [d])) <:+: cs ∧
      isBlank c = false ∧ isBlank d = false := by
  constructor
  · intro hmem
    obtain ⟨front, back, hsplit⟩ := List.append_of_mem hmem
    have hends : ∀ {c}, isBlank c = false → c ≠ x := fun hc hcx => by
      rw [hcx, hx] at hc
      cases hc
    cases front with
    | nil => exact absurd rfl (hends (isBlank_of_trim_eq_cons hsplit))
    | cons c left =>
        rcases List.eq_nil_or_concat back with rfl | ⟨right, d, rfl⟩
        · exact absurd rfl (hends (isBlank_of_trim_eq_append hsplit))
        · have hlast : trim cs = (c :: left ++ x :: right) ++ [d] := by simpa using hsplit
          refine ⟨c, left, right, d, ?_, isBlank_of_trim_eq_cons hsplit,
            isBlank_of_trim_eq_append hlast⟩
          have hwithin := trim_isInfix cs
          rwa [hlast, List.cons_append, List.cons_append, List.append_assoc, List.cons_append]
            at hwithin
  · rintro ⟨c, left, right, d, hwithin, hc, hd⟩
    have hkept : c :: ((left ++ x :: right) ++ [d]) <:+: trim cs :=
      infix_trim hc hd (by simpa using hwithin)
    exact hkept.subset (by simp)

end SchemaCompiler.Text
