import SchemaCompiler.Proofs.Naming.Fresh
import SchemaCompiler.Proofs.Naming.Provenance
import SchemaCompiler.Proofs.Text.Blank

/-!
# Written identifiers

A field is written as the snake case of its member, with reserved words escaped.  A number behind
a member is a number behind its identifier, and no reserved word ends in a digit, so numbered
members never have the identifier of another one.  The identifier of a property consists of word
characters and does not end in an underscore, which sets it apart from every escaped word.
-/

namespace SchemaCompiler.Naming

open Text (capitalize titleCase upper lower splitBy)

/-! ## Numbers behind identifiers -/

/-- What one character becomes, whatever comes behind it. -/
theorem snakeChars_cons (flag : Bool) (c : Char) :
    ∃ front after, (∀ cs, snakeChars flag (c :: cs) = front ++ snakeChars after cs) ∧
      (front = [c] ∨ front = ['_'] ∧ (c = '-' ∨ c = ' ') ∨
        c.isUpper = true ∧ (front = [c.toLower] ∨ front = ['_', c.toLower])) := by
  by_cases hupper : c.isUpper = true
  · cases flag with
    | true =>
        refine ⟨['_', c.toLower], false, fun cs => ?_, Or.inr (Or.inr ⟨hupper, Or.inr rfl⟩)⟩
        rw [snakeChars, if_pos hupper, if_pos rfl]
        rfl
    | false =>
        refine ⟨[c.toLower], false, fun cs => ?_, Or.inr (Or.inr ⟨hupper, Or.inl rfl⟩)⟩
        rw [snakeChars, if_pos hupper, if_neg Bool.false_ne_true]
        rfl
  · by_cases hseparator : (decide (c = '-') || decide (c = ' ')) = true
    · refine ⟨['_'], false, fun cs => ?_, Or.inr (Or.inl ⟨rfl, by simpa using hseparator⟩)⟩
      rw [snakeChars, if_neg hupper, if_pos hseparator]
      rfl
    · refine ⟨[c], c.isLower || c.isDigit, fun cs => ?_, Or.inl rfl⟩
      rw [snakeChars, if_neg hupper, if_neg hseparator]
      rfl

theorem snakeChars_append (flag : Bool) (front : List Char) :
    ∃ after, ∀ back, snakeChars flag (front ++ back) =
      snakeChars flag front ++ snakeChars after back := by
  induction front generalizing flag with
  | nil => exact ⟨flag, fun back => rfl⟩
  | cons c front ih =>
      obtain ⟨first, next, hfirst, -⟩ := snakeChars_cons flag c
      obtain ⟨after, hafter⟩ := ih next
      refine ⟨after, fun back => ?_⟩
      rw [List.cons_append, hfirst, hfirst, hafter, List.append_assoc]

theorem snakeChars_eq_nil {flag : Bool} {cs : List Char} (h : snakeChars flag cs = []) :
    cs = [] := by
  cases cs with
  | nil => rfl
  | cons c cs =>
      obtain ⟨front, after, hfront, hform⟩ := snakeChars_cons flag c
      rw [hfront] at h
      obtain ⟨rfl, -⟩ := List.append_eq_nil_iff.mp h
      simp at hform

theorem isUpper_iff_toNat {c : Char} :
    c.isUpper = true ↔ 'A'.toNat ≤ c.toNat ∧ c.toNat ≤ 'Z'.toNat :=
  decide_eq_true_iff.trans (and_congr UInt32.le_iff_toNat_le UInt32.le_iff_toNat_le)

theorem isLower_iff_toNat {c : Char} :
    c.isLower = true ↔ 'a'.toNat ≤ c.toNat ∧ c.toNat ≤ 'z'.toNat :=
  Bool.and_eq_true_iff.trans (and_congr (decide_eq_true_iff.trans UInt32.le_iff_toNat_le)
    (decide_eq_true_iff.trans UInt32.le_iff_toNat_le))

/-- Digits are kept as they are. -/
theorem snakeChars_digits {digits : List Char} (h : ∀ c ∈ digits, c.isDigit = true)
    (flag : Bool) : snakeChars flag digits = digits := by
  induction digits generalizing flag with
  | nil => rfl
  | cons c rest ih =>
      obtain ⟨hc, hrest⟩ := List.forall_mem_cons.mp h
      have hupper : ¬c.isUpper = true := by
        rw [isUpper_iff_toNat]
        have hle := (Char.isDigit_iff_toNat.mp hc).2
        exact fun hup => absurd (Nat.le_trans hup.1 hle) (by decide)
      have hseparator : ¬(decide (c = '-') || decide (c = ' ')) = true := by
        intro hsep
        rcases Bool.or_eq_true _ _ ▸ hsep with hsep | hsep
        · rw [of_decide_eq_true hsep] at hc
          exact absurd hc (by decide)
        · rw [of_decide_eq_true hsep] at hc
          exact absurd hc (by decide)
      rw [snakeChars, if_neg hupper, if_neg hseparator, ih hrest]

theorem snakeCase_append_toString (member : String) (n : Nat) :
    snakeCase (member ++ toString n) = snakeCase member ++ toString n := by
  obtain ⟨after, hafter⟩ := snakeChars_append false member.toList
  rw [snakeCase, snakeCase, String.toList_append, hafter,
    snakeChars_digits fun c hc => isDigit_of_mem_toString hc, String.ofList_append,
    String.ofList_toList]

/-! ## Reserved words -/

/-- A word that is escaped. -/
def IsReserved (word : String) : Prop :=
  word ∈ fixedWords ++ keywords

instance (word : String) : Decidable (IsReserved word) :=
  inferInstanceAs (Decidable (word ∈ fixedWords ++ keywords))

theorem escape_cases (name : String) :
    escape name = name ∧ ¬IsReserved name ∨
      IsReserved name ∧ (escape name = name ++ "_" ∨ escape name = rawMarker ++ name) := by
  rw [escape, escapeWith, IsReserved, List.mem_append]
  split
  · rename_i hfixed
    exact Or.inr ⟨Or.inl (List.contains_iff_mem.mp hfixed), Or.inl rfl⟩
  · rename_i hfixed
    split
    · rename_i hkeyword
      exact Or.inr ⟨Or.inr (List.contains_iff_mem.mp hkeyword), Or.inr rfl⟩
    · rename_i hkeyword
      refine Or.inl ⟨rfl, ?_⟩
      rintro (h | h)
      · exact hfixed (List.contains_iff_mem.mpr h)
      · exact hkeyword (List.contains_iff_mem.mpr h)

theorem escape_of_not_isReserved {name : String} (h : ¬IsReserved name) : escape name = name := by
  rcases escape_cases name with ⟨hname, -⟩ | ⟨hreserved, -⟩
  · exact hname
  · exact absurd hreserved h

theorem not_isReserved_escape (name : String) : ¬IsReserved (escape name) := by
  have hall : ∀ word ∈ fixedWords ++ keywords, ¬IsReserved (escape word) := by decide
  by_cases hreserved : IsReserved name
  · exact hall name hreserved
  · rw [escape_of_not_isReserved hreserved]
    exact hreserved

/-- Two names are written alike if they are the same or one is the escaped form of the other. -/
theorem escape_eq_escape_iff {a b : String} :
    escape a = escape b ↔ a = b ∨ escape a = b ∨ a = escape b := by
  constructor
  · intro h
    have hnodup : ((fixedWords ++ keywords).map escape).Nodup := by decide
    by_cases ha : IsReserved a
    · by_cases hb : IsReserved b
      · exact Or.inl (List.inj_on_of_nodup_map hnodup ha hb h)
      · exact Or.inr (Or.inl (h.trans (escape_of_not_isReserved hb)))
    · exact Or.inr (Or.inr ((escape_of_not_isReserved ha).symm.trans h))
  · rintro (rfl | rfl | rfl)
    · rfl
    · exact (escape_of_not_isReserved (not_isReserved_escape a)).symm
    · exact escape_of_not_isReserved (not_isReserved_escape b)

theorem exists_digit_last (name : String) (n : Nat) :
    ∃ front c, (name ++ toString n).toList = front ++ [c] ∧ c.isDigit = true := by
  have hne : (toString n).toList ≠ [] := by
    intro h
    refine append_toString_ne "" n (String.toList_inj.mp ?_)
    rw [String.toList_append, h]
    rfl
  refine ⟨name.toList ++ (toString n).toList.dropLast, (toString n).toList.getLast hne, ?_,
    isDigit_of_mem_toString (List.getLast_mem hne)⟩
  rw [String.toList_append, List.append_assoc, List.dropLast_append_getLast]

/-- Neither a reserved word nor its escaped form ends in a digit. -/
theorem ne_append_toString_of_isReserved {word : String} (h : IsReserved word) (name : String)
    (n : Nat) : word ≠ name ++ toString n ∧ escape word ≠ name ++ toString n := by
  have hall : ∀ word ∈ fixedWords ++ keywords, word.toList.getLast?.any Char.isDigit = false ∧
      (escape word).toList.getLast?.any Char.isDigit = false := by decide
  obtain ⟨front, c, hlast, hdigit⟩ := exists_digit_last name n
  have hends : (name ++ toString n).toList.getLast?.any Char.isDigit = true := by
    rw [hlast, List.getLast?_concat]
    exact hdigit
  constructor
  · rintro rfl
    rw [(hall _ h).1] at hends
    cases hends
  · intro heq
    rw [← heq, (hall _ h).2] at hends
    cases hends

theorem escape_append_toString (name : String) (n : Nat) :
    escape (name ++ toString n) = name ++ toString n :=
  escape_of_not_isReserved fun h => (ne_append_toString_of_isReserved h name n).1 rfl

theorem escape_ne_append_toString (name : String) (n : Nat) :
    escape name ≠ name ++ toString n := by
  by_cases h : IsReserved name
  · exact (ne_append_toString_of_isReserved h name n).2
  · rw [escape_of_not_isReserved h]
    exact (append_toString_ne name n).symm

/-- A member that is numbered until its written form is free has a written form that is free. -/
theorem written_freshBy_notMem (used : List String) (member : String) :
    escape (snakeCase (freshBy (fun name => escape (snakeCase name)) used member)) ∉ used := by
  refine key_freshBy_notMem (fun name => escape (snakeCase name))
    (nodup_map_candidates (snakeCase member) (fun n => ?_) (fun n => ?_) used.length)
  · rw [snakeCase_append_toString, escape_append_toString]
  · exact escape_ne_append_toString (snakeCase member) n

theorem snakeCase_freshBy_notMem (used : List String) (member : String) :
    snakeCase (freshBy snakeCase used member) ∉ used :=
  key_freshBy_notMem snakeCase (nodup_map_candidates _ (snakeCase_append_toString member)
    (fun n => (append_toString_ne (snakeCase member) n).symm) used.length)

/-! ## Underscores in members -/

theorem eq_toNat_of_ofNat_eq {n : Nat} {x : Char} (hx : x.toNat ≠ 0) (h : Char.ofNat n = x) :
    n = x.toNat := by
  by_cases hvalid : n.isValidChar
  · rw [Char.ofNat, dif_pos hvalid] at h
    exact congrArg Char.toNat h
  · rw [Char.ofNat, dif_neg hvalid] at h
    exact absurd (h ▸ rfl) hx

/-- A case mapping whose tables do not list a character gives it for that character alone. -/
theorem eq_of_mem_mapCase (sequences : List (Nat × List Nat)) (runs : List Text.CaseRun) {x : Char}
    (hx : x.toNat ≠ 0) (hsequences : ∀ entry ∈ sequences, x.toNat ∉ entry.2)
    (hruns : ∀ run ∈ runs, run.covers (x.toNat - run.offset).toNat = false) {c : Char}
    (hmem : x ∈ Text.mapCase sequences runs c) : c = x := by
  rw [Text.mapCase] at hmem
  split at hmem
  · rename_i codes hcodes
    obtain ⟨front, back, hsplit, -⟩ := List.lookup_eq_some_iff.mp hcodes
    obtain ⟨code, hcode, heq⟩ := List.mem_map.mp hmem
    obtain rfl := eq_toNat_of_ofNat_eq hx heq
    refine absurd hcode (hsequences (c.toNat, codes) ?_)
    rw [hsplit]
    exact List.mem_append_right _ List.mem_cons_self
  · split at hmem
    · rename_i run hrun
      have hcode := eq_toNat_of_ofNat_eq hx (List.mem_singleton.mp hmem).symm
      have hcovers := List.find?_some hrun
      have hfrom : c.toNat = (x.toNat - run.offset).toNat := by omega
      rw [hfrom, hruns run (List.mem_of_find?_eq_some hrun)] at hcovers
      cases hcovers
    · exact (List.mem_singleton.mp hmem).symm

set_option maxRecDepth 2048 in
theorem underscore_notMem_upper {c : Char} (hc : c ≠ '_') : '_' ∉ upper c := fun hmem =>
  hc (eq_of_mem_mapCase Text.upperSequences Text.upperRuns (by decide) (by decide)
    (by decide) hmem)

set_option maxRecDepth 2048 in
theorem underscore_notMem_lower {c : Char} (hc : c ≠ '_') : '_' ∉ lower c := fun hmem =>
  hc (eq_of_mem_mapCase Text.lowerSequences Text.lowerRuns (by decide) (by decide)
    (by decide) hmem)

theorem underscore_notMem_capitalizeWith {rest : List Char → List Char} {cs : List Char}
    (hrest : ∀ cs, '_' ∉ cs → '_' ∉ rest cs) (h : '_' ∉ cs) :
    '_' ∉ Text.capitalizeWith rest cs := by
  cases cs with
  | nil => exact List.not_mem_nil
  | cons c cs =>
      rw [List.mem_cons, not_or] at h
      rw [Text.capitalizeWith, List.mem_append, not_or]
      exact ⟨underscore_notMem_upper (Ne.symm h.1), hrest cs h.2⟩

theorem underscore_notMem_capitalize {cs : List Char} (h : '_' ∉ cs) : '_' ∉ capitalize cs :=
  underscore_notMem_capitalizeWith (fun _ hcs => hcs) h

theorem underscore_notMem_titleCase {cs : List Char} (h : '_' ∉ cs) : '_' ∉ titleCase cs := by
  refine underscore_notMem_capitalizeWith (fun cs hcs hmem => ?_) h
  obtain ⟨c, hc, hlower⟩ := List.mem_flatMap.mp hmem
  exact underscore_notMem_lower (ne_of_mem_of_not_mem hc hcs) hlower

theorem underscore_notMem_segments (cs : List Char) :
    '_' ∉ (segments cs).flatMap capitalize := by
  intro hmem
  obtain ⟨segment, hsegment, hmem⟩ := List.mem_flatMap.mp hmem
  refine underscore_notMem_capitalize (fun hunderscore => ?_) hmem
  have hfalse := Text.not_of_mem_splitBy (List.mem_filter.mp hsegment).1 _ hunderscore
  exact absurd hfalse (by decide)

/-! ## Plain members -/

/-- Word characters that do not end in an underscore. -/
structure IsPlain (cs : List Char) : Prop where
  word : ∀ c ∈ cs, isWordChar c = true
  last_ne : cs.getLast? ≠ some '_'

theorem isPlain_append {front back : List Char} (hfront : ∀ c ∈ front, isWordChar c = true)
    (hback : IsPlain back) (hne : back ≠ []) : IsPlain (front ++ back) where
  word := by
    intro c hc
    rcases List.mem_append.mp hc with hc | hc
    · exact hfront c hc
    · exact hback.word c hc
  last_ne := by
    rw [List.getLast?_append_of_ne_nil front hne]
    exact hback.last_ne

/-- Letters and digits, with an underscore in front where a digit comes first. -/
theorem exists_memberChars_eq_guardDigit (cs : List Char) :
    ∃ kept, memberChars cs = guardDigit kept ∧ ∀ c ∈ kept, c.isAlphanum = true := by
  rw [memberChars]
  generalize hjoined : (segments cs).flatMap capitalize = joined
  have hunderscore : '_' ∉ joined := by
    rw [← hjoined]
    exact underscore_notMem_segments cs
  have hrecased : '_' ∉ (if joined.contains ' ' then (Text.words joined).flatMap titleCase
      else joined) := by
    split
    · intro hmem
      obtain ⟨word, hword, hmem⟩ := List.mem_flatMap.mp hmem
      refine underscore_notMem_titleCase (fun hinside => ?_) hmem
      exact hunderscore ((Text.infix_of_mem_splitBy (List.mem_filter.mp hword).1).subset hinside)
    · exact hunderscore
  generalize (if joined.contains ' ' then (Text.words joined).flatMap titleCase
    else joined) = recased at hrecased
  refine ⟨recased.filter isWordChar, rfl, fun c hc => ?_⟩
  obtain ⟨hmem, hword⟩ := List.mem_filter.mp hc
  rcases Bool.or_eq_true _ _ ▸ hword with hkept | hseparator
  · exact hkept
  · exact absurd (of_decide_eq_true hseparator ▸ hmem) hrecased

theorem isPlain_memberChars (cs : List Char) : IsPlain (memberChars cs) where
  word := fun c hc => isWordChar_of_mem_memberChars hc
  last_ne := by
    obtain ⟨kept, hkept, halphanum⟩ := exists_memberChars_eq_guardDigit cs
    have hunderscore : '_' ∉ kept := fun hmem => absurd (halphanum '_' hmem) (by decide)
    rw [hkept]
    intro hlast
    cases kept with
    | nil => cases hlast
    | cons c rest =>
        -- the underscore in front of a digit is not the last character
        rw [guardDigit] at hlast
        split at hlast
        · rw [List.getLast?_cons_cons] at hlast
          exact hunderscore (List.mem_of_getLast? hlast)
        · exact hunderscore (List.mem_of_getLast? hlast)

theorem isPlain_member (name : String) : IsPlain (member name).toList := by
  rw [member]
  split
  · exact ⟨List.all_eq_true.mp (by decide), by decide⟩
  · rw [String.toList_ofList]
    exact isPlain_memberChars name.toList

theorem isPlain_memberName (type property : String) :
    IsPlain (memberName type property).identifier.toList := by
  rw [memberName]
  split
  · rw [String.toList_append]
    exact isPlain_append (isPlain_member property).word
      ⟨List.all_eq_true.mp (by decide), by decide⟩ (by decide)
  · exact isPlain_member property

theorem isPlain_toString (n : Nat) : IsPlain (toString n).toList where
  word := by
    intro c hc
    have hdigit := isDigit_of_mem_toString hc
    simp [isWordChar, Char.isAlphanum, hdigit]
  last_ne := by
    intro hlast
    exact absurd (isDigit_of_mem_toString (List.mem_of_getLast? hlast)) (by decide)

theorem isPlain_freshBy {member : String} (h : IsPlain member.toList) (key : String → String)
    (used : List String) : IsPlain (freshBy key used member).toList := by
  rcases mem_candidates.mp (freshBy_mem_candidates key used member) with hsame | ⟨n, -, hnumber⟩
  · rw [hsame]
    exact h
  · rw [hnumber, String.toList_append]
    refine isPlain_append h.word (isPlain_toString (n + 2)) fun hnil => ?_
    refine append_toString_ne "" (n + 2) (String.toList_inj.mp ?_)
    rw [String.toList_append, hnil]
    rfl

/-! ## Plain identifiers -/

theorem isLower_toLower {c : Char} (h : c.isUpper = true) : c.toLower.isLower = true := by
  have hall : ∀ n < 91, (Char.ofNat n).isUpper = true →
      (Char.ofNat n).toLower.isLower = true := by decide
  have hcase := hall c.toNat (Nat.lt_succ_of_le (isUpper_iff_toNat.mp h).2)
  rw [Char.ofNat_toNat] at hcase
  exact hcase h

theorem isAlpha_toLower {c : Char} (h : c.isUpper = true) : c.toLower.isAlpha = true :=
  Bool.or_eq_true_iff.mpr (Or.inr (isLower_toLower h))

theorem isWordChar_toLower {c : Char} (h : c.isUpper = true) :
    isWordChar c.toLower = true ∧ c.toLower ≠ '_' := by
  have halpha := isAlpha_toLower h
  refine ⟨by rw [isWordChar, Char.isAlphanum, halpha, Bool.true_or, Bool.true_or], ?_⟩
  intro hunderscore
  rw [hunderscore] at halpha
  exact absurd halpha (by decide)

/-- What holds of the underscore and passes to small letters is kept by snake case. -/
theorem forall_mem_snakeChars {p : Char → Prop} (hunderscore : p '_')
    (hlower : ∀ c : Char, c.isUpper = true → p c.toLower) {cs : List Char} (h : ∀ c ∈ cs, p c)
    (flag : Bool) : ∀ d ∈ snakeChars flag cs, p d := by
  induction cs generalizing flag with
  | nil => exact fun d hd => absurd hd List.not_mem_nil
  | cons c cs ih =>
      obtain ⟨hc, hcs⟩ := List.forall_mem_cons.mp h
      obtain ⟨front, after, hfront, hform⟩ := snakeChars_cons flag c
      intro d hd
      rw [hfront, List.mem_append] at hd
      rcases hd with hd | hd
      · rcases hform with rfl | ⟨rfl, -⟩ | ⟨hupper, rfl | rfl⟩
        · rw [List.mem_singleton.mp hd]
          exact hc
        · rw [List.mem_singleton.mp hd]
          exact hunderscore
        · rw [List.mem_singleton.mp hd]
          exact hlower c hupper
        · rcases List.mem_pair.mp hd with rfl | rfl
          · exact hunderscore
          · exact hlower c hupper
      · exact ih hcs after d hd

theorem isWordChar_of_mem_snakeChars {cs : List Char} (h : ∀ c ∈ cs, isWordChar c = true)
    (flag : Bool) : ∀ d ∈ snakeChars flag cs, isWordChar d = true :=
  forall_mem_snakeChars (p := fun c => isWordChar c = true) rfl
    (fun _ hupper => (isWordChar_toLower hupper).1) h flag

theorem IsPlain.snakeChars {cs : List Char} (h : IsPlain cs) (flag : Bool) :
    IsPlain (snakeChars flag cs) where
  word := isWordChar_of_mem_snakeChars h.word flag
  last_ne := by
    rcases List.eq_nil_or_concat' cs with rfl | ⟨init, c, rfl⟩
    · exact h.last_ne
    · obtain ⟨after, hafter⟩ := snakeChars_append flag init
      obtain ⟨front, next, hfront, hform⟩ := snakeChars_cons after c
      have hc : isWordChar c = true := h.word c (List.mem_append_right _ List.mem_cons_self)
      have hlast : c ≠ '_' := by simpa using h.last_ne
      rw [hafter, hfront]
      rcases hform with rfl | ⟨-, rfl | rfl⟩ | ⟨hupper, rfl | rfl⟩
      · simpa [Naming.snakeChars] using hlast
      · exact absurd hc (by decide)
      · exact absurd hc (by decide)
      · simpa [Naming.snakeChars] using (isWordChar_toLower hupper).2
      · simpa [Naming.snakeChars] using (isWordChar_toLower hupper).2

theorem isPlain_snakeCase {member : String} (h : IsPlain member.toList) :
    IsPlain (snakeCase member).toList := by
  rw [snakeCase, String.toList_ofList]
  exact h.snakeChars false

/-- A plain identifier is no escaped word. -/
theorem ne_escape_of_isPlain {identifier word : String} (h : IsPlain identifier.toList)
    (hword : IsReserved word) : identifier ≠ escape word := by
  have hall : ∀ word ∈ fixedWords ++ keywords,
      (escape word).toList.getLast? = some '_' ∨ '#' ∈ (escape word).toList := by decide
  rintro rfl
  rcases hall word hword with hlast | hmarker
  · exact h.last_ne hlast
  · exact absurd (h.word '#' hmarker) (by decide)

theorem colon_notMem_escape {identifier : String} (h : IsPlain identifier.toList) :
    ':' ∉ (escape identifier).toList := by
  have hplain : ':' ∉ identifier.toList := fun hmem => absurd (h.word ':' hmem) (by decide)
  rcases escape_cases identifier with ⟨hname, -⟩ | ⟨-, hfixed | hraw⟩
  · rw [hname]
    exact hplain
  · rw [hfixed, String.toList_append, List.mem_append, not_or]
    exact ⟨hplain, by decide⟩
  · rw [hraw, String.toList_append, List.mem_append, not_or]
    exact ⟨by decide, hplain⟩

end SchemaCompiler.Naming
