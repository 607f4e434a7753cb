import SchemaCompiler.Proofs.Naming.Identifier

/-!
# Legal identifiers

An identifier is a letter or an underscore, followed by letters, digits and underscores, and no
underscore alone; a reserved word is legal in raw form only.  The characters of the ASCII range are
fixed, and which others are letters or digits is left open.

Case names are legal whatever the text is, and of a narrow form (`caseName_form`).  The name of a
definition keeps all but its first character, so its type name is legal exactly if the definition
has a legal name but for that character (`isLegal_typeName_iff`).  What a wrapper has behind the
name of its base are word characters (`isLegal_typeName_append_iff`).
-/

namespace SchemaCompiler.Naming

open Text (capitalize upper)

/-! ## Words -/

/-- A letter, or an underscore and a digit, and then letters and digits, all of the ASCII range. -/
inductive IsWord : List Char → Prop where
  | letter {c : Char} {rest : List Char} (hc : c.isAlpha = true)
      (hrest : ∀ d ∈ rest, d.isAlphanum = true) : IsWord (c :: rest)
  | digit {c : Char} {rest : List Char} (hc : c.isDigit = true)
      (hrest : ∀ d ∈ rest, d.isAlphanum = true) : IsWord ('_' :: c :: rest)

theorem isWord_guardDigit {kept : List Char} (h : ∀ c ∈ kept, c.isAlphanum = true)
    (hne : kept ≠ []) : IsWord (guardDigit kept) := by
  cases kept with
  | nil => exact absurd rfl hne
  | cons c rest =>
      obtain ⟨hc, hrest⟩ := List.forall_mem_cons.mp h
      rw [guardDigit]
      split
      · rename_i hdigit
        exact .digit hdigit hrest
      · rename_i hdigit
        exact .letter ((Bool.or_eq_true _ _ ▸ hc).resolve_right hdigit) hrest

/-- A member is a word, unless no character of the name is left. -/
theorem member_cases (name : String) : member name = "" ∨ IsWord (member name).toList := by
  rw [member]
  split
  · exact Or.inr (.letter rfl (List.all_eq_true.mp (by decide)))
  · obtain ⟨kept, hkept, halphanum⟩ := exists_memberChars_eq_guardDigit name.toList
    rw [hkept]
    rcases eq_or_ne kept [] with rfl | hne
    · exact Or.inl rfl
    · rw [String.toList_ofList]
      exact Or.inr (isWord_guardDigit halphanum hne)

/-! ## Names of cases -/

theorem escape_of_mem_fixedWords {name : String} (h : name ∈ fixedWords) :
    escape name = name ++ "_" :=
  if_pos (List.contains_iff_mem.mpr h)

theorem escape_of_mem_keywords {name : String} (h : name ∈ keywords) :
    escape name = rawMarker ++ name := by
  have hapart : ∀ word ∈ keywords, word ∉ fixedWords := by decide
  rw [escape, escapeWith, if_neg (mt List.contains_iff_mem.mp (hapart name h)),
    if_pos (List.contains_iff_mem.mpr h)]

/-- **Case names are legal.**  Whatever the text is, its case name is a word or one of the fixed
words with an underscore behind it, and has the marker in front exactly if the rest is a keyword. -/
theorem caseName_form (text : String) :
    (∃ word, (IsWord word.toList ∨ ∃ fixed ∈ fixedWords, word = fixed ++ "_") ∧
      (word ∈ keywords ∧ caseName text = rawMarker ++ word ∨
        word ∉ keywords ∧ caseName text = word)) ∧
      caseName text ≠ "" ∧ caseName text ∉ fixedWords := by
  have hfixed : ∀ word ∈ fixedWords, word ++ "_" ∉ keywords ∧ word ++ "_" ≠ "" ∧
      word ++ "_" ∉ fixedWords := by decide
  have hraw : ∀ word ∈ keywords, rawMarker ++ word ≠ "" ∧ rawMarker ++ word ∉ fixedWords := by
    decide
  rw [caseName]
  split
  · have hletters : ∀ c ∈ "ariant".toList, c.isAlphanum = true :=
      List.all_eq_true.mp (by decide)
    exact ⟨⟨"Variant", Or.inl (.letter rfl hletters), Or.inr ⟨by decide, rfl⟩⟩, by decide,
      by decide⟩
  · rename_i hne
    have hword : IsWord (member text).toList := by
      refine (member_cases text).resolve_left fun hempty => hne ?_
      rw [hempty]
      rfl
    by_cases hmember : member text ∈ fixedWords
    · obtain ⟨hkeyword, hempty, hreserved⟩ := hfixed _ hmember
      rw [escape_of_mem_fixedWords hmember]
      exact ⟨⟨_, Or.inr ⟨_, hmember, rfl⟩, Or.inr ⟨hkeyword, rfl⟩⟩, hempty, hreserved⟩
    · by_cases hkeyword : member text ∈ keywords
      · rw [escape_of_mem_keywords hkeyword]
        exact ⟨⟨_, Or.inl hword, Or.inl ⟨hkeyword, rfl⟩⟩, hraw _ hkeyword⟩
      · have hreserved : ¬IsReserved (member text) := by
          rw [IsReserved, List.mem_append, not_or]
          exact ⟨hmember, hkeyword⟩
        rw [escape_of_not_isReserved hreserved]
        refine ⟨⟨_, Or.inl hword, Or.inr ⟨hkeyword, rfl⟩⟩, fun hempty => hne ?_, hmember⟩
        rw [hempty]
        rfl

/-! ## Identifiers -/

theorem toNat_lt_of_isWordChar {c : Char} (h : isWordChar c = true) : c.toNat < 128 := by
  rcases Bool.or_eq_true_iff.mp h with halphanum | hunderscore
  · rcases Bool.or_eq_true_iff.mp halphanum with halpha | hdigit
    · rcases Bool.or_eq_true_iff.mp halpha with hupper | hlower
      · exact Nat.lt_of_le_of_lt (isUpper_iff_toNat.mp hupper).2 (by decide)
      · exact Nat.lt_of_le_of_lt (isLower_iff_toNat.mp hlower).2 (by decide)
    · exact Nat.lt_of_le_of_lt (Char.isDigit_iff_toNat.mp hdigit).2 (by decide)
  · rw [of_decide_eq_true hunderscore]
    decide

/-- Which characters are letters and which are digits; within the ASCII range it is fixed. -/
structure Alphabet where
  isLetter : Char → Bool
  isDigit : Char → Bool
  isLetter_eq : ∀ c : Char, c.toNat < 128 → isLetter c = c.isAlpha
  isDigit_eq : ∀ c : Char, c.toNat < 128 → isDigit c = c.isDigit

namespace Alphabet

variable (alphabet : Alphabet)

/-- What may stand in an identifier behind its first character. -/
def continues (c : Char) : Bool :=
  alphabet.isLetter c || alphabet.isDigit c || c = '_'

theorem isLetter_of_isAlpha {c : Char} (h : c.isAlpha = true) : alphabet.isLetter c = true := by
  rw [alphabet.isLetter_eq c (toNat_lt_of_isWordChar (by simp [isWordChar, Char.isAlphanum, h]))]
  exact h

theorem continues_eq {c : Char} (h : c.toNat < 128) : alphabet.continues c = isWordChar c := by
  rw [continues, alphabet.isLetter_eq c h, alphabet.isDigit_eq c h]
  rfl

theorem continues_of_isWordChar {c : Char} (h : isWordChar c = true) :
    alphabet.continues c = true :=
  (alphabet.continues_eq (toNat_lt_of_isWordChar h)).trans h

end Alphabet

/-- A letter or an underscore, then letters, digits and underscores, and no underscore alone. -/
structure IsIdentifier (alphabet : Alphabet) (cs : List Char) : Prop where
  starts : ∃ c rest, cs = c :: rest ∧ (alphabet.isLetter c = true ∨ c = '_')
  continues : ∀ c ∈ cs, alphabet.continues c = true
  ne_underscore : cs ≠ ['_']

/-- An identifier that is no reserved word, or a keyword in raw form. -/
def IsLegal (alphabet : Alphabet) (name : String) : Prop :=
  (∃ word ∈ keywords, name = rawMarker ++ word) ∨
    IsIdentifier alphabet name.toList ∧ ¬IsReserved name

namespace IsIdentifier

variable {alphabet : Alphabet} {cs front back : List Char}

theorem of_isWord (h : IsWord cs) : IsIdentifier alphabet cs := by
  have hletters : ∀ {rest : List Char}, (∀ d ∈ rest, d.isAlphanum = true) →
      ∀ d ∈ rest, alphabet.continues d = true := fun hrest d hd =>
    alphabet.continues_of_isWordChar (by rw [isWordChar, hrest d hd, Bool.true_or])
  cases h with
  | letter hc hrest =>
      have hletter := alphabet.isLetter_of_isAlpha hc
      refine ⟨⟨_, _, rfl, Or.inl hletter⟩, List.forall_mem_cons.mpr ⟨?_, hletters hrest⟩, ?_⟩
      · rw [Alphabet.continues, hletter, Bool.true_or, Bool.true_or]
      · rintro hsame
        obtain ⟨rfl, -⟩ := List.cons.inj hsame
        exact absurd hc (by decide)
  | digit hc hrest =>
      have hdigit := hletters
        (List.forall_mem_cons.mpr ⟨by rw [Char.isAlphanum, hc, Bool.or_true], hrest⟩)
      exact ⟨⟨_, _, rfl, Or.inr rfl⟩,
        List.forall_mem_cons.mpr ⟨alphabet.continues_of_isWordChar rfl, hdigit⟩, by simp⟩

theorem append (h : IsIdentifier alphabet front) (hback : ∀ c ∈ back, isWordChar c = true) :
    IsIdentifier alphabet (front ++ back) where
  starts := by
    obtain ⟨c, rest, rfl, hc⟩ := h.starts
    exact ⟨c, rest ++ back, rfl, hc⟩
  continues := List.forall_mem_append.mpr
    ⟨h.continues, fun c hc => alphabet.continues_of_isWordChar (hback c hc)⟩
  ne_underscore := by
    obtain ⟨c, rest, rfl, -⟩ := h.starts
    intro hsame
    obtain ⟨rfl, hrest⟩ := List.cons.inj hsame
    obtain ⟨rfl, -⟩ := List.append_eq_nil_iff.mp hrest
    exact h.ne_underscore rfl

theorem append_toString {name : String} (h : IsIdentifier alphabet name.toList) (n : Nat) :
    IsIdentifier alphabet (name ++ toString n).toList := by
  rw [String.toList_append]
  exact h.append (isPlain_toString n).word

/-- A number behind a member is one behind its identifier. -/
theorem snakeCase_freshBy {base : String} (h : IsIdentifier alphabet (snakeCase base).toList)
    (key : String → String) (used : List String) :
    IsIdentifier alphabet (snakeCase (freshBy key used base)).toList := by
  rcases mem_candidates.mp (freshBy_mem_candidates key used base) with hsame | ⟨n, -, hnumber⟩
  · rw [hsame]
    exact h
  · rw [hnumber, snakeCase_append_toString]
    exact h.append_toString (n + 2)

/-- Snake case keeps identifiers. -/
theorem snakeChars (h : IsIdentifier alphabet cs) :
    IsIdentifier alphabet (snakeChars false cs) where
  starts := by
    obtain ⟨c, rest, rfl, hc⟩ := h.starts
    obtain ⟨front, after, hfront, hform⟩ := snakeChars_cons false c
    rw [hfront]
    rcases hform with rfl | ⟨rfl, -⟩ | ⟨hupper, rfl | rfl⟩
    · exact ⟨_, _, rfl, hc⟩
    · exact ⟨_, _, rfl, Or.inr rfl⟩
    · exact ⟨_, _, rfl, Or.inl (alphabet.isLetter_of_isAlpha (isAlpha_toLower hupper))⟩
    · exact ⟨_, _, rfl, Or.inr rfl⟩
  continues := forall_mem_snakeChars (p := fun c => alphabet.continues c = true)
    (alphabet.continues_of_isWordChar rfl)
    (fun c hupper => alphabet.continues_of_isWordChar (isWordChar_toLower hupper).1) h.continues
    false
  ne_underscore := by
    obtain ⟨c, rest, rfl, -⟩ := h.starts
    obtain ⟨hc, -⟩ := List.forall_mem_cons.mp h.continues
    obtain ⟨front, after, hfront, hform⟩ := snakeChars_cons false c
    rw [hfront]
    intro hsame
    rcases hform with rfl | ⟨-, rfl | rfl⟩ | ⟨hupper, rfl | rfl⟩
    · obtain ⟨rfl, hrest⟩ := List.cons.inj hsame
      rw [snakeChars_eq_nil hrest] at h
      exact h.ne_underscore rfl
    · rw [alphabet.continues_eq (by decide)] at hc
      exact absurd hc (by decide)
    · rw [alphabet.continues_eq (by decide)] at hc
      exact absurd hc (by decide)
    · exact (isWordChar_toLower hupper).2 (List.cons.inj hsame).1
    · cases (List.cons.inj hsame).2

end IsIdentifier

section Legal

variable {alphabet : Alphabet}

theorem isWord_of_isReserved {word : String} (h : IsReserved word) : IsWord word.toList := by
  have hall : ∀ word ∈ fixedWords ++ keywords, word.toList.head?.any Char.isAlpha = true ∧
      word.toList.tail.all Char.isAlphanum = true := by decide
  obtain ⟨hhead, hrest⟩ := hall word h
  obtain ⟨c, hc, halpha⟩ := (Option.any_eq_true _ _).mp hhead
  rw [List.eq_cons_of_mem_head? hc]
  exact .letter halpha (List.all_eq_true.mp hrest)

/-- **Escaping makes identifiers legal.** -/
theorem isLegal_escape {name : String} (h : IsIdentifier alphabet name.toList) :
    IsLegal alphabet (escape name) := by
  by_cases hkeyword : name ∈ keywords
  · exact Or.inl ⟨name, hkeyword, escape_of_mem_keywords hkeyword⟩
  · refine Or.inr ⟨?_, not_isReserved_escape name⟩
    by_cases hfixed : name ∈ fixedWords
    · rw [escape_of_mem_fixedWords hfixed, String.toList_append]
      exact h.append (List.all_eq_true.mp (by decide))
    · rw [escape_of_not_isReserved fun hreserved =>
        (List.mem_append.mp hreserved).elim hfixed hkeyword]
      exact h

/-! ## Names of definitions -/

theorem isLower_eq_false_of_mem_upper {c x : Char} (h : x ∈ upper c) : x.isLower = false := by
  -- small letters are in no table, and their own upper case is a capital
  have hall : ∀ n < 123, 97 ≤ n →
      (∀ entry ∈ Text.upperSequences, n ∉ entry.2) ∧
      (∀ run ∈ Text.upperRuns, run.covers (n - run.offset).toNat = false) ∧
      Char.ofNat n ∉ upper (Char.ofNat n) := by decide +kernel
  by_contra hlower
  obtain ⟨hfrom, hto⟩ := isLower_iff_toNat.mp ((Bool.not_eq_false _).mp hlower)
  obtain ⟨hsequences, hruns, hown⟩ := hall x.toNat (Nat.lt_succ_of_le hto) hfrom
  rw [Char.ofNat_toNat] at hown
  obtain rfl := eq_of_mem_mapCase Text.upperSequences Text.upperRuns
    (Nat.ne_of_gt (Nat.lt_of_lt_of_le (by decide) hfrom)) hsequences hruns h
  exact hown h

theorem upper_ne_nil (c : Char) : upper c ≠ [] := by
  have hall : ∀ entry ∈ Text.upperSequences, entry.2 ≠ [] := by decide
  rw [upper, Text.mapCase]
  split
  · rename_i codes hcodes
    obtain ⟨front, back, hsplit, -⟩ := List.lookup_eq_some_iff.mp hcodes
    refine mt List.map_eq_nil_iff.mp (hall (c.toNat, codes) ?_)
    rw [hsplit]
    exact List.mem_append_right _ List.mem_cons_self
  · split <;> exact List.cons_ne_nil _ _

/-- No capitalised text begins with a small letter of the ASCII range. -/
theorem isLower_eq_false_of_capitalize {cs rest : List Char} {c : Char}
    (h : capitalize cs = c :: rest) : c.isLower = false := by
  cases cs with
  | nil => cases h
  | cons d ds =>
      have hcapital : upper d ++ ds = c :: rest := h
      rcases hupper : upper d with _ | ⟨x, more⟩
      · exact absurd hupper (upper_ne_nil d)
      · rw [hupper] at hcapital
        obtain ⟨rfl, -⟩ := List.cons.inj hcapital
        exact isLower_eq_false_of_mem_upper (hupper ▸ List.mem_cons_self)

/-- All reserved words but one begin with a small letter. -/
theorem IsReserved.eq_self {word : String} (h : IsReserved word) {c : Char} {rest : List Char}
    (hword : word.toList = c :: rest) (hlower : c.isLower = false) : word = "Self" := by
  have hall : ∀ word ∈ fixedWords ++ keywords,
      word = "Self" ∨ word.toList.head?.any Char.isLower = true := by decide
  refine (hall word h).resolve_right ?_
  rw [hword, List.head?_cons, Option.any_some, hlower]
  exact Bool.false_ne_true

/-- The capitalised name, or `Self` with an underscore behind it. -/
theorem typeName_cases (definition : String) :
    typeName definition = String.ofList (capitalize definition.toList) ∨
      capitalize definition.toList = "Self".toList ∧ typeName definition = "Self_" := by
  by_cases hreserved : IsReserved (String.ofList (capitalize definition.toList))
  · right
    have hself : String.ofList (capitalize definition.toList) = "Self" := by
      rcases hcapital : capitalize definition.toList with _ | ⟨c, rest⟩
      · rw [hcapital] at hreserved
        exact absurd hreserved (by decide)
      · exact (hcapital ▸ hreserved).eq_self (String.toList_ofList)
          (isLower_eq_false_of_capitalize hcapital)
    refine ⟨(String.toList_ofList).symm.trans (congrArg String.toList hself), ?_⟩
    rw [typeName, hself]
    rfl
  · exact Or.inl (escape_of_not_isReserved hreserved)

/-- **When type names of definitions are legal.** -/
theorem isLegal_typeName_iff {definition : String} :
    IsLegal alphabet (typeName definition) ↔
      IsIdentifier alphabet (capitalize definition.toList) := by
  constructor
  · intro hlegal
    rcases typeName_cases definition with hname | ⟨hself, -⟩
    · rw [hname] at hlegal
      rcases hlegal with ⟨word, -, hraw⟩ | ⟨hidentifier, -⟩
      · -- the marker begins with a small letter
        have hcapital : capitalize definition.toList = 'r' :: '#' :: word.toList := by
          have hlist := congrArg String.toList hraw
          rwa [String.toList_ofList, String.toList_append] at hlist
        exact absurd (isLower_eq_false_of_capitalize hcapital) (by decide)
      · rwa [String.toList_ofList] at hidentifier
    · rw [hself]
      exact .of_isWord (isWord_of_isReserved (by decide))
  · intro h
    exact isLegal_escape (by rwa [String.toList_ofList])

/-! ## Names of wrappers -/

section Wrapper

variable {definition back : String}

theorem isLower_eq_false_of_typeName_append (hne : definition ≠ "") {c : Char} {rest : List Char}
    (h : (typeName definition ++ back).toList = c :: rest) : c.isLower = false := by
  rw [String.toList_append] at h
  rcases typeName_cases definition with hname | ⟨-, hname⟩
  · rw [hname, String.toList_ofList] at h
    rcases hdefinition : definition.toList with _ | ⟨d, ds⟩
    · exact absurd (String.toList_eq_nil_iff.mp hdefinition) hne
    · rcases hcapital : capitalize (d :: ds) with _ | ⟨x, more⟩
      · have hupper : upper d ++ ds = [] := hcapital
        exact absurd (List.append_eq_nil_iff.mp hupper).1 (upper_ne_nil d)
      · rw [hdefinition, hcapital] at h
        obtain ⟨rfl, -⟩ := List.cons.inj h
        exact isLower_eq_false_of_capitalize hcapital
  · rw [hname] at h
    obtain ⟨rfl, -⟩ := List.cons.inj h
    rfl

/-- A wrapper comes out as a reserved word only where its base has no name, or as `Self`. -/
theorem eq_self_of_isReserved_append (h : IsReserved (typeName definition ++ back)) :
    typeName definition ++ back = "Self" ∨ definition = "" := by
  refine or_iff_not_imp_right.mpr fun hne => ?_
  rcases hword : (typeName definition ++ back).toList with _ | ⟨c, rest⟩
  · rw [String.toList_eq_nil_iff.mp hword] at h
    exact absurd h (by decide)
  · exact h.eq_self hword (isLower_eq_false_of_typeName_append hne hword)

theorem isIdentifier_typeName_append_iff (hback : ∀ c ∈ back.toList, isWordChar c = true) :
    IsIdentifier alphabet (typeName definition ++ back).toList ↔
      IsIdentifier alphabet (capitalize definition.toList ++ back.toList) := by
  rw [String.toList_append]
  rcases typeName_cases definition with hname | ⟨hself, hname⟩
  · rw [hname, String.toList_ofList]
  · have hword : IsIdentifier alphabet "Self".toList :=
      .of_isWord (isWord_of_isReserved (by decide))
    have hunderscore : ∀ c ∈ ['_'] ++ back.toList, isWordChar c = true :=
      List.forall_mem_append.mpr ⟨List.all_eq_true.mp (by decide), hback⟩
    rw [hself, hname]
    exact iff_of_true (hword.append hunderscore) (hword.append hback)

/-- **When type names of wrappers are legal.** -/
theorem isLegal_typeName_append_iff (hback : ∀ c ∈ back.toList, isWordChar c = true)
    (hreserved : ¬IsReserved (typeName definition ++ back)) :
    IsLegal alphabet (typeName definition ++ back) ↔
      IsIdentifier alphabet (capitalize definition.toList ++ back.toList) := by
  rw [← isIdentifier_typeName_append_iff hback]
  refine ⟨?_, fun h => Or.inr ⟨h, hreserved⟩⟩
  rintro (⟨word, -, hraw⟩ | ⟨hidentifier, -⟩)
  · -- a raw form begins with a small letter and has a character that is none of a word
    exfalso
    have hlist : (typeName definition ++ back).toList = 'r' :: '#' :: word.toList := by
      rw [hraw, String.toList_append]
      rfl
    rcases eq_or_ne definition "" with rfl | hne
    · have hmarker : '#' ∈ back.toList := by
        have hempty : (typeName "" ++ back).toList = back.toList := by
          rw [String.toList_append]
          rfl
        rw [← hempty, hlist]
        exact List.mem_cons_of_mem _ List.mem_cons_self
      exact absurd (hback '#' hmarker) (by decide)
    · exact absurd (isLower_eq_false_of_typeName_append hne hlist) (by decide)
  · exact hidentifier

end Wrapper

end Legal

end SchemaCompiler.Naming
