import SchemaCompiler.Proofs.Naming.Identifier

/-!
# Names of cases

A case is named after a text, with a number behind the name where it is in use.  Names are told
apart as they are written, but the marker of a raw name is no part of the identifier: `r#type` and
`type` are one.  A reserved word never stands without its marker, and a marker stands in front of a
reserved word only, so two names share an identifier exactly if a number came behind a marked word
in one of them and behind the same word, unmarked, in the other (`nodup_map_bareName_iff`).
-/

namespace SchemaCompiler.Naming

/-- The identifier that a name stands for: the name without the marker of its raw form. -/
def bareName (name : String) : String :=
  match rawMarker.toList.isPrefixOf? name.toList with
  | some rest => String.ofList rest
  | none => name

@[simp] theorem bareName_rawMarker_append (name : String) :
    bareName (rawMarker ++ name) = name := by
  have hprefix : rawMarker.toList.isPrefixOf? (rawMarker ++ name).toList = some name.toList := by
    rw [String.toList_append]
    exact List.isPrefixOf?_eq_some_iff_append_eq.mpr rfl
  rw [bareName, hprefix]
  exact String.ofList_toList

theorem bareName_of_notMem {name : String} (h : '#' ∉ name.toList) : bareName name = name := by
  rw [bareName]
  split
  · rename_i rest hrest
    have hname := List.isPrefixOf?_eq_some_iff_append_eq.mp hrest
    rw [← hname] at h
    exact absurd (List.mem_append_left rest (by decide)) h
  · rfl

/-! ## What a case name looks like -/

/-- The name of a text, or that name with a number behind it. -/
def IsCaseName (name : String) : Prop :=
  ∃ text, name = caseName text ∨ ∃ n : Nat, name = caseName text ++ toString n

theorem isCaseName_fresh (used : List String) (text : String) :
    IsCaseName (fresh used (caseName text)) := by
  refine ⟨text, ?_⟩
  rcases mem_candidates.mp (freshBy_mem_candidates id used (caseName text)) with hbase | ⟨n, -, hn⟩
  · exact Or.inl hbase
  · exact Or.inr ⟨n + 2, hn⟩

/-- A text gives a keyword behind the marker, or a name without a marker that is no keyword. -/
theorem caseName_cases (text : String) :
    (∃ word ∈ keywords, caseName text = rawMarker ++ word) ∨
      '#' ∉ (caseName text).toList ∧ caseName text ∉ keywords := by
  have hmember : '#' ∉ (member text).toList := fun hmem =>
    absurd ((isPlain_member text).word '#' hmem) (by decide)
  have hfixed : ∀ word ∈ fixedWords, word ++ "_" ∉ keywords := by decide
  rw [caseName]
  split
  · exact Or.inr ⟨by decide, by decide⟩
  · rw [escape, escapeWith]
    split
    · rename_i hword
      refine Or.inr ⟨?_, hfixed _ (List.contains_iff_mem.mp hword)⟩
      rw [String.toList_append, List.mem_append, not_or]
      exact ⟨hmember, by decide⟩
    · split
      · rename_i hword
        exact Or.inl ⟨_, List.contains_iff_mem.mp hword, rfl⟩
      · rename_i hword
        exact Or.inr ⟨hmember, mt List.contains_iff_mem.mpr hword⟩

/-- A keyword with a number behind it. -/
def IsNumberedWord (name : String) : Prop :=
  ∃ word ∈ keywords, ∃ n : Nat, name = word ++ toString n

theorem append_toString_notMem_keywords (name : String) (n : Nat) :
    name ++ toString n ∉ keywords := by
  intro hmem
  exact (ne_append_toString_of_isReserved (List.mem_append_right _ hmem) name n).1 rfl

theorem hash_notMem_append_toString {name : String} (h : '#' ∉ name.toList) (n : Nat) :
    '#' ∉ (name ++ toString n).toList := by
  rw [String.toList_append, List.mem_append, not_or]
  exact ⟨h, fun hmem => absurd (isDigit_of_mem_toString hmem) (by decide)⟩

/-- Behind a marker stands a keyword, with a number or without; what has no marker is none. -/
theorem IsCaseName.bareName_cases {name : String} (h : IsCaseName name) :
    name = rawMarker ++ bareName name ∧
        (bareName name ∈ keywords ∨ IsNumberedWord (bareName name)) ∨
      bareName name = name ∧ name ∉ keywords := by
  obtain ⟨text, hname⟩ := h
  rcases caseName_cases text with ⟨word, hword, htext⟩ | ⟨hmarker, hword⟩
  · rw [htext] at hname
    left
    rcases hname with rfl | ⟨n, rfl⟩
    · rw [bareName_rawMarker_append]
      exact ⟨rfl, Or.inl hword⟩
    · rw [String.append_assoc, bareName_rawMarker_append]
      exact ⟨rfl, Or.inr ⟨word, hword, n, rfl⟩⟩
  · right
    rcases hname with rfl | ⟨n, rfl⟩
    · exact ⟨bareName_of_notMem hmarker, hword⟩
    · exact ⟨bareName_of_notMem (hash_notMem_append_toString hmarker n),
        append_toString_notMem_keywords _ n⟩

/-! ## Names that share an identifier -/

/-- The same number stands behind a keyword with its marker and behind that keyword without it. -/
def NumbersMeet (names : List String) : Prop :=
  ∃ word ∈ keywords, ∃ n : Nat,
    rawMarker ++ (word ++ toString n) ∈ names ∧ word ++ toString n ∈ names

theorem numbersMeet_of_marked {names : List String} {marked plain : String}
    (hmarked : marked ∈ names) (hplain : plain ∈ names)
    (hraw : marked = rawMarker ++ bareName marked)
    (hform : bareName marked ∈ keywords ∨ IsNumberedWord (bareName marked))
    (hword : plain ∉ keywords) (hsame : bareName marked = plain) : NumbersMeet names := by
  rw [hsame] at hraw hform
  rcases hform with hkeyword | ⟨word, hkeyword, n, rfl⟩
  · exact absurd hkeyword hword
  · exact ⟨word, hkeyword, n, hraw ▸ hmarked, hplain⟩

theorem rawMarker_append_ne (name : String) : rawMarker ++ name ≠ name := by
  intro h
  have hlength := congrArg (fun text : String => text.toList.length) h
  rw [String.toList_append, List.length_append] at hlength
  have hmarker : rawMarker.toList.length = 2 := rfl
  omega

/-- **When case names are distinct identifiers.**  Case names that are written apart are distinct
as identifiers exactly if no number makes a marked keyword meet the same one without a marker. -/
theorem nodup_map_bareName_iff {names : List String} (hnames : ∀ name ∈ names, IsCaseName name)
    (hnodup : names.Nodup) : (names.map bareName).Nodup ↔ ¬NumbersMeet names := by
  constructor
  · rintro hbare ⟨word, hword, n, hmarked, hplain⟩
    have hmarker : ∀ word ∈ keywords, '#' ∉ word.toList := by decide
    have hsame : bareName (rawMarker ++ (word ++ toString n)) = bareName (word ++ toString n) := by
      rw [bareName_rawMarker_append,
        bareName_of_notMem (hash_notMem_append_toString (hmarker word hword) n)]
    exact rawMarker_append_ne _ (List.inj_on_of_nodup_map hbare hmarked hplain hsame)
  · intro hmeet
    refine List.Nodup.map_on (fun first hfirst second hsecond hsame => ?_) hnodup
    by_contra hne
    rcases (hnames first hfirst).bareName_cases with ⟨hraw, hform⟩ | ⟨hname, hword⟩
    · rcases (hnames second hsecond).bareName_cases with ⟨hraw', -⟩ | ⟨hname', hword'⟩
      · exact hne (hraw.trans (hsame ▸ hraw'.symm))
      · exact hmeet (numbersMeet_of_marked hfirst hsecond hraw hform hword' (hsame.trans hname'))
    · rcases (hnames second hsecond).bareName_cases with ⟨hraw', hform'⟩ | ⟨hname', -⟩
      · exact hmeet (numbersMeet_of_marked hsecond hfirst hraw' hform' hword
          (hsame.symm.trans hname))
      · exact hne (hname.symm.trans (hsame.trans hname'))

end SchemaCompiler.Naming
