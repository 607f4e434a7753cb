import SchemaCompiler.Proofs.Json.Distinct
import SchemaCompiler.Proofs.Json.Finite
import SchemaCompiler.Proofs.Json.Inside
import SchemaCompiler.Proofs.Render.WireName
import SchemaCompiler.Proofs.Source.Template

/-!
# JSON text as a template

JSON text and the templates of the generated language agree on most of their tokens.  The text of a
value is read as a template exactly if every control character in its strings and keys is a tab, a
line feed or a carriage return, whose escapes both have (`template?_isSome_iff`).  The template then
denotes the value exactly if the integers in it are of 32 bits (`denotes_template?_iff`).
-/

namespace SchemaCompiler

open Source

namespace Json

/-! ## Strings -/

/-- A character that JSON text writes as the generated language does: as itself, or behind an
escape that both have. -/
def isShared (c : Char) : Bool :=
  0x20 ≤ c.toNat || c = '\t' || c = '\n' || c = '\r'

def isSharedText (text : String) : Bool :=
  text.toList.all isShared

theorem readChar_escapeChar {c : Char} (h : isShared c = true) (rest : List Char) :
    readChar (escapeChar c ++ rest) = some (c, rest) := by
  by_cases hspecial : c ∈ ['"', '\\', '\n', '\r', '\t']
  · simp only [List.mem_cons, List.not_mem_nil, or_false] at hspecial
    rcases hspecial with rfl | rfl | rfl | rfl | rfl <;> rfl
  · simp only [List.mem_cons, List.not_mem_nil, or_false, not_or] at hspecial
    obtain ⟨hquote, hbackslash, hnewline, hreturn, htab⟩ := hspecial
    have hsize : 0x20 ≤ c.toNat := by
      simpa [isShared, htab, hnewline, hreturn] using h
    have hbell : c ≠ '\x08' := by
      rintro rfl
      exact absurd hsize (by decide)
    have hfeed : c ≠ '\x0c' := by
      rintro rfl
      exact absurd hsize (by decide)
    rw [escapeChar, if_neg hquote, if_neg hbackslash, if_neg hnewline, if_neg hreturn,
      if_neg htab, if_neg hbell, if_neg hfeed, if_neg (by omega), List.singleton_append, readChar,
      if_neg hbackslash, if_neg (not_or.mpr ⟨hquote, hreturn⟩)]

/-- Any other control character stands behind an escape that the language does not have. -/
theorem readChar_escapeChar_eq_none {c : Char} (h : isShared c = false) (rest : List Char) :
    (∃ tail, escapeChar c ++ rest = '\\' :: tail) ∧ readChar (escapeChar c ++ rest) = none := by
  have hc : c.toNat < 0x20 ∧ c ≠ '\t' ∧ c ≠ '\n' ∧ c ≠ '\r' := by
    simpa [isShared, and_assoc] using h
  obtain ⟨hsize, htab, hnewline, hreturn⟩ := hc
  have hquote : c ≠ '"' := by
    rintro rfl
    exact absurd hsize (by decide)
  have hbackslash : c ≠ '\\' := by
    rintro rfl
    exact absurd hsize (by decide)
  rw [escapeChar, if_neg hquote, if_neg hbackslash, if_neg hnewline, if_neg hreturn, if_neg htab]
  split
  · exact ⟨⟨_, rfl⟩, rfl⟩
  · split
    · exact ⟨⟨_, rfl⟩, rfl⟩
    · exact ⟨⟨_, rfl⟩, rfl⟩

theorem readString_escaped (text rest : List Char) :
    readString (text.flatMap escapeChar ++ '"' :: rest) =
      if text.all isShared then some (text, rest) else none := by
  induction text with
  | nil =>
      rw [List.flatMap_nil, List.nil_append, readString]
      rfl
  | cons c text ih =>
      rw [List.flatMap_cons, List.append_assoc, List.all_cons]
      cases hc : isShared c
      · obtain ⟨⟨tail, htail⟩, hnone⟩ :=
          readChar_escapeChar_eq_none hc (text.flatMap escapeChar ++ '"' :: rest)
        rw [readString_eq_none hnone (by rw [htail]; simp)]
        rfl
      · rw [readString_cons (readChar_escapeChar hc _), ih, Bool.true_and]
        split <;> rfl

/-! ## The template of a value -/

mutual

/-- The template that the JSON text of a value is; none if a string in it is no literal. -/
def template? : Json → Option Template
  | .null => some .null
  | .bool value => some (.bool value)
  | .number value => (readNumeral (numberText value).toList).map fun (numeral, _) => .number numeral
  | .string value => if isSharedText value then some (.text value) else none
  | .array items => (templates? items).map .array
  | .object members => (memberTemplates? members).map .object

def templates? : List Json → Option (List Template)
  | [] => some []
  | item :: rest => (template? item).bind fun item => (templates? rest).map (item :: ·)

def memberTemplates? : List (String × Json) → Option (List (String × Template))
  | [] => some []
  | (key, value) :: rest =>
    if isSharedText key then
      (template? value).bind fun value => (memberTemplates? rest).map ((key, value) :: ·)
    else none

end

/-- The text of a number is that of a numeral, which denotes the number exactly if it is not an
integer beyond 32 bits. -/
theorem exists_writes_number {number : Number} (h : number.InRange) :
    ∃ n : Source.Numeral, Writes (numberText number).toList n ∧
      (Denotes (.number n) (.number number) ↔
        ∀ i, number = .int i → IntWidth.int32.holds i = true) := by
  cases number with
  | int i =>
      obtain ⟨n, hwrites, hwhole, rfl, -⟩ := exists_writes_int i
      refine ⟨n, hwrites, fun hdenotes j hj => ?_, fun hfits => .integer hwhole (hfits _ rfl)⟩
      cases hj
      generalize hnumber : Json.number (.int n.integer) = number at hdenotes
      cases hdenotes with
      | integer _ hfits => exact hfits
      | float hfloat => rw [hwhole] at hfloat; cases hfloat
  | float x =>
      obtain ⟨n, hwrites, hfloat, hrounds⟩ := exists_writes_float (show numberLayout.pointZero = true from rfl) h
      refine ⟨n, ?_, fun _ _ hint => (by cases hint), fun _ => .float hfloat hrounds⟩
      have hfinite : x.isFinite = true := h
      rwa [numberText, if_pos hfinite]

theorem template?_number {number : Number} {n : Source.Numeral}
    (h : Writes (numberText number).toList n) :
    template? (.number number) = some (.number n) := by
  have hread := h.reads [] closes_nil
  rw [List.append_nil] at hread
  rw [template?, hread]
  rfl

/-- The text of a value does not begin as the end of an array does. -/
theorem head?_text_ne (value : Json) (hrange : ∀ number ∈ value.numbers, number.InRange)
    (rest : List Char) : (value.text.toList ++ rest).head? ≠ some ']' := by
  cases value with
  | null => simp
  | bool value => cases value <;> simp
  | number number =>
      obtain ⟨n, hwrites, -⟩ := exists_writes_number (hrange number (by simp [numbers]))
      obtain ⟨c, hc, hstart⟩ := hwrites.starts
      rw [text_number]
      cases htext : (numberText number).toList with
      | nil =>
          rw [htext] at hc
          cases hc
      | cons d cs =>
          rw [htext] at hc
          obtain rfl : d = c := Option.some.inj hc
          rintro heq
          obtain rfl : d = ']' := Option.some.inj heq
          revert hstart
          decide
  | string value => simp
  | array items => simp
  | object members => simp

/-- A text is read as a template, or not at all, whatever closes it. -/
def ReadsAsTemplate (cs : List Char) (template : Option Template) : Prop :=
  ∀ fuel rest, cs.length ≤ fuel → Closes rest →
    readTemplate fuel (cs ++ rest) = template.map (·, rest)

theorem readTemplates_texts {first : Json} {values : List Json}
    (h : ∀ value ∈ first :: values, ReadsAsTemplate value.text.toList (template? value))
    {fuel : Nat} {rest : List Char}
    (hfuel : (",".intercalate (itemTexts (first :: values))).toList.length < fuel) :
    readTemplates fuel ((",".intercalate (itemTexts (first :: values))).toList ++ ']' :: rest) =
      (templates? (first :: values)).map (·, rest) := by
  induction values generalizing first fuel with
  | nil =>
      obtain _ | fuel := fuel
      · cases hfuel
      · have hfirst := h first List.mem_cons_self
        rw [itemTexts, itemTexts, String.intercalate_singleton] at hfuel ⊢
        rw [readTemplates, hfirst fuel _ (Nat.le_of_lt_succ hfuel) (closes_cons (by decide) rest),
          templates?, templates?]
        cases template? first <;> rfl
  | cons next values ih =>
      obtain _ | fuel := fuel
      · cases hfuel
      · have hfirst := h first List.mem_cons_self
        have hrest : ∀ value ∈ next :: values,
            ReadsAsTemplate value.text.toList (template? value) :=
          fun value hmem => h value (List.mem_cons_of_mem _ hmem)
        have htext : (",".intercalate (itemTexts (first :: next :: values))).toList =
            first.text.toList ++ ',' :: (",".intercalate (itemTexts (next :: values))).toList := by
          simp [itemTexts, String.intercalate_cons_cons]
        rw [htext, List.length_append, List.length_cons] at hfuel
        rw [htext, List.append_assoc, List.cons_append, readTemplates,
          hfirst fuel _ (by omega) (closes_cons (by decide) _), templates?]
        cases template? first with
        | none => rfl
        | some item =>
            simp only [Option.map_some, Option.bind_some]
            rw [ih hrest (by omega)]
            cases templates? (next :: values) <;> rfl

/-- One member up to the comma or the brace behind it. -/
theorem readMembers_text {key : String} {value : Json}
    (h : ReadsAsTemplate value.text.toList (template? value)) {fuel : Nat} {tail : List Char}
    (hfuel : value.text.toList.length ≤ fuel) (htail : Closes tail) :
    readMembers (fuel + 1) ((stringText key ++ ":" ++ text value).toList ++ tail) =
      if isSharedText key then
        (template? value).bind fun template =>
          match tail with
          | '\x7d' :: rest => some ([(key, template)], rest)
          | ',' :: rest =>
            (readMembers fuel rest).map fun (members, rest) => ((key, template) :: members, rest)
          | _ => none
      else none := by
  have htext : (stringText key ++ ":" ++ text value).toList ++ tail =
      "\"".toList ++ (key.toList.flatMap escapeChar ++
        '"' :: (":".toList ++ (value.text.toList ++ tail))) := by
    simp
  rw [htext, readMembers, after?_append, Option.bind_some, readString_escaped, isSharedText]
  split
  · simp only [Option.bind_some]
    rw [after?_append, Option.bind_some, h fuel tail hfuel htail, String.ofList_toList]
    cases template? value <;> rfl
  · rfl

theorem readMembers_texts {first : String × Json} {members : List (String × Json)}
    (h : ∀ member ∈ first :: members, ReadsAsTemplate member.2.text.toList (template? member.2))
    {fuel : Nat} {rest : List Char}
    (hfuel : (",".intercalate (memberTexts (first :: members))).toList.length < fuel) :
    readMembers fuel ((",".intercalate (memberTexts (first :: members))).toList ++ '\x7d' :: rest) =
      (memberTemplates? (first :: members)).map (·, rest) := by
  induction members generalizing first fuel with
  | nil =>
      obtain ⟨key, value⟩ := first
      obtain _ | fuel := fuel
      · cases hfuel
      · rw [memberTexts, memberTexts, String.intercalate_singleton] at hfuel ⊢
        have hvalue : value.text.toList.length ≤ fuel := by
          simp at hfuel ⊢
          omega
        rw [readMembers_text (h _ List.mem_cons_self) hvalue (closes_cons (by decide) rest),
          memberTemplates?, memberTemplates?]
        split
        · cases template? value <;> rfl
        · rfl
  | cons next members ih =>
      obtain ⟨key, value⟩ := first
      obtain _ | fuel := fuel
      · cases hfuel
      · have hrest : ∀ member ∈ next :: members,
            ReadsAsTemplate member.2.text.toList (template? member.2) :=
          fun member hmem => h member (List.mem_cons_of_mem _ hmem)
        have htext : (",".intercalate (memberTexts ((key, value) :: next :: members))).toList =
            (stringText key ++ ":" ++ text value).toList ++
              ',' :: (",".intercalate (memberTexts (next :: members))).toList := by
          simp [memberTexts, String.intercalate_cons_cons]
        have hvalue : value.text.toList.length ≤ fuel ∧
            (",".intercalate (memberTexts (next :: members))).toList.length < fuel := by
          rw [htext] at hfuel
          simp at hfuel ⊢
          omega
        rw [htext, List.append_assoc, List.cons_append,
          readMembers_text (h _ List.mem_cons_self) hvalue.1 (closes_cons (by decide) _),
          memberTemplates?]
        split
        · cases template? value with
          | none => rfl
          | some template =>
              simp only [Option.bind_some]
              rw [ih hrest hvalue.2]
              cases memberTemplates? (next :: members) <;> rfl
        · rfl

theorem readsAsTemplate_number {number : Number} {n : Source.Numeral}
    (h : Writes (numberText number).toList n) :
    ReadsAsTemplate (numberText number).toList (some (.number n)) := by
  rintro (_ | fuel) rest hfuel hrest
  · obtain ⟨c, hc, -⟩ := h.starts
    rw [List.length_eq_zero_iff.mp (Nat.le_zero.mp hfuel)] at hc
    cases hc
  · rw [readTemplate.eq_def]
    dsimp only
    rw [if_pos (h.startsNumber rest), h.reads rest hrest]
    rfl

theorem readsAsTemplate_string (value : String) :
    ReadsAsTemplate (stringText value).toList
      (if isSharedText value then some (.text value) else none) := by
  rintro (_ | fuel) rest hfuel -
  · simp at hfuel
  · have htext : (stringText value).toList ++ rest =
        '"' :: (value.toList.flatMap escapeChar ++ '"' :: rest) := by
      simp
    rw [htext, readTemplate_quote, readString_escaped, isSharedText]
    split
    · exact congrArg (fun text => some (Template.text text, rest)) String.ofList_toList
    · rfl

theorem readsAsTemplate_array {items : List Json}
    (hhead : ∀ item ∈ items, ∀ rest, (item.text.toList ++ rest).head? ≠ some ']')
    (h : ∀ item ∈ items, ReadsAsTemplate item.text.toList (template? item)) :
    ReadsAsTemplate (text (.array items)).toList ((templates? items).map .array) := by
  rintro (_ | fuel) rest hfuel -
  · simp at hfuel
  · cases items with
    | nil => rfl
    | cons first values =>
        have htext : (text (.array (first :: values))).toList ++ rest =
            '[' :: ((",".intercalate (itemTexts (first :: values))).toList ++ ']' :: rest) := by
          simp
        have hinner : (",".intercalate (itemTexts (first :: values))).toList.length < fuel := by
          simp at hfuel ⊢
          omega
        have hfirst : ((",".intercalate (itemTexts (first :: values))).toList ++
            ']' :: rest).head? ≠ some ']' := by
          obtain ⟨tail, htail⟩ := Render.exists_intercalate_cons "," first.text (itemTexts values)
          rw [itemTexts, htail, String.toList_append, List.append_assoc]
          exact hhead first List.mem_cons_self _
        rw [htext, readTemplate_bracket fuel hfirst, readTemplates_texts h hinner]
        cases templates? (first :: values) <;> rfl

theorem readsAsTemplate_object {members : List (String × Json)}
    (h : ∀ member ∈ members, ReadsAsTemplate member.2.text.toList (template? member.2)) :
    ReadsAsTemplate (text (.object members)).toList ((memberTemplates? members).map .object) := by
  rintro (_ | fuel) rest hfuel -
  · simp at hfuel
  · cases members with
    | nil => rfl
    | cons first members =>
        have htext : (text (.object (first :: members))).toList ++ rest =
            '\x7b' :: ((",".intercalate (memberTexts (first :: members))).toList ++
              '\x7d' :: rest) := by
          simp
        have hinner :
            (",".intercalate (memberTexts (first :: members))).toList.length < fuel := by
          simp at hfuel ⊢
          omega
        have hfirst : ((",".intercalate (memberTexts (first :: members))).toList ++
            '\x7d' :: rest).head? ≠ some '\x7d' := by
          obtain ⟨key, value⟩ := first
          obtain ⟨tail, htail⟩ := Render.exists_intercalate_cons ","
            (stringText key ++ ":" ++ text value) (memberTexts members)
          rw [memberTexts, htail]
          simp
        rw [htext, readTemplate_brace fuel hfirst, readMembers_texts h hinner]
        cases memberTemplates? (first :: members) <;> rfl

/-- **The text of a value is read as its template, or not at all if it has none.** -/
theorem readsAsTemplate_text (value : Json) (hrange : ∀ number ∈ value.numbers, number.InRange) :
    ReadsAsTemplate value.text.toList (template? value) := by
  induction value using Json.inside_induction with
  | null =>
      rintro (_ | fuel) rest hfuel -
      · cases hfuel
      · exact congrArg (Option.map (Template.null, ·)) (after?_append "null" rest)
  | bool value =>
      rintro (_ | fuel) rest hfuel -
      · cases value <;> cases hfuel
      · cases value
        · exact congrArg (Option.map (Template.bool false, ·)) (after?_append "false" rest)
        · exact congrArg (Option.map (Template.bool true, ·)) (after?_append "true" rest)
  | number number =>
      obtain ⟨n, hwrites, -⟩ := exists_writes_number (hrange number (by simp [numbers]))
      rw [template?_number hwrites, text_number]
      exact readsAsTemplate_number hwrites
  | string value =>
      rw [template?, text_string]
      exact readsAsTemplate_string value
  | array items ih =>
      have hinside : ∀ item ∈ items, ∀ number ∈ item.numbers, number.InRange :=
        fun item hmem number hnumber => hrange number (mem_numbers_of_item hmem hnumber)
      rw [template?]
      exact readsAsTemplate_array (fun item hmem => head?_text_ne item (hinside item hmem))
        fun item hmem => ih item hmem (hinside item hmem)
  | object members ih =>
      rw [template?]
      exact readsAsTemplate_object fun member hmem => ih member hmem fun number hnumber =>
        hrange number (mem_numbers_of_member hmem hnumber)

/-! ## What the template denotes -/

theorem templates?_isSome_iff {items : List Json} :
    (templates? items).isSome = true ↔ ∀ item ∈ items, (template? item).isSome = true := by
  induction items with
  | nil => simp [templates?]
  | cons item rest ih =>
      rw [templates?, List.forall_mem_cons, ← ih]
      cases template? item <;> cases templates? rest <;> simp

theorem memberTemplates?_isSome_iff {members : List (String × Json)} :
    (memberTemplates? members).isSome = true ↔
      ∀ member ∈ members, isSharedText member.1 = true ∧ (template? member.2).isSome = true := by
  induction members with
  | nil => simp [memberTemplates?]
  | cons member rest ih =>
      obtain ⟨key, value⟩ := member
      rw [memberTemplates?, List.forall_mem_cons, ← ih]
      cases isSharedText key <;> cases template? value <;> cases memberTemplates? rest <;> simp

/-- A value has a template exactly if its strings and keys are shared. -/
theorem template?_isSome_iff {value : Json} (hrange : ∀ number ∈ value.numbers, number.InRange) :
    (template? value).isSome = true ↔ ∀ text ∈ value.texts, isSharedText text = true := by
  induction value using Json.inside_induction with
  | null => simp [template?, texts]
  | bool value => simp [template?, texts]
  | number number =>
      obtain ⟨n, hwrites, -⟩ := exists_writes_number (hrange number (by simp [numbers]))
      simp [template?_number hwrites, texts]
  | string value => simp [template?, texts]
  | array items ih =>
      rw [template?, Option.isSome_map, templates?_isSome_iff, texts_array, List.forall_mem_flatMap]
      exact forall₂_congr fun item hmem =>
        ih item hmem fun number hnumber => hrange number (mem_numbers_of_item hmem hnumber)
  | object members ih =>
      rw [template?, Option.isSome_map, memberTemplates?_isSome_iff, texts_object,
        List.forall_mem_flatMap]
      refine forall₂_congr fun member hmem => ?_
      rw [List.forall_mem_cons, ih member hmem fun number hnumber =>
        hrange number (mem_numbers_of_member hmem hnumber)]

/-- The integers inside a value fit the type of an integer literal without a suffix. -/
def IntegersFit (value : Json) : Prop :=
  ∀ number ∈ value.numbers, ∀ i, number = .int i → IntWidth.int32.holds i = true

theorem integersFit_of_numbers_eq_nil {value : Json} (h : value.numbers = []) :
    value.IntegersFit := by
  rw [IntegersFit, h]
  exact List.forall_mem_nil _

theorem integersFit_array_iff {items : List Json} :
    (array items).IntegersFit ↔ ∀ item ∈ items, item.IntegersFit := by
  rw [IntegersFit, numbers_array, List.forall_mem_flatMap]
  rfl

theorem integersFit_object_iff {members : List (String × Json)} :
    (object members).IntegersFit ↔ ∀ member ∈ members, member.2.IntegersFit := by
  rw [IntegersFit, numbers_object, List.forall_mem_flatMap]
  rfl

theorem denotesAll_iff {items : List Json} (h : ∀ item ∈ items, ∀ template,
    template? item = some template → (Denotes template item ↔ item.IntegersFit))
    {templates : List Template} (htemplates : templates? items = some templates) :
    DenotesAll templates items ↔ ∀ item ∈ items, item.IntegersFit := by
  induction items generalizing templates with
  | nil =>
      obtain rfl := Option.some.inj htemplates
      exact ⟨fun _ => nofun, fun _ => .nil⟩
  | cons item rest ih =>
      rw [templates?] at htemplates
      obtain ⟨first, hfirst, htemplates⟩ := Option.bind_eq_some_iff.mp htemplates
      obtain ⟨more, hmore, rfl⟩ := Option.map_eq_some_iff.mp htemplates
      rw [List.forall_mem_cons, ← h item List.mem_cons_self first hfirst,
        ← ih (fun item hmem => h item (List.mem_cons_of_mem _ hmem)) hmore]
      constructor
      · rintro (_ | ⟨hitem, hrest⟩)
        exact ⟨hitem, hrest⟩
      · exact fun ⟨hitem, hrest⟩ => .cons hitem hrest

theorem denotesMembers_iff {members : List (String × Json)} (h : ∀ member ∈ members, ∀ template,
    template? member.2 = some template → (Denotes template member.2 ↔ member.2.IntegersFit))
    {templates : List (String × Template)}
    (htemplates : memberTemplates? members = some templates) :
    DenotesMembers templates members ↔ ∀ member ∈ members, member.2.IntegersFit := by
  induction members generalizing templates with
  | nil =>
      obtain rfl := Option.some.inj htemplates
      exact ⟨fun _ => nofun, fun _ => .nil⟩
  | cons member rest ih =>
      obtain ⟨key, value⟩ := member
      rw [memberTemplates?] at htemplates
      split at htemplates
      · obtain ⟨first, hfirst, htemplates⟩ := Option.bind_eq_some_iff.mp htemplates
        obtain ⟨more, hmore, rfl⟩ := Option.map_eq_some_iff.mp htemplates
        rw [List.forall_mem_cons, ← h _ List.mem_cons_self first hfirst,
          ← ih (fun member hmem => h member (List.mem_cons_of_mem _ hmem)) hmore]
        constructor
        · rintro (_ | ⟨hmember, hrest⟩)
          exact ⟨hmember, hrest⟩
        · exact fun ⟨hmember, hrest⟩ => .cons hmember hrest
      · cases htemplates

theorem map_fst_memberTemplates? {members : List (String × Json)}
    {templates : List (String × Template)} (h : memberTemplates? members = some templates) :
    templates.map Prod.fst = members.map Prod.fst := by
  induction members generalizing templates with
  | nil =>
      obtain rfl := Option.some.inj h
      rfl
  | cons member rest ih =>
      obtain ⟨key, value⟩ := member
      rw [memberTemplates?] at h
      split at h
      · obtain ⟨first, -, h⟩ := Option.bind_eq_some_iff.mp h
        obtain ⟨more, hmore, rfl⟩ := Option.map_eq_some_iff.mp h
        rw [List.map_cons, List.map_cons, ih hmore]
      · cases h

/-- In an object without repeated keys, every member is the value of its template. -/
theorem denotes_object_iff {members : List (String × Json)} (hkeys : Entries.Distinct members)
    {templates : List (String × Template)} (h : memberTemplates? members = some templates) :
    Denotes (.object templates) (.object members) ↔ DenotesMembers templates members := by
  constructor
  · intro hdenotes
    cases hdenotes with
    | object hpairs hentries =>
        rename_i pairs
        have hdistinct : Entries.Distinct pairs := by
          rw [Entries.Distinct, Entries.keys, ← hpairs.map_fst_eq, map_fst_memberTemplates? h]
          exact hkeys
        rw [hdistinct.ofPairs_eq] at hentries
        rwa [← hentries]
  · exact fun hmembers => .object hmembers hkeys.ofPairs_eq

/-- **The template of a value denotes it exactly if its integers fit.** -/
theorem denotes_template?_iff {value : Json} (hrange : ∀ number ∈ value.numbers, number.InRange)
    (hkeys : value.DistinctKeys) {template : Template} (h : template? value = some template) :
    Denotes template value ↔ value.IntegersFit := by
  induction value using Json.inside_induction generalizing template with
  | null =>
      obtain rfl := Option.some.inj h
      exact ⟨fun _ => integersFit_of_numbers_eq_nil rfl, fun _ => .null⟩
  | bool value =>
      obtain rfl := Option.some.inj h
      exact ⟨fun _ => integersFit_of_numbers_eq_nil rfl, fun _ => .bool value⟩
  | number number =>
      obtain ⟨n, hwrites, hdenotes⟩ := exists_writes_number (hrange number (by simp [numbers]))
      rw [template?_number hwrites] at h
      obtain rfl := Option.some.inj h
      rw [hdenotes, IntegersFit, numbers, List.forall_mem_singleton]
  | string value =>
      rw [template?] at h
      split at h
      · obtain rfl := Option.some.inj h
        exact ⟨fun _ => integersFit_of_numbers_eq_nil rfl, fun _ => .text value⟩
      · cases h
  | array items ih =>
      rw [template?] at h
      obtain ⟨templates, htemplates, rfl⟩ := Option.map_eq_some_iff.mp h
      have hitems := distinctKeys_array_iff.mp hkeys
      rw [integersFit_array_iff, ← denotesAll_iff (fun item hmem template htemplate =>
        ih item hmem (fun number hnumber => hrange number (mem_numbers_of_item hmem hnumber))
          (hitems item hmem) htemplate) htemplates]
      constructor
      · rintro (_ | _ | _ | _ | _ | hall)
        exact hall
      · exact .array
  | object members ih =>
      rw [template?] at h
      obtain ⟨templates, htemplates, rfl⟩ := Option.map_eq_some_iff.mp h
      obtain ⟨hdistinct, hmembers⟩ := distinctKeys_object_iff.mp hkeys
      rw [denotes_object_iff hdistinct htemplates, integersFit_object_iff,
        denotesMembers_iff (fun member hmem template htemplate =>
          ih member hmem (fun number hnumber => hrange number (mem_numbers_of_member hmem hnumber))
            (hmembers member hmem) htemplate) htemplates]

end Json

end SchemaCompiler
