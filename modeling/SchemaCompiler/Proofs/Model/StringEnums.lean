import SchemaCompiler.Proofs.Model.Enumerations
import SchemaCompiler.Proofs.Text.Quoted
import SchemaCompiler.Proofs.Wire.RoundTrip

/-!
# String enumerations

The members of a string enumeration have the texts of declared values: a string stands for itself
and any other value for its JSON text.  They are written with these texts as literals, and the codec
reads exactly the strings that the literals stand for.  Where a member can be named for every
declared value, the codec therefore reads the declared values themselves exactly if they are
strings, up to a null whose text is declared as well (`Model.string_enumerations`).  Numbers without
a type are read as their digits (`count_reads_digits`).
-/

namespace SchemaCompiler

open Fallible

/-! ## What is declared and what is read -/

/-- The value that an item declares: its constant, or else its title. -/
def declaredValue? (item : Node) : Option Json :=
  (Entries.get? item "const").or ((item.string? "title").map .string)

/-- A member can be named after an item: it has a title or a constant with some text. -/
def isNamed (item : Node) : Bool :=
  (Build.titleOf? item).isSome ||
    (Entries.get? item "const").any fun value => !(Wire.literalText value).isEmpty

/-- The values that a definition declares in its `enum`, null left out, or else in those of its
branches that are kept. -/
def valuesIn (keep : Node → Bool) (definition : Definition) : List Json :=
  match Entries.get? definition.node "enum" with
  | some values => (values.array?.getD []).filter (!·.kind = .null)
  | none =>
    let items := Node.objectItems ((PropertySet.branches? definition.node).getD [])
    (items.filter keep).filterMap declaredValue?

/-- The values that a definition declares for its enumeration. -/
def declaredValues (definition : Definition) : List Json :=
  valuesIn (fun _ => true) definition

/-- Those of them that a member can be named for. -/
def namedValues (definition : Definition) : List Json :=
  valuesIn isNamed definition

/-- The codec of a string enumeration, with the strings that its literals stand for. -/
def choicesOf (members : List EnumMember) : Wire.Choices where
  names := members.filterMap fun member =>
    (Text.unquote? (Text.quote member.value)).map (·, member.name)

/-- The codec reads a string as a member. -/
def Accepts (members : List EnumMember) (text : String) : Prop :=
  ∃ datum, Wire.Shape.decode (.choice (choicesOf members)) (.string text) = .ok datum

/-- The strings that are read as members are the declared values, and all of these are strings but
for null. -/
structure MatchesDeclared (members : List EnumMember) (declared : List Json) : Prop where
  accepts_iff : ∀ text, Accepts members text ↔ .string text ∈ declared
  strings : ∀ value ∈ declared, value ≠ .null → ∃ text, value = .string text

theorem names_choicesOf (members : List EnumMember) :
    (choicesOf members).names = members.map fun member => (member.value, member.name) := by
  simp only [choicesOf, Text.unquote?_quote, Option.map_some, List.filterMap_eq_map']

theorem accepts_iff_mem {members : List EnumMember} {text : String} :
    Accepts members text ↔ text ∈ members.map (·.value) := by
  have hlisted : (choicesOf members).names.any (·.1 = text) = true ↔
      text ∈ members.map (·.value) := by
    simp [names_choicesOf, List.any_map]
  rw [← hlisted]
  constructor
  · rintro ⟨datum, hdatum⟩
    rw [Wire.Shape.decode, Wire.Shape.decodeChoice] at hdatum
    exact (Wire.Shape.decodeName_eq_ok_iff.mp hdatum).1
  · intro hany
    refine ⟨.choice text, ?_⟩
    rw [Wire.Shape.decode, Wire.Shape.decodeChoice]
    exact Wire.Shape.decodeName_eq_ok_iff.mpr ⟨hany, rfl⟩

/-! ## What is added -/

namespace Build

theorem titleOf?_eq_some_iff {item : Node} {title : String} :
    titleOf? item = some title ↔ item.string? "title" = some title ∧ title ≠ "" := by
  rw [titleOf?, Option.filter_eq_some_iff]
  refine and_congr_right fun _ => ?_
  simp

theorem exists_itemName? {item : Node} {value : Json} (h : isNamed item = true)
    (hconstant : Entries.get? item "const" = some value) :
    ∃ name, itemName? (titleOf? item) (some value) = some name := by
  rw [isNamed, hconstant] at h
  cases htitle : titleOf? item with
  | some title => exact ⟨_, rfl⟩
  | none =>
      rw [htitle] at h
      exact ⟨_, if_neg (by simpa using h)⟩

theorem value?_of_string_item {definition : String} {item : Node} {addition : Addition}
    (h : additionOfItem definition .string item = .ok (some addition)) {text : String}
    (htext : addition.value? = some text) :
    ∃ value, declaredValue? item = some value ∧ Wire.literalText value = text := by
  rw [additionOfItem] at h
  split at h
  · cases h
  · split at h
    · rename_i value hconstant
      obtain ⟨found, hfound, haddition⟩ := map_eq_ok_iff.mp h
      obtain rfl := Option.some.inj haddition
      obtain rfl : found = text := Option.some.inj htext
      refine ⟨value, ?_, Except.ok.inj hfound⟩
      rw [declaredValue?, hconstant]
      rfl
    · rename_i hconstant
      obtain ⟨title, htitle, rfl⟩ := Option.map_eq_some_iff.mp (Except.ok.inj h)
      obtain rfl : title = text := Option.some.inj htext
      refine ⟨.string title, ?_, rfl⟩
      rw [declaredValue?, hconstant, (titleOf?_eq_some_iff.mp htitle).1]
      rfl

theorem exists_addition_of_isNamed (definition : String) {item : Node} {value : Json}
    (h : declaredValue? item = some value) (hnamed : isNamed item = true) :
    ∃ addition, additionOfItem definition .string item = .ok (some addition) ∧
      addition.value? = some (Wire.literalText value) := by
  rw [declaredValue?] at h
  rw [additionOfItem]
  cases hconstant : Entries.get? item "const" with
  | some constant =>
      rw [hconstant, Option.some_or] at h
      obtain rfl := Option.some.inj h
      obtain ⟨name, hname⟩ := exists_itemName? hnamed hconstant
      rw [hname]
      exact ⟨_, rfl, rfl⟩
  | none =>
      rw [hconstant, Option.none_or] at h
      obtain ⟨title, htitle, rfl⟩ := Option.map_eq_some_iff.mp h
      have hsome : (titleOf? item).isSome = true := by simpa [isNamed, hconstant] using hnamed
      obtain ⟨found, hfound⟩ := Option.isSome_iff_exists.mp hsome
      obtain rfl : found = title :=
        Option.some.inj ((titleOf?_eq_some_iff.mp hfound).1.symm.trans htitle)
      rw [hfound]
      exact ⟨_, rfl, rfl⟩

theorem valuesIn_of_enum {definition : Definition} {listed : List Json}
    (h : Entries.get? definition.node "enum" = some (.array listed)) (keep : Node → Bool) :
    valuesIn keep definition = listed.filter (!·.kind = .null) := by
  rw [valuesIn, h]
  rfl

theorem valuesIn_of_items {definition : Definition} {items : List Json}
    (henum : Entries.get? definition.node "enum" = none)
    (hitems : PropertySet.branches? definition.node = some items) (keep : Node → Bool) :
    valuesIn keep definition =
      ((Node.objectItems items).filter keep).filterMap declaredValue? := by
  rw [valuesIn, henum, hitems]
  rfl

/-- What is added are texts of declared values. -/
theorem Enumerates.exists_declared {definition : Definition} {additions : List Addition}
    (h : Enumerates definition .string additions) {text : String}
    (htext : text ∈ additions.filterMap Addition.value?) :
    ∃ value ∈ declaredValues definition, Wire.literalText value = text := by
  obtain ⟨addition, haddition, hvalue⟩ := List.mem_filterMap.mp htext
  generalize hform : EnumForm.string = form at h
  cases h with
  | values henum hadditions =>
      rw [← hform] at hadditions
      obtain ⟨value, hmem, hadds⟩ := exists_of_mem_of_mapM hadditions haddition
      obtain rfl := Except.ok.inj hadds
      rw [declaredValues, valuesIn_of_enum henum]
      exact ⟨value, hmem, Option.some.inj hvalue⟩
  | items henum hitems henumForm hfound =>
      rw [← hform] at hfound
      obtain ⟨item, hitem, hadds⟩ := exists_of_mem_filterMap_of_mapM hfound haddition
      obtain ⟨value, hdeclares, htext⟩ := value?_of_string_item hadds hvalue
      rw [declaredValues, valuesIn_of_items henum hitems]
      exact ⟨value, List.mem_filterMap.mpr
        ⟨item, List.mem_filter.mpr ⟨hitem, rfl⟩, hdeclares⟩, htext⟩

/-- The text of every declared value that a member can be named for is added. -/
theorem Enumerates.text_mem_of_named {definition : Definition} {additions : List Addition}
    (h : Enumerates definition .string additions) {value : Json}
    (hvalue : value ∈ namedValues definition) :
    Wire.literalText value ∈ additions.filterMap Addition.value? := by
  generalize hform : EnumForm.string = form at h
  cases h with
  | values henum hadditions =>
      rw [← hform] at hadditions
      rw [namedValues, valuesIn_of_enum henum] at hvalue
      obtain ⟨addition, haddition, hadds⟩ := exists_result_of_mem_of_mapM hadditions hvalue
      obtain rfl := Except.ok.inj hadds
      exact List.mem_filterMap.mpr ⟨_, haddition, rfl⟩
  | items henum hitems henumForm hfound =>
      rw [← hform] at hfound
      rw [namedValues, valuesIn_of_items henum hitems] at hvalue
      obtain ⟨item, hitem, hdeclares⟩ := List.mem_filterMap.mp hvalue
      obtain ⟨hitem, hnamed⟩ := List.mem_filter.mp hitem
      obtain ⟨addition, hadds, htext⟩ :=
        exists_addition_of_isNamed definition.name hdeclares hnamed
      obtain ⟨result, hresult, hitemResult⟩ := exists_result_of_mem_of_mapM hfound hitem
      obtain rfl := Except.ok.inj (hadds.symm.trans hitemResult)
      exact List.mem_filterMap.mpr ⟨addition, List.mem_filterMap.mpr ⟨_, hresult, rfl⟩, htext⟩

end Build

/-! ## Emitted string enumerations -/

namespace Compilation

variable {document : Document} (run : Compilation document)

/-- The strings that an emitted enumeration reads are texts of what is declared, and of all that a
member can be named for. -/
theorem accepts_texts {type : TypeDecl} (htype : type ∈ run.model.types)
    {members : List EnumMember} {catchAll : Option CatchAll}
    (hbody : type.body = .enumeration .string members catchAll) {definition : Definition}
    (hdefinition : document.get? type.definition = some definition) :
    (members.map (·.value)).Nodup ∧
      (∀ text, Accepts members text →
        ∃ value ∈ declaredValues definition, Wire.literalText value = text) ∧
      ∀ value ∈ namedValues definition, Accepts members (Wire.literalText value) := by
  obtain ⟨owner, howner, additions, henumerates, hrun⟩ := run.enumerates htype hbody
  obtain rfl : owner = definition := Option.some.inj (howner.symm.trans hdefinition)
  have hvalues := Build.values_of_toBody hrun
  refine ⟨hvalues ▸ nodup_eraseDups _, fun text htext => ?_, fun value hvalue => ?_⟩
  · rw [accepts_iff_mem, hvalues, List.mem_eraseDups] at htext
    exact henumerates.exists_declared htext
  · rw [accepts_iff_mem, hvalues, List.mem_eraseDups]
    exact henumerates.text_mem_of_named hvalue

end Compilation

/-- Where texts are read, values are exactly if they are strings, up to a null whose text is
declared as well. -/
theorem matchesDeclared_iff {members : List EnumMember} {declared : List Json}
    (hsound : ∀ text, Accepts members text → ∃ value ∈ declared, Wire.literalText value = text)
    (hcomplete : ∀ value ∈ declared, Accepts members (Wire.literalText value)) :
    MatchesDeclared members declared ↔
      (∀ value ∈ declared, value ≠ .null → ∃ text, value = .string text) ∧
        (.null ∈ declared → .string "null" ∈ declared) := by
  constructor
  · intro h
    exact ⟨h.strings, fun hnull => (h.accepts_iff "null").mp (hcomplete .null hnull)⟩
  · rintro ⟨hstrings, hnull⟩
    refine ⟨fun text => ⟨fun haccepts => ?_, fun htext => hcomplete (.string text) htext⟩, hstrings⟩
    obtain ⟨value, hvalue, htext⟩ := hsound text haccepts
    by_cases hkind : value = .null
    · subst hkind
      exact htext ▸ hnull hvalue
    · obtain ⟨found, rfl⟩ := hstrings value hvalue hkind
      exact htext ▸ hvalue

/-- **What string enumerations read.**  The members of an emitted string enumeration have distinct
values.  Every string that its codec reads is the text of a declared value, and the text of every
value that a member can be named for is read.  If that is every declared value, the strings that are
read are the declared values exactly if these are strings, up to a null whose text is declared as
well. -/
theorem Model.string_enumerations {document : Document} {model : Model}
    (h : Model.build document = .ok model) {type : TypeDecl} (htype : type ∈ model.types)
    {members : List EnumMember} {catchAll : Option CatchAll}
    (hbody : type.body = .enumeration .string members catchAll) {definition : Definition}
    (hdefinition : document.get? type.definition = some definition) :
    (members.map (·.value)).Nodup ∧
      (∀ text, Accepts members text →
        ∃ value ∈ declaredValues definition, Wire.literalText value = text) ∧
      (∀ value ∈ namedValues definition, Accepts members (Wire.literalText value)) ∧
      ((∀ value ∈ declaredValues definition, value ∈ namedValues definition) →
        (MatchesDeclared members (declaredValues definition) ↔
          (∀ value ∈ declaredValues definition, value ≠ .null → ∃ text, value = .string text) ∧
            (.null ∈ declaredValues definition →
              .string "null" ∈ declaredValues definition))) := by
  obtain ⟨run, rfl⟩ := Model.build_eq_ok_iff.mp h
  obtain ⟨hnodup, hsound, hcomplete⟩ := run.accepts_texts htype hbody hdefinition
  exact ⟨hnodup, hsound, hcomplete, fun hnamed => matchesDeclared_iff hsound fun value hvalue =>
    hcomplete value (hnamed value hvalue)⟩

/-! ## Strings and numbers -/

/-- Branches with a constant or a title. -/
def modeDefinition : Definition where
  name := "Mode"
  node :=
    [("oneOf", .array
      [.object [("type", .string "string"), ("const", .string "fast"),
          ("title", .string "fast mode")],
        .object [("type", .string "string"), ("title", .string "slow")]])]

/-- Numbers without a type. -/
def countDefinition : Definition where
  name := "Count"
  node := [("enum", .array [.number (.int 1), .number (.int 2)])]

/-- A document of one definition. -/
def Definition.alone (definition : Definition) : Document where
  definitions := [(definition.name, .object definition.node)]
  revision := none
  distinct := List.nodup_singleton definition.name

theorem Definition.get?_alone (definition : Definition) :
    definition.alone.get? definition.name = some definition := by
  rw [Document.get?, Definition.alone, Entries.get?_cons, if_pos rfl]

theorem string_enumerations_mode :
    ∃ model, Model.build modeDefinition.alone = .ok model ∧ ∃ type ∈ model.types,
      type.body = .enumeration .string
        [⟨"FastMode", "fast", none⟩, ⟨"Slow", "slow", none⟩] none ∧
      MatchesDeclared [⟨"FastMode", "fast", none⟩, ⟨"Slow", "slow", none⟩]
        [.string "fast", .string "slow"] := by
  have hshown : (Model.build modeDefinition.alone).toOption.map (·.enumeration? "Mode") =
      some (some ("Mode", .string,
        [⟨"FastMode", "fast", none⟩, ⟨"Slow", "slow", none⟩], none)) := by
    decide
  obtain ⟨model, hbuild, type, htype, hdefinition, -, hbody⟩ := Model.exists_enumeration hshown
  have hlookup : modeDefinition.alone.get? type.definition = some modeDefinition := by
    rw [hdefinition]
    exact modeDefinition.get?_alone
  obtain ⟨-, -, -, hiff⟩ := Model.string_enumerations hbuild htype hbody hlookup
  have hdeclared : declaredValues modeDefinition = [.string "fast", .string "slow"] := rfl
  have hnamed : namedValues modeDefinition = [.string "fast", .string "slow"] := rfl
  rw [hdeclared, hnamed] at hiff
  refine ⟨model, hbuild, type, htype, hbody, (hiff fun _ hvalue => hvalue).mpr ⟨?_, ?_⟩⟩
  · simp
  · simp

/-- The digits of a number are read in its place. -/
theorem count_reads_digits :
    ∃ model, Model.build countDefinition.alone = .ok model ∧ ∃ type ∈ model.types,
      countDefinition.alone.get? type.definition = some countDefinition ∧
      type.body = .enumeration .string [⟨"_1", "1", none⟩, ⟨"_2", "2", none⟩] none ∧
      Accepts [⟨"_1", "1", none⟩, ⟨"_2", "2", none⟩] "1" ∧
      ¬MatchesDeclared [⟨"_1", "1", none⟩, ⟨"_2", "2", none⟩] (declaredValues countDefinition) := by
  have hshown : (Model.build countDefinition.alone).toOption.map (·.enumeration? "Count") =
      some (some ("Count", .string, [⟨"_1", "1", none⟩, ⟨"_2", "2", none⟩], none)) := by
    decide
  obtain ⟨model, hbuild, type, htype, hdefinition, -, hbody⟩ := Model.exists_enumeration hshown
  have hlookup : countDefinition.alone.get? type.definition = some countDefinition := by
    rw [hdefinition]
    exact countDefinition.get?_alone
  refine ⟨model, hbuild, type, htype, hlookup, hbody, accepts_iff_mem.mpr List.mem_cons_self, ?_⟩
  intro hmatches
  obtain ⟨text, htext⟩ := hmatches.strings (.number (.int 1)) List.mem_cons_self Json.noConfusion
  cases htext

end SchemaCompiler
