import SchemaCompiler.Proofs.Text.Quoted
import SchemaCompiler.Render.Declaration

/-!
# Names of rendered fields

A field of a rendered record is read back from its lines: its name on the wire is the literal of
its `rename` argument, or else its identifier without the marker of the raw form.  Whichever of the
two it is, it is the wire name of the field (`wireName?_field`).
-/

namespace SchemaCompiler

namespace Text

/-- The text of a literal, behind its opening quote; what follows the closing one is left alone. -/
def readLiteral (cs : List Char) : Option (List Char) :=
  match cs with
  | '"' :: _ => some []
  | cs =>
    match _hread : readChar cs with
    | some (c, rest) => (readLiteral rest).map (c :: ·)
    | none => none
termination_by cs.length
decreasing_by exact length_lt_of_readChar _hread

theorem readLiteral_cons {cs rest : List Char} {c : Char} (h : readChar cs = some (c, rest)) :
    readLiteral cs = (readLiteral rest).map (c :: ·) := by
  rw [readLiteral.eq_def]
  split
  · cases h
  · split
    · rename_i found after hfound
      rw [h] at hfound
      cases hfound
      rfl
    · rename_i hnone
      rw [h] at hnone
      cases hnone

theorem readLiteral_quote (s : String) (rest : List Char) :
    readLiteral (s.toList.flatMap quoteChar ++ '"' :: rest) = some s.toList := by
  generalize s.toList = cs
  induction cs with
  | nil =>
      rw [List.flatMap_nil, List.nil_append, readLiteral]
  | cons c cs ih =>
      rw [List.flatMap_cons, List.append_assoc, readLiteral_cons (readChar_quoteChar c _), ih,
        Option.map_some]

end Text

namespace Render

/-! ## Reading lines -/

/-- What stands behind a mark at the beginning of a line. -/
def behind? (mark line : String) : Option (List Char) :=
  List.isPrefixOf? mark.toList line.toList

/-- The literal of the `rename` argument, where an attribute begins with one. -/
def renamed? (line : String) : Option String :=
  (behind? (step ++ "#[serde(rename = \"") line).bind fun cs =>
    (Text.readLiteral cs).map String.ofList

/-- The identifier of a field. -/
def identifier? (line : String) : Option String :=
  (behind? (step ++ "pub ") line).map fun cs => String.ofList (cs.takeWhile (· ≠ ':'))

/-- The name under which the codec writes the field that stands in the lines. -/
def wireName? (context : Context) (lines : Lines) : Option String :=
  (lines.findSome? renamed?).or ((lines.findSome? identifier?).map (bare context))

theorem behind?_append (mark rest : String) : behind? mark (mark ++ rest) = some rest.toList := by
  rw [behind?, List.isPrefixOf?_eq_some_iff_append_eq, String.toList_append]

/-- A line that begins with another mark has nothing behind the first one. -/
theorem behind?_eq_none {mark other : String} {i : Nat} {c d : Char}
    (hmark : mark.toList[i]? = some c) (hother : other.toList[i]? = some d) (hne : c ≠ d)
    (rest : String) : behind? mark (other ++ rest) = none := by
  refine Option.eq_none_iff_forall_not_mem.mpr fun cs hcs => hne ?_
  have happend := List.isPrefixOf?_eq_some_iff_append_eq.mp hcs
  rw [String.toList_append] at happend
  have hleft : (mark.toList ++ cs)[i]? = some c := by
    rw [List.getElem?_append_left (List.getElem?_eq_some_iff.mp hmark).1, hmark]
  have hright : (other.toList ++ rest.toList)[i]? = some d := by
    rw [List.getElem?_append_left (List.getElem?_eq_some_iff.mp hother).1, hother]
  rw [happend, hright] at hleft
  exact (Option.some.inj hleft).symm

/-! ## Kinds of lines -/

section Lines

variable (rest : String)

theorem identifier?_argumentLines : identifier? (step ++ "#[serde(" ++ rest) = none := by
  rw [identifier?, behind?_eq_none (i := 4) (c := 'p') (d := '#') rfl rfl (by decide)]
  rfl

theorem renamed?_documentation : renamed? (step ++ "///" ++ rest) = none := by
  rw [renamed?, behind?_eq_none (i := 4) (c := '#') (d := '/') rfl rfl (by decide)]
  rfl

theorem identifier?_documentation : identifier? (step ++ "///" ++ rest) = none := by
  rw [identifier?, behind?_eq_none (i := 4) (c := 'p') (d := '/') rfl rfl (by decide)]
  rfl

theorem renamed?_declaration : renamed? (step ++ "pub " ++ rest) = none := by
  rw [renamed?, behind?_eq_none (i := 4) (c := '#') (d := 'p') rfl rfl (by decide)]
  rfl

theorem renamed?_default : renamed? (step ++ "#[serde(default" ++ rest) = none := by
  rw [renamed?, behind?_eq_none (i := 12) (c := 'r') (d := 'd') rfl rfl (by decide)]
  rfl

end Lines

theorem renamed?_rename (name rest : String) :
    renamed? (step ++ "#[serde(" ++ ("rename = " ++ Text.quote name ++ rest)) = some name := by
  have hline : step ++ "#[serde(" ++ ("rename = " ++ Text.quote name ++ rest) =
      step ++ "#[serde(rename = \"" ++
        String.ofList (name.toList.flatMap Text.quoteChar ++ '"' :: rest.toList) := by
    refine String.toList_inj.mp ?_
    simp [Text.quote, String.toList_append]
  rw [renamed?, hline, behind?_append, Option.bind_some, String.toList_ofList,
    Text.readLiteral_quote, Option.map_some, String.ofList_toList]

theorem identifier?_declaration {identifier : String} (h : ':' ∉ identifier.toList)
    (rest : String) :
    identifier? (step ++ "pub " ++ (identifier ++ ":" ++ rest)) = some identifier := by
  have htake : (identifier ++ ":" ++ rest).toList.takeWhile (· ≠ ':') = identifier.toList := by
    rw [String.toList_append, String.toList_append, List.append_assoc,
      List.takeWhile_append_of_pos fun c hc => decide_eq_true (ne_of_mem_of_not_mem hc h)]
    simp
  rw [identifier?, behind?_append, Option.map_some, htake, String.ofList_toList]

/-! ## Fields -/

variable {context : Context} {type : TypeDecl} {field : Field}

/-- The line with the arguments of a field, if there are any. -/
def argumentLines (arguments : List String) : Lines :=
  if arguments.isEmpty then [] else [step ++ "#[serde(" ++ ", ".intercalate arguments ++ ")]"]

theorem exists_intercalate_cons (separator first : String) (rest : List String) :
    ∃ tail, separator.intercalate (first :: rest) = first ++ tail := by
  cases rest with
  | nil => exact ⟨"", by rw [String.intercalate_singleton, String.append_empty]⟩
  | cons second rest =>
      exact ⟨_, by rw [String.intercalate_cons_cons, String.append_assoc]⟩

theorem exists_argumentLines_cons (first : String) (rest : List String) :
    ∃ tail, argumentLines (first :: rest) = [step ++ "#[serde(" ++ (first ++ tail)] := by
  obtain ⟨tail, htail⟩ := exists_intercalate_cons ", " first rest
  refine ⟨tail ++ ")]", ?_⟩
  rw [argumentLines, if_neg (by simp), htail]
  simp only [String.append_assoc]

theorem findSome?_docs (emit : Bool) (description : Option String) :
    (docs emit step description).findSome? renamed? = none ∧
      (docs emit step description).findSome? identifier? = none := by
  have hdocs : ∀ line ∈ docs emit step description, ∃ rest, line = step ++ "///" ++ rest := by
    intro line hline
    rw [docs] at hline
    split at hline
    · obtain ⟨text, -, rfl⟩ := List.mem_map.mp hline
      split
      · exact ⟨"", (String.append_empty).symm⟩
      · exact ⟨" " ++ text, by simp only [← String.append_assoc]; rfl⟩
    · exact absurd hline List.not_mem_nil
  constructor
  · refine List.findSome?_eq_none_iff.mpr fun line hline => ?_
    obtain ⟨rest, rfl⟩ := hdocs line hline
    exact renamed?_documentation rest
  · refine List.findSome?_eq_none_iff.mpr fun line hline => ?_
    obtain ⟨rest, rfl⟩ := hdocs line hline
    exact identifier?_documentation rest

theorem findSome?_identifier?_argumentLines (arguments : List String) :
    (argumentLines arguments).findSome? identifier? = none := by
  cases arguments with
  | nil => rfl
  | cons first rest =>
      obtain ⟨tail, htail⟩ := exists_argumentLines_cons first rest
      rw [htail, List.findSome?_cons, identifier?_argumentLines]
      rfl

theorem exists_fieldArguments (context : Context) (type : TypeDecl)
    (hpresence : field.presence ≠ .flattened) (identifier : String) :
    ∃ rest, fieldArguments context type field identifier =
        renameArgument context field identifier ++ rest ∧
      ∀ argument ∈ rest.head?, ∃ tail, argument = "default" ++ tail := by
  unfold fieldArguments
  split
  · rename_i hflattened
    exact absurd hflattened hpresence
  · exact ⟨[], (List.append_nil _).symm, fun argument hargument => by cases hargument⟩
  · refine ⟨_, rfl, fun argument hargument => ⟨"", ?_⟩⟩
    exact (Option.some.inj hargument).symm
  · refine ⟨_, rfl, fun argument hargument => ?_⟩
    obtain rfl := Option.some.inj hargument
    exact ⟨" = " ++ Text.quote (defaultFunction type field), by
      simp only [← String.append_assoc]; rfl⟩

/-- The arguments spell the wire name out exactly if they have to. -/
theorem findSome?_renamed?_argumentLines (hpresence : field.presence ≠ .flattened)
    (identifier : String) :
    (argumentLines (fieldArguments context type field identifier)).findSome? renamed? =
      if field.renamed || bare context identifier ≠ field.wireName then some field.wireName
      else none := by
  obtain ⟨rest, harguments, hrest⟩ :=
    exists_fieldArguments context type hpresence identifier
  rw [harguments, renameArgument]
  by_cases hspelled : (field.renamed || bare context identifier ≠ field.wireName) = true
  · rw [if_pos hspelled, if_pos hspelled]
    obtain ⟨tail, htail⟩ :=
      exists_argumentLines_cons ("rename = " ++ Text.quote field.wireName) rest
    rw [List.singleton_append, htail, List.findSome?_cons, renamed?_rename]
  · rw [if_neg hspelled, if_neg hspelled, List.nil_append]
    cases rest with
    | nil => rfl
    | cons first rest =>
        obtain ⟨tail, htail⟩ := exists_argumentLines_cons first rest
        obtain ⟨behind, rfl⟩ := hrest first rfl
        have hline : step ++ "#[serde(" ++ ("default" ++ behind ++ tail) =
            step ++ "#[serde(default" ++ (behind ++ tail) := by
          refine String.toList_inj.mp ?_
          simp [String.toList_append]
        rw [htail, List.findSome?_cons, hline, renamed?_default]
        rfl

theorem field_eq : Render.field context type field =
    docs context.options.emitDocs step (fieldDescription field) ++
      argumentLines (fieldArguments context type field
        (context.profile.escape field.identifier)) ++
      [step ++ "pub " ++ (context.profile.escape field.identifier ++ ":" ++
        (" " ++ fieldType context field ++ ","))] := by
  have hline : step ++ "pub " ++ context.profile.escape field.identifier ++ ": " ++
      fieldType context field ++ "," =
      step ++ "pub " ++ (context.profile.escape field.identifier ++ ":" ++
        (" " ++ fieldType context field ++ ",")) := by
    refine String.toList_inj.mp ?_
    simp [String.toList_append]
  rw [← hline]
  rfl

/-- **A rendered field has its wire name**, be it spelled out or read off the identifier. -/
theorem wireName?_field (hpresence : field.presence ≠ .flattened)
    (hidentifier : ':' ∉ (context.profile.escape field.identifier).toList) :
    wireName? context (Render.field context type field) = some field.wireName := by
  obtain ⟨hrenamed, hdeclared⟩ :=
    findSome?_docs context.options.emitDocs (fieldDescription field)
  rw [wireName?, field_eq]
  simp only [List.findSome?_append, hrenamed, hdeclared, Option.none_or,
    findSome?_renamed?_argumentLines hpresence, findSome?_identifier?_argumentLines,
    List.findSome?_cons, List.findSome?_nil, renamed?_declaration,
    identifier?_declaration hidentifier, Option.or_none, Option.map_some]
  split
  · rfl
  · rename_i hread
    have hbare : bare context (context.profile.escape field.identifier) = field.wireName := by
      by_contra hne
      exact hread (by simp [hne])
    rw [hbare]
    rfl

/-- A type with fields is rendered as a record. -/
theorem declaration_eq_record (context : Context) (h : field ∈ type.fields) :
    declaration context type = record context type type.fields := by
  obtain ⟨definition, origin, name, description, body⟩ := type
  cases body with
  | record fields => rfl
  | variant base value fields => rfl
  | _ => exact absurd h List.not_mem_nil

/-- A record is rendered with all of its fields. -/
theorem field_infix_declaration (context : Context) (h : field ∈ type.fields) :
    Render.field context type field <:+: declaration context type := by
  have hinside : Render.field context type field <:+:
      type.fields.flatMap (Render.field context type) :=
    List.infix_of_mem_flatten (List.mem_map_of_mem h)
  rw [declaration_eq_record context h, record, if_neg (by simpa using List.ne_nil_of_mem h)]
  exact List.infix_append_of_infix_right (List.infix_append_of_infix_left
    (List.infix_append_of_infix_left (List.infix_append_of_infix_right hinside)))

/-- A record is followed by the default functions of all of its fields. -/
theorem defaultItem_infix_declaration (context : Context) (h : field ∈ type.fields) :
    defaultItem context type field <:+: declaration context type := by
  have hinside : defaultItem context type field <:+:
      type.fields.flatMap (defaultItem context type) :=
    List.infix_of_mem_flatten (List.mem_map_of_mem h)
  rw [declaration_eq_record context h, record, if_neg (by simpa using List.ne_nil_of_mem h)]
  exact List.infix_append_of_infix_right (List.infix_append_of_infix_right hinside)

/-- Every field is declared in a line of its own, under its escaped identifier. -/
theorem line_mem_declaration (context : Context) (h : field ∈ type.fields) :
    step ++ "pub " ++ context.profile.escape field.identifier ++ ": " ++
      fieldType context field ++ "," ∈ declaration context type :=
  (field_infix_declaration context h).subset
    (List.mem_append_right _ (List.mem_singleton_self _))

end Render

end SchemaCompiler
