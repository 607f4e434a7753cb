import SchemaCompiler.Proofs.Text.Blank
import SchemaCompiler.Render.MethodConstants

/-!
# Text in comments

Descriptions and the revision of a schema are written into comments.  Every line of a description
stands behind a marker of its own, and a carriage return is left in one exactly if the description
has it between two characters of a line that are not blank (`exists_return_iff`).  The revision
stays behind its marker exactly if it is one line (`linesOf_drop_header_eq_iff`).
-/

namespace SchemaCompiler.Render

/-- The lines of a source whose lines all have an end. -/
def linesOf (source : String) : List String :=
  (Text.splitBy (· = '\n') source.toList).dropLast.map String.ofList

/-- A carriage return stands between two characters of one line that are not blank. -/
def EnclosedReturn (description : String) : Prop :=
  ∃ c left right d, c :: (left ++ '\r' :: (right ++ [d])) <:+: description.toList ∧
    Text.isBlank c = false ∧ Text.isBlank d = false ∧ '\n' ∉ left ∧ '\n' ∉ right

/-! ## Lines -/

theorem toList_text_cons (line : String) (lines : Lines) :
    (text (line :: lines)).toList = line.toList ++ '\n' :: (text lines).toList := by
  simp [text]

theorem linesOf_text (lines : Lines) :
    linesOf (text lines) =
      lines.flatMap fun line => (Text.splitBy (· = '\n') line.toList).map String.ofList := by
  induction lines with
  | nil => rfl
  | cons line lines ih =>
      rw [linesOf, toList_text_cons, Text.splitBy_append_cons (by simp),
        List.dropLast_append_of_ne_nil (Text.splitBy_ne_nil _ _), List.map_append,
        List.flatMap_cons, ← ih]
      rfl

theorem linesOf_text_of_notMem {lines : Lines} (h : ∀ line ∈ lines, '\n' ∉ line.toList) :
    linesOf (text lines) = lines := by
  rw [linesOf_text]
  induction lines with
  | nil => rfl
  | cons line lines ih =>
      obtain ⟨hline, hrest⟩ := List.forall_mem_cons.mp h
      have hone : Text.splitBy (· = '\n') line.toList = [line.toList] :=
        Text.splitBy_eq_singleton fun c hc => by simpa using ne_of_mem_of_not_mem hc hline
      rw [List.flatMap_cons, ih hrest, hone]
      simp

/-! ## Descriptions -/

variable {description : String}

theorem mem_descriptionLines_iff {line : String} :
    line ∈ descriptionLines description ↔ Text.trim description.toList ≠ [] ∧
      ∃ piece ∈ Text.splitBy (· = '\n') (Text.trim description.toList),
        String.ofList (Text.trim piece) = line := by
  rw [descriptionLines]
  cases Text.trim description.toList with
  | nil => simp
  | cons c cs => simp

theorem newline_notMem_of_mem_splitBy {cs piece : List Char}
    (h : piece ∈ Text.splitBy (· = '\n') cs) : '\n' ∉ piece := fun hmem => by
  simpa using Text.not_of_mem_splitBy h '\n' hmem

theorem newline_notMem_of_mem_descriptionLines {line : String}
    (h : line ∈ descriptionLines description) : '\n' ∉ line.toList := by
  rw [mem_descriptionLines_iff] at h
  obtain ⟨-, piece, hpiece, rfl⟩ := h
  rw [String.toList_ofList]
  exact fun hmem =>
    newline_notMem_of_mem_splitBy hpiece ((Text.trim_isInfix piece).subset hmem)

/-- The line of an enclosed return keeps it, and no other line has one. -/
theorem exists_return_iff :
    (∃ line ∈ descriptionLines description, '\r' ∈ line.toList) ↔ EnclosedReturn description := by
  have hreturn : Text.isBlank '\r' = true := by decide
  constructor
  · rintro ⟨line, hline, hmem⟩
    rw [mem_descriptionLines_iff] at hline
    obtain ⟨-, piece, hpiece, rfl⟩ := hline
    rw [String.toList_ofList, Text.mem_trim_iff hreturn] at hmem
    obtain ⟨c, left, right, d, hwithin, hc, hd⟩ := hmem
    have hnone : ∀ x ∈ c :: (left ++ '\r' :: (right ++ [d])), x ≠ '\n' := fun x hx =>
      ne_of_mem_of_not_mem (hwithin.subset hx) (newline_notMem_of_mem_splitBy hpiece)
    have hwhole := (hwithin.trans (Text.infix_of_mem_splitBy hpiece)).trans (Text.trim_isInfix _)
    refine ⟨c, left, right, d, hwhole, hc, hd, ?_, ?_⟩
    · exact fun hmem => hnone '\n' (by simp [hmem]) rfl
    · exact fun hmem => hnone '\n' (by simp [hmem]) rfl
  · rintro ⟨c, left, right, d, hwithin, hc, hd, hleft, hright⟩
    have hends : ∀ {x}, Text.isBlank x = false → x ≠ '\n' := by
      rintro x hx rfl
      exact absurd hx (by decide)
    have hline : ∀ x ∈ c :: ((left ++ '\r' :: right) ++ [d]), x ≠ '\n' := by
      intro x hx
      simp only [List.mem_cons, List.mem_append, List.not_mem_nil, or_false] at hx
      rcases hx with rfl | (hx | rfl | hx) | rfl
      · exact hends hc
      · exact ne_of_mem_of_not_mem hx hleft
      · decide
      · exact ne_of_mem_of_not_mem hx hright
      · exact hends hd
    have hkept : c :: ((left ++ '\r' :: right) ++ [d]) <:+: Text.trim description.toList :=
      Text.infix_trim hc hd (by simpa using hwithin)
    obtain ⟨piece, hpiece, hin⟩ := Text.exists_piece_of_isInfix (p := (· = '\n')) hkept
      fun x hx => by simpa using hline x hx
    refine ⟨_, mem_descriptionLines_iff.mpr ⟨?_, piece, hpiece, rfl⟩, ?_⟩
    · intro hnil
      rw [hnil] at hkept
      cases List.infix_nil.mp hkept
    · rw [String.toList_ofList, Text.mem_trim_iff hreturn]
      exact ⟨c, left, right, d, by simpa using hin, hc, hd⟩

/-! ## Comments -/

section Docs

variable {indent : String}

/-- A line of a description behind its marker. -/
def commentLine (indent body : String) : String :=
  indent ++ "///" ++ (if body.isEmpty then "" else " " ++ body)

theorem docs_true (description : String) :
    docs true indent (some description) =
      (descriptionLines description).map (commentLine indent) := by
  refine List.map_congr_left fun body _ => ?_
  show _ = commentLine indent body
  rw [commentLine]
  split
  · simp
  · rw [show "/// " = "///" ++ " " from rfl]
    simp only [String.append_assoc]

theorem mem_commentLine_iff {body : String} {c : Char} (hmarker : c ∉ "/// ".toList) :
    c ∈ (commentLine indent body).toList ↔ c ∈ indent.toList ∨ c ∈ body.toList := by
  have hmarker : c ≠ '/' ∧ c ≠ ' ' := by simpa using hmarker
  rw [commentLine]
  by_cases hbody : body = ""
  · simp [hbody, hmarker]
  · simp [hbody, hmarker]

/-- The lines of a description are as they were made. -/
theorem linesOf_docs (hindent : '\n' ∉ indent.toList) (description : String) :
    linesOf (text (docs true indent (some description))) =
      (descriptionLines description).map (commentLine indent) := by
  rw [docs_true]
  refine linesOf_text_of_notMem fun line hline => ?_
  obtain ⟨body, hbody, rfl⟩ := List.mem_map.mp hline
  rw [mem_commentLine_iff (by decide), not_or]
  exact ⟨hindent, newline_notMem_of_mem_descriptionLines hbody⟩

end Docs

/-! ## The revision -/

section Header

variable (label : String) (revision : Revision)

/-- What a header says about the revision, behind its line about the input. -/
theorem linesOf_drop_header :
    linesOf (text ((header label (some revision)).drop 1)) =
      (Text.splitBy (· = '\n') ("// Schema ref: " ++ revision.text).toList).map String.ofList := by
  rw [linesOf_text]
  exact List.flatMap_singleton _ _

theorem linesOf_drop_header_eq_iff :
    linesOf (text ((header label (some revision)).drop 1)) = ["// Schema ref: " ++ revision.text] ↔
      '\n' ∉ revision.text.toList := by
  constructor
  · intro hone hmem
    have hline : "// Schema ref: " ++ revision.text ∈
        linesOf (text ((header label (some revision)).drop 1)) := hone ▸ List.mem_singleton_self _
    rw [linesOf_drop_header] at hline
    obtain ⟨piece, hpiece, hsame⟩ := List.mem_map.mp hline
    refine newline_notMem_of_mem_splitBy hpiece ?_
    rw [← @String.toList_ofList piece, hsame, String.toList_append]
    exact List.mem_append_right _ hmem
  · intro hnone
    refine linesOf_text_of_notMem fun line hline => ?_
    obtain rfl := List.mem_singleton.mp hline
    rw [String.toList_append, List.mem_append, not_or]
    exact ⟨by decide, hnone⟩

theorem return_mem_drop_header_iff :
    (∃ line ∈ linesOf (text ((header label (some revision)).drop 1)), '\r' ∈ line.toList) ↔
      '\r' ∈ revision.text.toList := by
  rw [linesOf_drop_header]
  constructor
  · rintro ⟨line, hline, hmem⟩
    obtain ⟨piece, hpiece, rfl⟩ := List.mem_map.mp hline
    rw [String.toList_ofList] at hmem
    have hwhole := (Text.infix_of_mem_splitBy hpiece).subset hmem
    rw [String.toList_append, List.mem_append] at hwhole
    exact hwhole.resolve_left (by decide)
  · intro hmem
    have hwithin : ['\r'] <:+: ("// Schema ref: " ++ revision.text).toList :=
      (List.singleton_infix_iff _ _).mpr (by simp [hmem])
    obtain ⟨piece, hpiece, hin⟩ :=
      Text.exists_piece_of_isInfix (p := (· = '\n')) hwithin (by simp)
    refine ⟨_, List.mem_map_of_mem hpiece, ?_⟩
    rw [String.toList_ofList]
    exact hin.subset List.mem_cons_self

end Header

/-- Every line of a description stands behind its marker, and holds a carriage return only where
the description encloses one; a revision is one line behind its marker exactly if its text is one
line. -/
theorem comments_hold {indent : String} (hindent : '\n' ∉ indent.toList ∧ '\r' ∉ indent.toList) :
    (∀ description,
      (∀ line ∈ linesOf (text (docs true indent (some description))),
        ∃ rest, line = indent ++ "///" ++ rest) ∧
      ((∃ line ∈ linesOf (text (docs true indent (some description))), '\r' ∈ line.toList) ↔
        EnclosedReturn description)) ∧
    ∀ label revision,
      (linesOf (text ((header label (some revision)).drop 1)) =
          ["// Schema ref: " ++ revision.text] ↔ '\n' ∉ revision.text.toList) ∧
      ((∃ line ∈ linesOf (text ((header label (some revision)).drop 1)), '\r' ∈ line.toList) ↔
        '\r' ∈ revision.text.toList) := by
  refine ⟨fun description => ⟨?_, ?_⟩, fun label revision =>
    ⟨linesOf_drop_header_eq_iff label revision, return_mem_drop_header_iff label revision⟩⟩
  · intro line hline
    rw [linesOf_docs hindent.1] at hline
    obtain ⟨body, -, rfl⟩ := List.mem_map.mp hline
    exact ⟨_, rfl⟩
  · rw [linesOf_docs hindent.1, ← exists_return_iff]
    simp only [List.mem_map, exists_exists_and_eq_and, mem_commentLine_iff (c := '\r') (by decide)]
    simp [hindent.2]

/-- A description with an enclosed return, one without, and a revision. -/
theorem comments_hold_indented :
    (∃ line ∈ linesOf (text (docs true step (some "left\rright"))), '\r' ∈ line.toList) ∧
      (∀ line ∈ linesOf (text (docs true step (some "first\r\n\nsecond\r"))),
        ∃ rest, line = step ++ "///" ++ rest) ∧
      linesOf (text ((header "schema/schema.json" (some ⟨"v1"⟩)).drop 1)) =
        ["// Schema ref: v1"] := by
  have hstep : '\n' ∉ step.toList ∧ '\r' ∉ step.toList := by decide
  obtain ⟨hdocs, hheader⟩ := comments_hold hstep
  refine ⟨(hdocs _).2.mpr ?_, (hdocs _).1, (hheader _ _).1.mpr (by decide)⟩
  exact ⟨'t', [], [], 'r', ⟨"lef".toList, "ight".toList, by decide⟩, by decide, by decide,
    by decide, by decide⟩

/-! ## Text that leaves its comment -/

/-- A return inside a line is left in a comment, where no source may have one; and the second line
of a revision is a line of the source. -/
theorem text_leaves_comment :
    linesOf (text (docs true "" (some "left\rright"))) = ["/// left\rright"] ∧
      (Revision.ofText? "v1\nfn\n").map (fun revision =>
        linesOf (text (header "schema/schema.json" (some revision)))) =
        some ["// Generated from schema/schema.json. Do not edit by hand.", "// Schema ref: v1",
          "fn"] := by
  decide

end SchemaCompiler.Render
