import SchemaCompiler.Proofs.Command.Check

/-!
# Runs that their inputs make fail

Each part of a run writes as soon as it has its text.  A run that fails because of its inputs has
changed no file, with one exception: where both outputs are generated, the text of the schema is
written before the method table is looked at (`files_eq_iff_of_failed`).
-/

namespace SchemaCompiler.Command

open FileTree (Grows)

def Outcome.FailsByInput : Outcome → Prop
  | .failed error => error.OfInput
  | _ => False

instance : DecidablePred Outcome.FailsByInput
  | .failed error => inferInstanceAs (Decidable error.OfInput)
  | .upToDate | .stale => .isFalse id

variable {revision : Option Revision} {error : RunError} {tree after : FileTree}

/-- Where a run fails because of its inputs, the first part has no text, or it has written its text
and a later part fails. -/
theorem concludeAll_cons_eq_failed {part : Part} {rest : List Part}
    (h : concludeAll revision false (part :: rest) tree = (.failed error, after))
    (hinput : error.OfInput) :
    (part.text revision (tree.read part.input) = .error error ∧ after = tree) ∨
      ∃ text middle, part.text revision (tree.read part.input) = .ok text ∧
        Grows [Path.place part.output] tree middle ∧
        middle.file? (Path.place part.output) = some text ∧
        concludeAll revision false rest middle = (.failed error, after) := by
  rcases concludeAll_cons_cases revision part rest tree with
    ⟨fault, htext, hrun⟩ | ⟨fault, last, hcause, -, hrun⟩ |
      ⟨text, middle, htext, hgrows, hfile, -, hrun⟩
  · rw [hrun] at h
    cases h
    exact Or.inl ⟨htext, rfl⟩
  · rw [hrun] at h
    cases h
    exact absurd hinput hcause
  · exact Or.inr ⟨text, middle, htext, hgrows, hfile, hrun ▸ h⟩

/-- A single part that fails because of its input has written nothing. -/
theorem eq_of_concludeAll_singleton {part : Part}
    (h : concludeAll revision false [part] tree = (.failed error, after))
    (hinput : error.OfInput) : after = tree := by
  rcases concludeAll_cons_eq_failed h hinput with ⟨-, hafter⟩ | ⟨text, middle, -, -, -, hrest⟩
  · exact hafter
  · cases hrest

variable {environment : List (String × String)} {args : List String} {arguments : Arguments}

/-- The text of the schema and its place, where they are written before the method table is looked
at. -/
def WritesFirst (environment : List (String × String)) (arguments : Arguments) (tree : FileTree)
    (place : Path.Place) (text : String) : Prop :=
  arguments.task = .all ∧ arguments.options.check = false ∧
    ∃ settings revision, settingsOf environment arguments tree = .ok settings ∧
      revisionOf settings tree = .ok revision ∧
      (schemaPart settings).text revision (tree.read settings.schemaPath) = .ok text ∧
      place = Path.place settings.schemaOutput

theorem WritesFirst.unique {place other : Path.Place} {text content : String}
    (h : WritesFirst environment arguments tree place text)
    (hother : WritesFirst environment arguments tree other content) :
    place = other ∧ text = content := by
  obtain ⟨-, -, settings, revision, hsettings, hrevision, htext, rfl⟩ := h
  obtain ⟨-, -, found, again, hfound, hagain, hcontent, rfl⟩ := hother
  obtain rfl : settings = found := Except.ok.inj (hsettings.symm.trans hfound)
  obtain rfl : revision = again := Except.ok.inj (hrevision.symm.trans hagain)
  exact ⟨rfl, Except.ok.inj (htext.symm.trans hcontent)⟩

theorem after_of_failed_parts {settings : Settings}
    (hsettings : settingsOf environment arguments tree = .ok settings)
    (hrevision : revisionOf settings tree = .ok revision)
    (h : concludeAll revision arguments.options.check (arguments.task.parts settings) tree =
      (.failed error, after))
    (hinput : error.OfInput) :
    (after = tree ∧ ∀ place text, ¬WritesFirst environment arguments tree place text) ∨
      ∃ place text, WritesFirst environment arguments tree place text ∧
        Grows [place] tree after ∧ after.file? place = some text := by
  cases hcheck : arguments.options.check with
  | true =>
      obtain ⟨outcome, hconclude, -⟩ :=
        concludeAll_check revision (arguments.task.parts settings) tree
      rw [hcheck, hconclude] at h
      exact Or.inl ⟨(Prod.mk.inj h).2.symm, by simp [WritesFirst, hcheck]⟩
  | false =>
      rw [hcheck] at h
      cases htask : arguments.task with
      | schema =>
          rw [htask] at h
          exact Or.inl ⟨eq_of_concludeAll_singleton h hinput, by simp [WritesFirst, htask]⟩
      | methods =>
          rw [htask] at h
          exact Or.inl ⟨eq_of_concludeAll_singleton h hinput, by simp [WritesFirst, htask]⟩
      | all =>
          rw [htask] at h
          rcases concludeAll_cons_eq_failed h hinput with
            ⟨hfailed, hafter⟩ | ⟨text, middle, htext, hgrows, hfile, hrest⟩
          · refine Or.inl ⟨hafter, ?_⟩
            rintro place text ⟨-, -, found, again, hfound, hagain, htext, -⟩
            obtain rfl : settings = found := Except.ok.inj (hsettings.symm.trans hfound)
            obtain rfl : revision = again := Except.ok.inj (hrevision.symm.trans hagain)
            cases hfailed.symm.trans htext
          · obtain rfl := eq_of_concludeAll_singleton hrest hinput
            exact Or.inr ⟨_, text, ⟨htask, hcheck, settings, revision, hsettings, hrevision, htext,
              rfl⟩, hgrows, hfile⟩

/-- What a run has done to the tree when it fails because of its inputs: nothing, or it has put the
text of the schema in its place. -/
theorem after_of_failed (h : conclude tree (session environment arguments) = (.failed error, after))
    (hinput : error.OfInput) :
    (after = tree ∧ ∀ place text, ¬WritesFirst environment arguments tree place text) ∨
      ∃ place text, WritesFirst environment arguments tree place text ∧
        Grows [place] tree after ∧ after.file? place = some text := by
  rw [conclude_session] at h
  cases hsettings : settingsOf environment arguments tree with
  | error fault =>
      rw [hsettings] at h
      cases h
      exact Or.inl ⟨rfl, by simp [WritesFirst, hsettings]⟩
  | ok settings =>
      simp only [hsettings, conclude_run] at h
      cases hrevision : revisionOf settings tree with
      | error fault =>
          rw [hrevision] at h
          cases h
          exact Or.inl ⟨rfl, by simp [WritesFirst, hsettings, hrevision]⟩
      | ok revision =>
          simp only [hrevision] at h
          exact after_of_failed_parts hsettings hrevision h hinput

/-- A method table without a schema. -/
def schemalessTree : FileTree :=
  .ofFiles [(["schema", "meta.json"], Json.text (.object []))]

/-- A schema without a method table. -/
def methodlessTree : FileTree :=
  .ofFiles [(["schema", "schema.json"], Json.text (.object [("$defs", .object [])]))]

end SchemaCompiler.Command
