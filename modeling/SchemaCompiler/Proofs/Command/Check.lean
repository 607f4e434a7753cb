import SchemaCompiler.Proofs.Command.Arguments
import SchemaCompiler.Proofs.Command.Run
import SchemaCompiler.Proofs.Fallible

/-!
# Checking

A check leaves the tree as it is and is up to date exactly if every output holds what is generated
for it.  A run that wrote its outputs is up to date when it is checked (`run_checks`), if what it
wrote is not what it reads: then everything it read still reads the same, which is where the bounds
on the growth of a tree are used (`revisionOf_eq_of_grows`, `concludeAll_write`).
-/

namespace SchemaCompiler.Command

open FileTree (Grows)

variable {settings : Settings} {task : Task} {revision : Option Revision} {tree after : FileTree}

/-- An output holds the text that its part has for a tree. -/
def Part.UpToDate (part : Part) (revision : Option Revision) (tree : FileTree) : Prop :=
  ∃ text, part.text revision (tree.read part.input) = .ok text ∧ tree.read part.output = .ok text

/-! ## A check -/

theorem Part.conclude_check (part : Part) (revision : Option Revision) (tree : FileTree) :
    ∃ outcome, part.conclude revision true tree = (outcome, tree) ∧
      (outcome = .upToDate ↔ part.UpToDate revision tree) := by
  rw [Part.conclude, Part.UpToDate]
  cases part.text revision (tree.read part.input) with
  | error error => exact ⟨_, rfl, by simp⟩
  | ok text =>
      refine ⟨_, conclude_checkFile part.output text, ?_⟩
      rw [checked_eq_upToDate_iff]
      simp

theorem concludeAll_check (revision : Option Revision) (parts : List Part) (tree : FileTree) :
    ∃ outcome, concludeAll revision true parts tree = (outcome, tree) ∧
      (outcome = .upToDate ↔ ∀ part ∈ parts, part.UpToDate revision tree) := by
  induction parts with
  | nil => exact ⟨_, rfl, by simp⟩
  | cons part rest ih =>
      obtain ⟨first, hfirst, hpart⟩ := part.conclude_check revision tree
      obtain ⟨last, hlast, hrest⟩ := ih
      rw [List.forall_mem_cons, ← hpart, ← hrest, concludeAll, hfirst]
      cases first with
      | failed error => exact ⟨_, rfl, by simp⟩
      | _ => simp [hlast, join_eq_upToDate_iff]

theorem text_of_part_eq_ok_iff {part : Part} {output : String × String} :
    (do return (part.output, ← part.text revision (tree.read part.input))) =
        (.ok output : Except RunError (String × String)) ↔
      part.text revision (tree.read part.input) = .ok output.2 ∧ part.output = output.1 := by
  cases part.text revision (tree.read part.input) with
  | error error => simp [bind, Except.bind]
  | ok text =>
      show Except.ok (part.output, text) = .ok output ↔ _
      rw [Except.ok.injEq, Except.ok.injEq, Prod.ext_iff, and_comm]

/-- What is generated stands in the outputs exactly if every part is up to date. -/
theorem generated_stands_iff :
    (∃ texts, generated settings task tree = .ok texts ∧
        ∀ output ∈ texts, tree.read output.1 = .ok output.2) ↔
      ∃ revision, revisionOf settings tree = .ok revision ∧
        ∀ part ∈ task.parts settings, part.UpToDate revision tree := by
  constructor
  · rintro ⟨texts, hgenerated, hstands⟩
    obtain ⟨revision, hrevision, htexts⟩ := Fallible.bind_eq_ok_iff.mp hgenerated
    refine ⟨revision, hrevision, fun part hpart => ?_⟩
    obtain ⟨output, houtput, hresult⟩ := Fallible.exists_result_of_mem_of_mapM htexts hpart
    obtain ⟨htext, hpath⟩ := text_of_part_eq_ok_iff.mp hresult
    exact ⟨output.2, htext, hpath ▸ hstands output houtput⟩
  · rintro ⟨revision, hrevision, hparts⟩
    obtain ⟨texts, htexts⟩ := Fallible.exists_mapM_eq_ok fun part hpart =>
      let ⟨text, htext, _⟩ := hparts part hpart
      ⟨(part.output, text), text_of_part_eq_ok_iff.mpr ⟨htext, rfl⟩⟩
    refine ⟨texts, Fallible.bind_eq_ok_iff.mpr ⟨revision, hrevision, htexts⟩, ?_⟩
    intro output houtput
    obtain ⟨part, hpart, hresult⟩ := Fallible.exists_of_mem_of_mapM htexts houtput
    obtain ⟨htext, hpath⟩ := text_of_part_eq_ok_iff.mp hresult
    obtain ⟨text, hsame, hread⟩ := hparts part hpart
    rw [htext] at hsame
    rw [← hpath, hread, Except.ok.inj hsame]

/-! ## Writing -/

/-- A part makes no text of an input that could not be read. -/
def Part.Reads (part : Part) : Prop :=
  ∀ revision fault text, part.text revision (.error fault) ≠ .ok text

theorem reads_of_mem_parts {part : Part} (h : part ∈ task.parts settings) : part.Reads := by
  have hschema : (schemaPart settings).Reads := fun revision fault text => nofun
  have hmethods : (methodPart settings).Reads := fun revision fault text => nofun
  cases task with
  | schema => exact List.mem_singleton.mp h ▸ hschema
  | methods => exact List.mem_singleton.mp h ▸ hmethods
  | all =>
      rcases List.mem_pair.mp h with rfl | rfl
      · exact hschema
      · exact hmethods

theorem Part.Reads.exists_read {part : Part} (h : part.Reads) {text : String}
    (htext : part.text revision (tree.read part.input) = .ok text) :
    ∃ content, tree.read part.input = .ok content := by
  cases hread : tree.read part.input with
  | ok content => exact ⟨content, rfl⟩
  | error fault => exact absurd (hread ▸ htext) (h revision fault text)

/-- A run that writes goes on only behind a text that stands in its place. -/
theorem concludeAll_cons_eq_upToDate {part : Part} {rest : List Part}
    (h : concludeAll revision false (part :: rest) tree = (.upToDate, after)) :
    ∃ text middle, part.text revision (tree.read part.input) = .ok text ∧
      Grows [Path.place part.output] tree middle ∧ middle.read part.output = .ok text ∧
        concludeAll revision false rest middle = (.upToDate, after) := by
  rcases concludeAll_cons_cases revision part rest tree with
    ⟨error, -, hrun⟩ | ⟨error, last, -, -, hrun⟩ | ⟨text, middle, htext, hgrows, -, hread, hrun⟩
  · rw [hrun] at h
    cases h
  · rw [hrun] at h
    cases h
  · exact ⟨text, middle, htext, hgrows, hread, hrun ▸ h⟩

/-- What a successful run has written: all outputs, and nothing else. -/
theorem concludeAll_write {parts : List Part} (hreads : ∀ part ∈ parts, part.Reads)
    (hdistinct : (parts.map fun part => Path.place part.output).Nodup)
    (hinputs : ∀ part ∈ parts, ∀ other ∈ parts, Path.place part.output ≠ Path.place other.input)
    (h : concludeAll revision false parts tree = (.upToDate, after)) :
    Grows (parts.map fun part => Path.place part.output) tree after ∧
      ∀ part ∈ parts, part.UpToDate revision after := by
  induction parts generalizing tree with
  | nil =>
      cases h
      exact ⟨.refl _, by simp⟩
  | cons part rest ih =>
      obtain ⟨text, middle, htext, hgrows, hread, hrest⟩ := concludeAll_cons_eq_upToDate h
      obtain ⟨hnew, hdistinct⟩ := List.nodup_cons.mp hdistinct
      obtain ⟨hmore, hall⟩ := ih (fun part hpart => hreads part (List.mem_cons_of_mem _ hpart))
        hdistinct (fun part hpart other hother => hinputs part (List.mem_cons_of_mem _ hpart) other
          (List.mem_cons_of_mem _ hother)) hrest
      have hwhole := hgrows.trans hmore
      refine ⟨hwhole, List.forall_mem_cons.mpr ⟨⟨text, ?_, hmore.read_ok hread hnew⟩, hall⟩⟩
      obtain ⟨content, hcontent⟩ := (hreads part List.mem_cons_self).exists_read htext
      have hplace : Path.place part.input ∉
          Path.place part.output :: rest.map fun part => Path.place part.output := by
        rw [List.mem_cons, List.mem_map, not_or]
        refine ⟨(hinputs part List.mem_cons_self part List.mem_cons_self).symm, ?_⟩
        rintro ⟨other, hother, hsame⟩
        exact hinputs other (List.mem_cons_of_mem _ hother) part List.mem_cons_self hsame
      rw [hwhole.read_ok hcontent hplace, ← hcontent]
      exact htext

/-! ## Running again -/

/-- The inputs of a run stand in one directory. -/
theorem exists_base (settings : Settings) :
    ∃ base, settings.revisionPath = base ++ "VERSION" ∧
      ∀ task : Task, ∀ part ∈ task.parts settings,
        ∃ name, '/' ∉ name.toList ∧ part.input = base ++ name := by
  obtain ⟨base, hjoin⟩ := Path.exists_join_eq_append settings.schemaDirectory
  have hschema : settings.schemaPath = base ++ "schema.json" := hjoin _ (by decide)
  have hmethods : settings.methodsPath = base ++ "meta.json" := hjoin _ (by decide)
  refine ⟨base, hjoin _ (by decide), fun task part hpart => ?_⟩
  have hinput : part.input = settings.schemaPath ∨ part.input = settings.methodsPath := by
    cases task with
    | schema => exact Or.inl (List.mem_singleton.mp hpart ▸ rfl)
    | methods => exact Or.inr (List.mem_singleton.mp hpart ▸ rfl)
    | all =>
        rcases List.mem_pair.mp hpart with rfl | rfl
        · exact Or.inl rfl
        · exact Or.inr rfl
  rcases hinput with hinput | hinput
  · exact ⟨"schema.json", by decide, hinput.trans hschema⟩
  · exact ⟨"meta.json", by decide, hinput.trans hmethods⟩

/-- The revision is as it was, unless a directory has taken its place. -/
theorem revisionOf_eq_of_grows {written : List Path.Place} (h : Grows written tree after)
    {part : Part} (hpart : part ∈ task.parts settings) {content : String}
    (hread : tree.read part.input = .ok content)
    (hwritten : Path.place settings.revisionPath ∉ written)
    (hdirectory : after.read settings.revisionPath ≠ .error .isDirectory) :
    revisionOf settings after = revisionOf settings tree := by
  obtain ⟨base, hrevision, hinputs⟩ := exists_base settings
  obtain ⟨name, hname, hinput⟩ := hinputs task part hpart
  rw [hrevision] at hwritten hdirectory
  rw [hinput] at hread
  rw [revisionOf, revisionOf, hrevision]
  rcases h.read_beside hread hname (by decide) hwritten with hsame | ⟨-, hnew⟩
  · rw [hsame]
  · exact absurd hnew hdirectory

/-- What a command line reads with its settings: the candidates for settings, the revision, and
what its task is about. -/
def inputs (environment : List (String × String)) (arguments : Arguments) (settings : Settings) :
    List String :=
  Settings.candidates environment (arguments.options.get? .configuration) ++
    settings.revisionPath :: (arguments.task.parts settings).map (·.input)

/-- What a run writes is apart from what it reads, and the directories that it makes put nothing
new in the way of its inputs: none has the name of the revision, and none opens the way to a
configuration of the user. -/
structure Apart (environment : List (String × String)) (arguments : Arguments)
    (settings : Settings) (before after : FileTree) : Prop where
  outputs_nodup :
    ((arguments.task.parts settings).map fun part => Path.place part.output).Nodup
  output_ne_input : ∀ part ∈ arguments.task.parts settings,
    ∀ input ∈ inputs environment arguments settings, Path.place part.output ≠ Path.place input
  revision_ne_directory : after.read settings.revisionPath ≠ .error .isDirectory
  user_not_new : ∀ path, Settings.userLocation? environment = some path → ".." ∈ Path.parts path →
    ∀ content, after.read path = .ok content → before.read path = .ok content

section Execute

variable {environment : List (String × String)} {args : List String} {arguments : Arguments}

theorem code_execute_eq_zero_iff (h : Arguments.read? args = some arguments) :
    (tree.answer (execute environment args)).code = 0 ↔
      ∃ settings revision, settingsOf environment arguments tree = .ok settings ∧
        revisionOf settings tree = .ok revision ∧
        (concludeAll revision arguments.options.check (arguments.task.parts settings) tree).1 =
          .upToDate := by
  rw [answer_execute h, code_eq_zero_iff]
  show (conclude tree (session environment arguments)).1 = _ ↔ _
  rw [conclude_session]
  cases settingsOf environment arguments tree with
  | error error => simp
  | ok settings =>
      simp only [conclude_run]
      cases hrevision : revisionOf settings tree with
      | error error => simp [hrevision]
      | ok revision => simp [hrevision]

theorem after_execute_eq (h : Arguments.read? args = some arguments)
    (hsettings : settingsOf environment arguments tree = .ok settings)
    (hrevision : revisionOf settings tree = .ok revision) :
    tree.after (execute environment args) =
      (concludeAll revision arguments.options.check (arguments.task.parts settings) tree).2 := by
  rw [after_execute h]
  show (conclude tree (session environment arguments)).2 = _
  rw [conclude_session, hsettings]
  simp only [conclude_run, hrevision]

theorem after_execute_check (h : Arguments.read? args = some arguments)
    (hcheck : arguments.options.check = true) : tree.after (execute environment args) = tree := by
  rw [after_execute h]
  show (conclude tree (session environment arguments)).2 = tree
  rw [conclude_session]
  cases settingsOf environment arguments tree with
  | error error => rfl
  | ok settings =>
      simp only [conclude_run]
      cases revisionOf settings tree with
      | error error => rfl
      | ok revision =>
          obtain ⟨outcome, hconclude, -⟩ :=
            concludeAll_check revision (arguments.task.parts settings) tree
          simp only [hcheck, hconclude]

/-- A check is up to date exactly if what is generated stands in the outputs. -/
theorem code_check_eq_zero_iff (h : Arguments.read? args = some arguments)
    (hcheck : arguments.options.check = true) :
    (tree.answer (execute environment args)).code = 0 ↔
      ∃ settings texts, settingsOf environment arguments tree = .ok settings ∧
        generated settings arguments.task tree = .ok texts ∧
        ∀ output ∈ texts, tree.read output.1 = .ok output.2 := by
  rw [code_execute_eq_zero_iff h, hcheck]
  refine exists_congr fun settings => ?_
  rw [exists_and_left, exists_and_left, generated_stands_iff]
  refine and_congr_right fun _ => exists_congr fun revision => and_congr_right fun _ => ?_
  obtain ⟨outcome, hconclude, houtcome⟩ :=
    concludeAll_check revision (arguments.task.parts settings) tree
  rw [hconclude]
  exact houtcome

/-- Behind a run that wrote its outputs, a check finds them up to date. -/
theorem code_check_of_write (h : Arguments.read? args = some arguments)
    (hwrite : arguments.options.check = false)
    (hcode : (tree.answer (execute environment args)).code = 0)
    (hsettings : settingsOf environment arguments tree = .ok settings)
    (hafter : tree.after (execute environment args) = after)
    (hapart : Apart environment arguments settings tree after) {checkArgs : List String}
    (hcheck : Arguments.read? checkArgs = some arguments.checking) :
    (after.answer (execute environment checkArgs)).code = 0 := by
  obtain ⟨found, revision, hfound, hrevision, houtcome⟩ := (code_execute_eq_zero_iff h).mp hcode
  obtain rfl : settings = found := Except.ok.inj (hsettings.symm.trans hfound)
  rw [after_execute_eq h hsettings hrevision, hwrite] at hafter
  rw [hwrite] at houtcome
  have hrun :
      concludeAll revision false (arguments.task.parts settings) tree = (.upToDate, after) :=
    Prod.ext houtcome hafter
  -- what was written is in place, and nothing that was read is among it
  obtain ⟨hgrows, hparts⟩ := concludeAll_write (fun part hpart => reads_of_mem_parts hpart)
    hapart.outputs_nodup (fun part hpart other hother => hapart.output_ne_input part hpart _
      (List.mem_append_right _ (List.mem_cons_of_mem _ (List.mem_map_of_mem hother)))) hrun
  have hwritten : ∀ input ∈ inputs environment arguments settings, Path.place input ∉
      (arguments.task.parts settings).map fun part => Path.place part.output := by
    intro input hinput hmem
    obtain ⟨part, hpart, hplace⟩ := List.mem_map.mp hmem
    exact hapart.output_ne_input part hpart input hinput hplace
  refine (code_execute_eq_zero_iff hcheck).mpr ⟨settings, revision, ?_, ?_, ?_⟩
  · obtain ⟨loaded, hload, hoverride⟩ := Fallible.map_eq_ok_iff.mp hsettings
    exact Fallible.map_eq_ok_iff.mpr ⟨loaded, Settings.load_eq_of_grows hgrows
      (fun path hpath => hwritten path (List.mem_append_left _ hpath)) hapart.user_not_new hload,
      hoverride⟩
  · obtain ⟨part, rest, hcons⟩ : ∃ part rest, arguments.task.parts settings = part :: rest := by
      cases arguments.task <;> exact ⟨_, _, rfl⟩
    have hpart : part ∈ arguments.task.parts settings := hcons ▸ List.mem_cons_self
    rw [hcons] at hrun
    obtain ⟨text, middle, htext, -⟩ := concludeAll_cons_eq_upToDate hrun
    obtain ⟨content, hcontent⟩ := (reads_of_mem_parts hpart).exists_read htext
    rw [revisionOf_eq_of_grows hgrows hpart hcontent
      (hwritten _ (List.mem_append_right _ List.mem_cons_self)) hapart.revision_ne_directory]
    exact hrevision
  · obtain ⟨outcome, hconclude, houtcome⟩ :=
      concludeAll_check revision (arguments.task.parts settings) after
    exact hconclude ▸ houtcome.mpr hparts

/-- A check leaves every tree as it is, and answers that all is up to date exactly if the settings
can be loaded, everything can be generated and every output holds its text.  Where a run has
succeeded that wrote outputs apart from its inputs, the same command line as a check answers so. -/
theorem checks_agree (h : Arguments.read? args = some arguments) (tree : FileTree) :
    (arguments.options.check = true →
      tree.after (execute environment args) = tree ∧
        ((tree.answer (execute environment args)).code = 0 ↔
          ∃ settings texts, settingsOf environment arguments tree = .ok settings ∧
            generated settings arguments.task tree = .ok texts ∧
            ∀ output ∈ texts, tree.read output.1 = .ok output.2)) ∧
    (arguments.options.check = false →
      (tree.answer (execute environment args)).code = 0 →
      ∀ settings after, settingsOf environment arguments tree = .ok settings →
        tree.after (execute environment args) = after →
        Apart environment arguments settings tree after →
        ∀ checkArgs, Arguments.read? checkArgs = some arguments.checking →
          (after.answer (execute environment checkArgs)).code = 0) :=
  ⟨fun hcheck => ⟨after_execute_check h hcheck, code_check_eq_zero_iff h hcheck⟩,
    fun hwrite hcode _ _ hsettings hafter hapart _ hcheck =>
      code_check_of_write h hwrite hcode hsettings hafter hapart hcheck⟩

end Execute

/-- A project with a configuration, a schema, a method table and a revision. -/
def projectTree : FileTree :=
  .ofFiles
    [(["acp-codegen.toml"], "[output]\ndir = \"out\"\n"),
      (["schema", "schema.json"],
        Json.text (.object [("$defs", .object [("Id", .object [("type", .string "string")])])])),
      (["schema", "meta.json"],
        Json.text (.object [("agentMethods", .object [("open", .string "session/open")])])),
      (["schema", "VERSION"], "v1\n")]

def projectSettings : Settings :=
  { Settings.standard with outputDirectory := "out" }

/-- The project is generated and then up to date. -/
theorem checks_agree_project :
    Arguments.read? ["all"] = some ⟨.all, .empty⟩ ∧
      (projectTree.answer (execute [("HOME", "/home")] ["all"])).code = 0 ∧
      ((projectTree.after (execute [("HOME", "/home")] ["all"])).answer
        (execute [("HOME", "/home")] ["--check", "all"])).code = 0 := by
  have hread : Arguments.read? ["all"] = some ⟨.all, .empty⟩ := by decide
  have hcode : (projectTree.answer (execute [("HOME", "/home")] ["all"])).code = 0 := by
    decide +kernel
  obtain ⟨settings, hsettings, rfl⟩ := Fallible.exists_of_toOption_map_eq_some
    (show ((settingsOf [("HOME", "/home")] ⟨.all, .empty⟩ projectTree).toOption.map id) =
      some projectSettings by decide +kernel)
  refine ⟨hread, hcode,
    (checks_agree hread projectTree).2 rfl hcode projectSettings _ hsettings rfl ⟨?_, ?_, ?_, ?_⟩
      ["--check", "all"] (Arguments.read?_cons_check hread rfl)⟩
  · decide
  · decide
  · decide +kernel
  · intro path hpath hup
    obtain rfl : _ = path := Option.some.inj hpath
    exact absurd hup (by decide)

/-! ## Directories in the way -/

/-- Without a revision, an output directory may have its name. -/
def hiddenArgs : List String :=
  ["all", "--schema-dir", "schema", "--output-dir", "schema/VERSION"]

def hiddenTree : FileTree :=
  .ofFiles
    [(["schema", "schema.json"], Json.text (.object [("$defs", .object [])])),
      (["schema", "meta.json"], Json.text (.object []))]

def hiddenSettings : Settings :=
  { Settings.standard with outputDirectory := "schema/VERSION" }

/-- A configuration of the user that is not found until its path leads through the output. -/
def detourTree : FileTree :=
  .ofFiles
    [(["schema", "schema.json"], Json.text (.object [("$defs", .object [])])),
      ([".config", "acp-codegen", "acp-codegen.toml"], "[output]\nschema_file = \"other.rs\"\n")]

def detourArgs : List String :=
  ["schema", "--output-dir", "out"]

def detourSettings : Settings :=
  { Settings.standard with outputDirectory := "out" }

/-- Runs that succeed, with distinct outputs apart from all inputs, yet the check is not up to
date: the revision has become a directory, or other settings have been found. -/
theorem checks_disagree :
    ((hiddenTree.answer (execute [] hiddenArgs)).code = 0 ∧
      ((Task.all.parts hiddenSettings).map fun part => Path.place part.output).Nodup ∧
      (∀ part ∈ Task.all.parts hiddenSettings,
        ∀ input ∈ inputs [] ⟨.all, .empty⟩ hiddenSettings,
          Path.place part.output ≠ Path.place input) ∧
      ((hiddenTree.after (execute [] hiddenArgs)).answer
        (execute [] ("--check" :: hiddenArgs))).code = 1) ∧
    ((detourTree.answer (execute [("HOME", "out/..")] detourArgs)).code = 0 ∧
      (∀ part ∈ Task.schema.parts detourSettings,
        ∀ input ∈ inputs [("HOME", "out/..")] ⟨.schema, .empty⟩ detourSettings,
          Path.place part.output ≠ Path.place input) ∧
      ((detourTree.after (execute [("HOME", "out/..")] detourArgs)).answer
        (execute [("HOME", "out/..")] ("--check" :: detourArgs))).code = 1) := by
  decide +kernel

end SchemaCompiler.Command
