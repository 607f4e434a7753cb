import Mathlib.Tactic.ByContra
import SchemaCompiler.Proofs.Fallible
import SchemaCompiler.Proofs.Files.Program
import SchemaCompiler.Proofs.Files.Tree
import SchemaCompiler.Settings.Load

/-!
# What loading settings reads

Loading settings only reads, and what it learns are the texts of the candidates
(`consults_load`).  It succeeds only if the file that was asked for is there, under its name or
with one of the endings that are tried (`exists_read_of_load`).
-/

namespace SchemaCompiler.Settings

open FileTree (Consults Grows answer_bind answer_pure answer_read after_read)

/-- The names under which a file is looked for. -/
def spellings (path : String) : List String :=
  path :: forms.map fun form => path ++ "." ++ form

/-- The files that may hold settings. -/
def candidates (environment : List (String × String)) (explicit : Option String) : List String :=
  locations.flatMap spellings ++ (userLocation? environment).toList ++
    explicit.toList.flatMap spellings

theorem exists_ending_of_mem_spellings {path name : String} (h : name ∈ spellings path) :
    ∃ ending, '/' ∉ ending.toList ∧ name = path ++ ending := by
  rcases List.mem_cons.mp h with rfl | h
  · exact ⟨"", by decide, by simp⟩
  · obtain ⟨form, hform, rfl⟩ := List.mem_map.mp h
    refine ⟨"." ++ form, ?_, by rw [String.append_assoc]⟩
    have hforms : ∀ form ∈ forms, '/' ∉ ("." ++ form).toList := by decide
    exact hforms form hform

/-! ## Loading only reads -/

section Consults

variable {paths : List String}

theorem consults_firstFile {files : List (String × String)}
    (h : ∀ file ∈ files, file.2 ∈ paths) : Consults paths (firstFile files) := by
  induction files with
  | nil => exact .pure _
  | cons file rest ih =>
      obtain ⟨hfile, hrest⟩ := List.forall_mem_cons.mp h
      exact .read_or hfile (fun _ => .pure _) (ih hrest)

theorem consults_readSource {path : String} (h : spellings path ⊆ paths) :
    Consults paths (readSource path) := by
  refine .read_or (h List.mem_cons_self) (fun content => ?_)
    (consults_firstFile fun file hfile => ?_)
  · split
    · split
      · exact .pure _
      · exact .pure _
    · exact .pure _
  · obtain ⟨form, hform, rfl⟩ := List.mem_map.mp hfile
    exact h (List.mem_cons_of_mem _ (List.mem_map_of_mem hform))

theorem consults_readOptional {path : String} (h : spellings path ⊆ paths) :
    Consults paths (readOptional path) :=
  (consults_readSource h).bind fun _ => .pure _

theorem consults_readUserFile {path : String} (h : path ∈ paths) :
    Consults paths (readUserFile path) :=
  (consults_firstFile (by simpa using h)).bind fun _ => .pure _

theorem consults_readExplicit {path : String} (h : spellings path ⊆ paths) :
    Consults paths (readExplicit path) :=
  (consults_readSource h).bind fun _ => .pure _

end Consults

variable (environment : List (String × String)) (explicit : Option String)

theorem consults_shared :
    Consults (candidates environment explicit) (locations.mapM readOptional) :=
  .mapM fun path hpath => consults_readOptional fun name hname => by
    simp only [candidates, List.mem_append, List.mem_flatMap]
    exact Or.inl (Or.inl ⟨path, hpath, hname⟩)

theorem consults_own : Consults (candidates environment explicit)
    ((userLocation? environment).toList.mapM readUserFile) :=
  .mapM fun path hpath => consults_readUserFile (by
    simp only [candidates, List.mem_append]
    exact Or.inl (Or.inr hpath))

theorem consults_asked :
    Consults (candidates environment explicit) (explicit.toList.mapM readExplicit) :=
  .mapM fun path hpath => consults_readExplicit fun name hname => by
    simp only [candidates, List.mem_append, List.mem_flatMap]
    exact Or.inr ⟨path, hpath, hname⟩

theorem consults_load :
    Consults (candidates environment explicit) (load environment explicit) :=
  (consults_shared environment explicit).bind fun _ =>
    (consults_own environment explicit).bind fun _ =>
      (consults_asked environment explicit).bind fun _ => .pure _

/-! ## The file that was asked for -/

section Explicit

variable {tree : FileTree} {path : String}

theorem firstFile_eq_none {files : List (String × String)}
    (h : ∀ file ∈ files, ∀ content, tree.read file.2 ≠ .ok content) :
    tree.answer (firstFile files) = .ok none := by
  induction files with
  | nil => rfl
  | cons file rest ih =>
      obtain ⟨hfile, hrest⟩ := List.forall_mem_cons.mp h
      rw [firstFile, answer_bind, answer_read, after_read]
      cases hread : tree.read file.2 with
      | ok content => exact absurd hread (hfile content)
      | error fault => exact ih hrest

theorem readExplicit_eq_missing
    (h : ∀ name ∈ spellings path, ∀ content, tree.read name ≠ .ok content) :
    tree.answer (readExplicit path) = .error (.missingFile path) := by
  have hsource : tree.answer (readSource path) = .ok none := by
    rw [readSource, answer_bind, answer_read, after_read]
    cases hread : tree.read path with
    | ok content => exact absurd hread (h path List.mem_cons_self content)
    | error fault =>
        refine firstFile_eq_none fun file hfile => ?_
        obtain ⟨form, hform, rfl⟩ := List.mem_map.mp hfile
        exact h _ (List.mem_cons_of_mem _ (List.mem_map_of_mem hform))
  rw [readExplicit, answer_bind, answer_pure, hsource]
  rfl

/-- Settings are loaded only if the file that was asked for is there. -/
theorem exists_read_of_load {environment : List (String × String)} {settings : Settings}
    (h : tree.answer (load environment (some path)) = .ok settings) :
    ∃ name ∈ spellings path, ∃ content, tree.read name = .ok content := by
  by_contra hnone
  simp only [not_exists, not_and] at hnone
  rw [load, answer_bind, answer_bind, answer_bind,
    (consults_shared environment (some path)).after_eq,
    (consults_own environment (some path)).after_eq,
    (consults_asked environment (some path)).after_eq, answer_pure] at h
  obtain ⟨sources, hsources, -⟩ := Fallible.bind_eq_ok_iff.mp h
  have hmissing : .error (.missingFile path) ∈ tree.answer ((some path).toList.mapM readExplicit) :=
    readExplicit_eq_missing hnone ▸ List.mem_singleton_self _
  obtain ⟨source, -, hsource⟩ :=
    Fallible.exists_result_of_mem_of_mapM hsources (List.mem_append_right _ hmissing)
  cases hsource

end Explicit

/-! ## Loading again -/

/-- Settings are still there in a tree that has grown, unless a candidate was written or the path
of the user's file leads up and led nowhere before. -/
theorem load_eq_of_grows {environment : List (String × String)} {explicit : Option String}
    {written : List Path.Place} {before after : FileTree} (h : Grows written before after)
    (hwritten : ∀ path ∈ candidates environment explicit, Path.place path ∉ written)
    (hup : ∀ path, userLocation? environment = some path → ".." ∈ Path.parts path →
      ∀ content, after.read path = .ok content → before.read path = .ok content)
    {settings : Settings} (hload : before.answer (load environment explicit) = .ok settings) :
    after.answer (load environment explicit) = .ok settings := by
  rw [← hload]
  refine (consults_load environment explicit).answer_eq after before fun path hpath => ?_
  refine h.toOption_read_eq (hwritten path hpath) fun content hcontent => ?_
  have hplace := hwritten path hpath
  simp only [candidates, List.mem_append, Option.mem_toList, List.mem_flatMap] at hpath
  rcases hpath with (⟨location, hlocation, hpath⟩ | huser) | ⟨asked, hasked, hpath⟩
  · have hdown : ∀ location ∈ locations, ∀ path ∈ spellings location, ".." ∉ Path.parts path := by
      decide
    exact ⟨content, h.read_of_no_up (hdown location hlocation path hpath) hplace hcontent⟩
  · by_cases hparts : ".." ∈ Path.parts path
    · exact ⟨content, hup path huser hparts content hcontent⟩
    · exact ⟨content, h.read_of_no_up hparts hplace hcontent⟩
  -- another spelling of the name was there, so the directory was
  · rw [hasked] at hload
    obtain ⟨name, hname, found, hfound⟩ := exists_read_of_load hload
    obtain ⟨ending, hending, rfl⟩ := exists_ending_of_mem_spellings hname
    obtain ⟨other, hother, rfl⟩ := exists_ending_of_mem_spellings hpath
    rcases h.read_beside hfound hending hother hplace with hsame | ⟨-, hdirectory⟩
    · exact ⟨content, hsame ▸ hcontent⟩
    · rw [hdirectory] at hcontent
      cases hcontent

end SchemaCompiler.Settings
