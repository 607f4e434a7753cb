import SchemaCompiler.Files.Tree
import SchemaCompiler.Proofs.Files.Path

/-!
# What reading and writing do to a tree

`Grows written before after` bounds what an operation changes: files stay as they are except in the
places written, which were no directories, and nothing that is there goes away.  Making directories
and writing a file are such changes (`grows_createDirectory`, `grows_write`), and such changes
compose.

What could be read before can still be read unless it was written (`Grows.read_ok`).  The converse
needs more, since new directories make ways that were not there: it holds for a path that never
goes up (`Grows.read_of_no_up`) and for a name beside a file that could be read
(`Grows.read_beside`).
-/

namespace SchemaCompiler.FileTree

open SchemaCompiler.Path (Place)

variable {tree : FileTree} {place other : Place}

/-! ## Files and directories -/

theorem lookup_filter_ne {files : List (Place × String)} (h : other ≠ place) :
    (files.filter fun (found, _) => found ≠ place).lookup other = files.lookup other := by
  induction files with
  | nil => rfl
  | cons file files ih =>
      obtain ⟨found, content⟩ := file
      by_cases hfound : found = place
      · have hne : (other == found) = false := by simpa [hfound] using h
        rw [List.filter_cons_of_neg (by simpa using hfound), ih, List.lookup_cons, hne]
      · rw [List.filter_cons_of_pos (by simpa using hfound), List.lookup_cons, List.lookup_cons, ih]

@[simp] theorem file?_put (tree : FileTree) (place : Place) (content : String) (other : Place) :
    (tree.put place content).file? other =
      if other = place then some content else tree.file? other := by
  rw [put, file?, List.lookup_cons]
  by_cases h : other = place
  · simp [h]
  · have hne : (other == place) = false := by simpa using h
    rw [hne, if_neg h]
    exact lookup_filter_ne h

@[simp] theorem file?_addDirectory (tree : FileTree) (place other : Place) :
    (tree.addDirectory place).file? other = tree.file? other := by
  rw [addDirectory]
  split <;> rfl

theorem isDirectory_iff : tree.isDirectory place = true ↔
    isAbove place = true ∨ (∃ directory ∈ tree.directories, place <+: directory) ∨
      ∃ file ∈ tree.files, place <+: file.1 ∧ file.1 ≠ place := by
  simp [isDirectory, or_assoc]

/-- What leads to a file is a directory. -/
theorem isDirectory_of_file (h : (tree.file? place).isSome) (hleads : other <+: place)
    (hne : other ≠ place) : tree.isDirectory other = true := by
  obtain ⟨content, hcontent⟩ := Option.isSome_iff_exists.mp h
  obtain ⟨front, back, hfiles, -⟩ := List.lookup_eq_some_iff.mp hcontent
  have hmem : (place, content) ∈ tree.files := by simp [hfiles]
  rw [isDirectory_iff]
  exact Or.inr (Or.inr ⟨(place, content), hmem, hleads, hne.symm⟩)

theorem isDirectory_addDirectory (tree : FileTree) (place : Place)
    (h : tree.isDirectory other = true) : (tree.addDirectory place).isDirectory other = true := by
  rw [addDirectory]
  split
  · exact h
  · rw [isDirectory_iff] at h ⊢
    rcases h with h | ⟨directory, hmem, h⟩ | h
    · exact Or.inl h
    · exact Or.inr (Or.inl ⟨directory, List.mem_cons_of_mem _ hmem, h⟩)
    · exact Or.inr (Or.inr h)

theorem isDirectory_put (content : String) (h : tree.isDirectory other = true) :
    (tree.put place content).isDirectory other = true := by
  rw [isDirectory_iff] at h ⊢
  rcases h with h | h | ⟨file, hmem, h, hne⟩
  · exact Or.inl h
  · exact Or.inr (Or.inl h)
  -- a file that is replaced leaves its directories, and so does the new one
  · refine Or.inr (Or.inr ?_)
    by_cases hfile : file.1 = place
    · exact ⟨(place, content), List.mem_cons_self, hfile ▸ h, hfile ▸ hne⟩
    · exact ⟨file, List.mem_cons_of_mem _ (List.mem_filter.mpr ⟨hmem, by simpa using hfile⟩), h,
        hne⟩

/-! ## Walking and reading -/

theorem passFault?_eq_none_iff :
    tree.passFault? place = none ↔ tree.file? place = none ∧ tree.isDirectory place = true := by
  rw [passFault?]
  cases tree.file? place <;> simp

theorem walk_nil (tree : FileTree) (place : Place) : tree.walk place [] = .ok place :=
  rfl

/-- A walk passes a place if it can go on from there. -/
theorem walk_cons_eq_ok_iff {part : String} {parts : List String} :
    tree.walk place (part :: parts) = .ok other ↔
      tree.passFault? place = none ∧ tree.walk (Path.step place part) parts = .ok other := by
  rw [walk]
  cases tree.passFault? place <;> simp

theorem eq_of_walk_eq_ok {parts : List String} (h : tree.walk place parts = .ok other) :
    other = parts.foldl Path.step place := by
  induction parts generalizing place with
  | nil => exact (Except.ok.inj h).symm
  | cons part parts ih =>
      rw [walk_cons_eq_ok_iff] at h
      exact ih h.2

theorem walk_append_singleton_eq_ok_iff {front : List String} {part : String} :
    tree.walk place (front ++ [part]) = .ok other ↔
      ∃ directory, tree.walk place front = .ok directory ∧ tree.passFault? directory = none ∧
        Path.step directory part = other := by
  induction front generalizing place with
  | nil =>
      rw [List.nil_append, walk_cons_eq_ok_iff]
      simp [walk_nil]
  | cons first front ih =>
      simp only [List.cons_append, walk_cons_eq_ok_iff, ih]
      grind

@[simp] theorem read_empty (tree : FileTree) : tree.read "" = .error .missing :=
  rfl

/-- What reading finds where a path leads. -/
theorem read_eq_of_walk {path : String} (hpath : path ≠ "")
    (h : tree.walk (Path.start path) (Path.parts path) = .ok place) :
    tree.read path =
      match tree.file? place with
      | some content => .ok content
      | none => .error (if tree.isDirectory place then .isDirectory else .missing) := by
  have hempty : path.isEmpty = false := by simpa using hpath
  simp only [read, hempty, h]
  rfl

theorem read_eq_ok_iff {path content : String} (hpath : path ≠ "") :
    tree.read path = .ok content ↔
      tree.walk (Path.start path) (Path.parts path) = .ok (Path.place path) ∧
        tree.file? (Path.place path) = some content := by
  cases hwalk : tree.walk (Path.start path) (Path.parts path) with
  | error fault =>
      have hempty : path.isEmpty = false := by simpa using hpath
      simp [read, hempty, hwalk, bind, Except.bind]
  | ok place =>
      obtain rfl : place = Path.place path := eq_of_walk_eq_ok hwalk
      rw [read_eq_of_walk hpath hwalk]
      cases tree.file? (Path.place path) <;> simp

/-- Beside a file that can be read every name is reached. -/
theorem walk_beside {base name content : String} (hread : tree.read (base ++ name) = .ok content)
    (hname : '/' ∉ name.toList) {beside : String} (hbeside : '/' ∉ beside.toList) :
    tree.walk (Path.start (base ++ beside)) (Path.parts (base ++ beside)) =
      .ok (Path.place (base ++ beside)) := by
  have hpath : base ++ name ≠ "" := by
    rintro hpath
    rw [hpath, read_empty] at hread
    cases hread
  obtain ⟨front, last, hparts⟩ := Path.exists_parts_append base
  obtain ⟨hwalk, -⟩ := (read_eq_ok_iff hpath).mp hread
  rw [hparts name hname, walk_append_singleton_eq_ok_iff, Path.start_append hname] at hwalk
  obtain ⟨directory, hfront, hpass, -⟩ := hwalk
  have hreached : tree.walk (Path.start (base ++ beside)) (Path.parts (base ++ beside)) =
      .ok (Path.step directory (last ++ beside)) := by
    rw [hparts beside hbeside, walk_append_singleton_eq_ok_iff, Path.start_append hbeside]
    exact ⟨directory, hfront, hpass, rfl⟩
  rw [hreached, eq_of_walk_eq_ok hreached]
  rfl

/-! ## Writing -/

/-- A file is written where its path leads, which is no directory. -/
theorem write_eq_ok {path content : String} {after : FileTree}
    (h : tree.write path content = .ok after) :
    path ≠ "" ∧ tree.walk (Path.start path) (Path.parts path) = .ok (Path.place path) ∧
      tree.isDirectory (Path.place path) = false ∧ after = tree.put (Path.place path) content := by
  by_cases hpath : path = ""
  · subst hpath
    cases h
  have hempty : path.isEmpty = false := by simpa using hpath
  simp only [write, hempty] at h
  cases hwalk : tree.walk (Path.start path)
      ((Path.parts path).reverse.dropWhile (·.isEmpty)).reverse with
  | error fault =>
      rw [hwalk] at h
      cases h
  | ok place =>
      replace h : (if Path.endsInSlash path || tree.isDirectory place then
          Except.error FileFault.isDirectory else .ok (tree.put place content)) = .ok after := by
        rwa [hwalk] at h
      split at h
      · cases h
      · next hfile =>
          obtain ⟨hend, hdirectory⟩ : Path.endsInSlash path = false ∧
              tree.isDirectory place = false := by
            simpa using hfile
          -- nothing is dropped behind a last name
          obtain ⟨front, last, hlast, hparts⟩ := Path.exists_parts_of_not_endsInSlash hpath hend
          have hkept : ((Path.parts path).reverse.dropWhile (·.isEmpty)).reverse =
              Path.parts path := by
            rw [hparts]
            simp [hlast]
          rw [hkept] at hwalk
          obtain rfl : place = Path.place path := eq_of_walk_eq_ok hwalk
          exact ⟨hpath, hwalk, hdirectory, (Except.ok.inj h).symm⟩

/-! ## Growing -/

/-- A tree after an operation that wrote some places: everything else is as before, what was there
is still there, and no directory was written. -/
structure Grows (written : List Place) (before after : FileTree) : Prop where
  file?_eq : ∀ place, place ∉ written → after.file? place = before.file? place
  isSome_file? : ∀ place, (before.file? place).isSome → (after.file? place).isSome
  isDirectory : ∀ place, before.isDirectory place = true → after.isDirectory place = true
  not_isDirectory : ∀ place ∈ written, before.isDirectory place = false

namespace Grows

variable {before after last : FileTree} {written : List Place}

theorem refl (tree : FileTree) : Grows [] tree tree where
  file?_eq _ _ := rfl
  isSome_file? _ := id
  isDirectory _ := id
  not_isDirectory _ h := absurd h List.not_mem_nil

theorem trans {more : List Place} (h : Grows written before after) (hmore : Grows more after last) :
    Grows (written ++ more) before last where
  file?_eq place hplace := by
    rw [List.mem_append, not_or] at hplace
    rw [hmore.file?_eq place hplace.2, h.file?_eq place hplace.1]
  isSome_file? place hplace := hmore.isSome_file? place (h.isSome_file? place hplace)
  isDirectory place hplace := hmore.isDirectory place (h.isDirectory place hplace)
  not_isDirectory place hplace := by
    rcases List.mem_append.mp hplace with hplace | hplace
    · exact h.not_isDirectory place hplace
    -- a directory from before would be one still
    · by_contra hdirectory
      have hstill := h.isDirectory place (by simpa using hdirectory)
      rw [hmore.not_isDirectory place hplace] at hstill
      cases hstill

/-! ### Reading a tree that has grown -/

theorem passFault?_eq_none (h : Grows written before after)
    (hpass : before.passFault? place = none) : after.passFault? place = none := by
  obtain ⟨hfile, hdirectory⟩ := passFault?_eq_none_iff.mp hpass
  have hwritten : place ∉ written := fun hmem => by
    rw [h.not_isDirectory place hmem] at hdirectory
    cases hdirectory
  exact passFault?_eq_none_iff.mpr
    ⟨(h.file?_eq place hwritten).trans hfile, h.isDirectory place hdirectory⟩

theorem walk_eq_ok (h : Grows written before after) {parts : List String}
    (hwalk : before.walk place parts = .ok other) : after.walk place parts = .ok other := by
  induction parts generalizing place with
  | nil => exact hwalk
  | cons part parts ih =>
      obtain ⟨hpass, hrest⟩ := walk_cons_eq_ok_iff.mp hwalk
      exact walk_cons_eq_ok_iff.mpr ⟨h.passFault?_eq_none hpass, ih hrest⟩

/-- What could be read reads the same unless it was written. -/
theorem read_ok (h : Grows written before after) {path content : String}
    (hread : before.read path = .ok content) (hwritten : Path.place path ∉ written) :
    after.read path = .ok content := by
  by_cases hpath : path = ""
  · subst hpath
    cases hread
  obtain ⟨hwalk, hfile⟩ := (read_eq_ok_iff hpath).mp hread
  exact (read_eq_ok_iff hpath).mpr
    ⟨h.walk_eq_ok hwalk, (h.file?_eq _ hwritten).trans hfile⟩

/-- A way down to a file was there before if the file was. -/
theorem walk_of_no_up (h : Grows written before after) {parts : List String} (hup : ".." ∉ parts)
    (hwalk : after.walk place parts = .ok other) (hbefore : (before.file? other).isSome) :
    before.walk place parts = .ok other := by
  induction parts generalizing place with
  | nil => exact hwalk
  | cons part parts ih =>
      have hleads : place <+: other :=
        eq_of_walk_eq_ok hwalk ▸ Path.prefix_foldl_step hup place
      rw [walk_cons_eq_ok_iff, passFault?_eq_none_iff] at hwalk ⊢
      obtain ⟨⟨hnone, -⟩, hrest⟩ := hwalk
      have hne : place ≠ other := by
        rintro rfl
        simpa [hnone] using h.isSome_file? place hbefore
      have hnone : before.file? place = none := by
        by_contra hsome
        simpa [hnone] using h.isSome_file? place (Option.isSome_iff_ne_none.mpr hsome)
      exact ⟨⟨hnone, isDirectory_of_file hbefore hleads hne⟩,
        ih (fun hmem => hup (List.mem_cons_of_mem _ hmem)) hrest⟩

/-- Without going up, only what was written can be read for the first time. -/
theorem read_of_no_up (h : Grows written before after) {path content : String}
    (hup : ".." ∉ Path.parts path) (hwritten : Path.place path ∉ written)
    (hread : after.read path = .ok content) : before.read path = .ok content := by
  by_cases hpath : path = ""
  · subst hpath
    cases hread
  obtain ⟨hwalk, hfile⟩ := (read_eq_ok_iff hpath).mp hread
  rw [h.file?_eq _ hwritten] at hfile
  exact (read_eq_ok_iff hpath).mpr
    ⟨h.walk_of_no_up hup hwalk (Option.isSome_of_eq_some hfile), hfile⟩

/-- Reading a path gives the same text or none, if it was not written and no text is new. -/
theorem toOption_read_eq (h : Grows written before after) {path : String}
    (hwritten : Path.place path ∉ written)
    (hback : ∀ content, after.read path = .ok content → ∃ content, before.read path = .ok content) :
    (after.read path).toOption = (before.read path).toOption := by
  cases hbefore : before.read path with
  | ok content => rw [h.read_ok hbefore hwritten]
  | error fault =>
      cases hafter : after.read path with
      | ok content =>
          obtain ⟨content, hcontent⟩ := hback content hafter
          rw [hbefore] at hcontent
          cases hcontent
      | error fault => rfl

/-- Beside a file that could be read, reading changes at most where a directory has been made. -/
theorem read_beside (h : Grows written before after) {base name content : String}
    (hread : before.read (base ++ name) = .ok content) (hname : '/' ∉ name.toList)
    {beside : String} (hbeside : '/' ∉ beside.toList)
    (hwritten : Path.place (base ++ beside) ∉ written) :
    after.read (base ++ beside) = before.read (base ++ beside) ∨
      before.read (base ++ beside) = .error .missing ∧
        after.read (base ++ beside) = .error .isDirectory := by
  by_cases hpath : base ++ beside = ""
  · rw [hpath]
    exact Or.inl rfl
  have hwalk := walk_beside hread hname hbeside
  rw [read_eq_of_walk hpath hwalk, read_eq_of_walk hpath (h.walk_eq_ok hwalk),
    h.file?_eq _ hwritten]
  cases before.file? (Path.place (base ++ beside)) with
  | some content => exact Or.inl rfl
  | none =>
      cases hbefore : before.isDirectory (Path.place (base ++ beside)) with
      | true => simp [h.isDirectory _ hbefore]
      | false => cases after.isDirectory (Path.place (base ++ beside)) <;> simp

end Grows

/-! ## Operations -/

theorem grows_addDirectory (tree : FileTree) (place : Place) :
    Grows [] tree (tree.addDirectory place) where
  file?_eq other _ := file?_addDirectory tree place other
  isSome_file? other h := by rwa [file?_addDirectory]
  isDirectory _ h := isDirectory_addDirectory tree place h
  not_isDirectory _ h := absurd h List.not_mem_nil

theorem grows_makeDirectories {parts : List String} {after : FileTree}
    (h : tree.makeDirectories place parts = .ok after) : Grows [] tree after := by
  induction parts generalizing tree place with
  | nil =>
      rw [makeDirectories] at h
      split at h
      · cases h
      · exact Except.ok.inj h ▸ grows_addDirectory tree place
  | cons part parts ih =>
      rw [makeDirectories] at h
      split at h
      · cases h
      · exact (grows_addDirectory tree place).trans (ih h)

theorem grows_createDirectory {path : String} {after : FileTree}
    (h : tree.createDirectory path = .ok after) : Grows [] tree after :=
  grows_makeDirectories h

theorem grows_put (content : String) (h : tree.isDirectory place = false) :
    Grows [place] tree (tree.put place content) where
  file?_eq other hother := by
    rw [file?_put, if_neg (by simpa using hother)]
  isSome_file? other hother := by
    rw [file?_put]
    split
    · rfl
    · exact hother
  isDirectory _ hother := isDirectory_put content hother
  not_isDirectory other hother := by
    rw [List.mem_singleton.mp hother]
    exact h

section Write

variable {path content : String} {after : FileTree}

theorem grows_write (h : tree.write path content = .ok after) :
    Grows [Path.place path] tree after := by
  obtain ⟨-, -, hdirectory, rfl⟩ := write_eq_ok h
  exact grows_put content hdirectory

theorem file?_of_write (h : tree.write path content = .ok after) :
    after.file? (Path.place path) = some content := by
  obtain ⟨-, -, -, rfl⟩ := write_eq_ok h
  simp

/-- What was written can be read. -/
theorem read_of_write (h : tree.write path content = .ok after) :
    after.read path = .ok content := by
  obtain ⟨hpath, hwalk, -, -⟩ := write_eq_ok h
  exact (read_eq_ok_iff hpath).mpr ⟨(grows_write h).walk_eq_ok hwalk, file?_of_write h⟩

end Write

end SchemaCompiler.FileTree
