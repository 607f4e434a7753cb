import Mathlib.Data.List.Basic
import SchemaCompiler.Files.Path
import SchemaCompiler.Proofs.Text.Blank

/-!
# Parts of paths

Names behind one text share all parts but the last (`exists_parts_append`), so files of one
directory are reached on one way.  Without a part `..` a path only leads down
(`prefix_foldl_step`).
-/

namespace SchemaCompiler.Path

theorem exists_parts_append (path : String) : ∃ front last, ∀ name : String, '/' ∉ name.toList →
    parts (path ++ name) = front ++ [last ++ name] := by
  obtain ⟨front, last, hsplit⟩ := Text.exists_splitBy_append (· = '/') path.toList
  refine ⟨front.map String.ofList, String.ofList last, fun name hname => ?_⟩
  have htail : ∀ c ∈ name.toList, decide (c = '/') = false :=
    fun c hc => by simpa using ne_of_mem_of_not_mem hc hname
  rw [parts, String.toList_append, hsplit _ htail, List.map_append, List.map_singleton,
    String.ofList_append, String.ofList_toList]

/-- A path that does not end in a slash has a last name. -/
theorem exists_parts_of_not_endsInSlash {path : String} (hpath : path ≠ "")
    (hend : endsInSlash path = false) : ∃ front last, last ≠ "" ∧ parts path = front ++ [last] := by
  rcases List.eq_nil_or_concat path.toList with hnil | ⟨cs, c, hconcat⟩
  · exact absurd (String.toList_eq_nil_iff.mp hnil) hpath
  · have hc : c ≠ '/' := by simpa [endsInSlash, hconcat] using hend
    obtain ⟨front, last, hparts⟩ := exists_parts_append (String.ofList cs)
    have hpath : path = String.ofList cs ++ String.ofList [c] := by
      rw [← String.ofList_append, ← List.concat_eq_append, ← hconcat, String.ofList_toList]
    refine ⟨front, last ++ String.ofList [c], fun hempty => ?_, ?_⟩
    · simpa using congrArg String.toList hempty
    · rw [hpath]
      exact hparts _ (by simpa using hc.symm)

theorem start_append {path name : String} (hname : '/' ∉ name.toList) :
    start (path ++ name) = start path := by
  have hhead : name.toList.head? ≠ some '/' := fun h => hname (List.mem_of_head? h)
  cases hpath : path.toList with
  | nil => simp [start, isAbsolute, hpath, hhead]
  | cons c cs => simp [start, isAbsolute, hpath]

/-- The names of one directory stand behind one text. -/
theorem exists_join_eq_append (directory : String) :
    ∃ base, ∀ name, isAbsolute name = false → join directory name = base ++ name := by
  by_cases hempty : directory.isEmpty = true
  · exact ⟨"", fun name hname => by simp [join, hempty]⟩
  · cases hend : endsInSlash directory with
    | true => exact ⟨directory, fun name hname => by simp [join, hname, hempty, hend]⟩
    | false => exact ⟨directory ++ "/", fun name hname => by simp [join, hname, hempty, hend]⟩

/-! ## Where a path leads -/

theorem prefix_step {part : String} (h : part ≠ "..") (place : Place) :
    place <+: step place part := by
  rw [step]
  split
  · exact List.prefix_refl place
  · exact List.prefix_append place [part]

theorem prefix_foldl_step {parts : List String} (h : ".." ∉ parts) (place : Place) :
    place <+: parts.foldl step place := by
  induction parts generalizing place with
  | nil => exact List.prefix_refl place
  | cons part parts ih =>
      rw [List.mem_cons, not_or] at h
      exact (prefix_step (Ne.symm h.1) place).trans (ih h.2 _)

end SchemaCompiler.Path
