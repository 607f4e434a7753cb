/-!
# Sorting

A stable sort by insertion.  It is structural, so that everything that sorts can be evaluated.
-/

namespace SchemaCompiler

variable {α : Type} (le : α → α → Bool)

/-- Puts an item in front of the first one that it may stand before. -/
def insertSorted (item : α) : List α → List α
  | [] => [item]
  | first :: rest =>
    if le item first then item :: first :: rest else first :: insertSorted item rest

def sortBy : List α → List α
  | [] => []
  | item :: rest => insertSorted le item (sortBy rest)

theorem insertSorted_perm (item : α) (items : List α) :
    (insertSorted le item items).Perm (item :: items) := by
  induction items with
  | nil => exact List.Perm.refl _
  | cons first rest ih =>
    rw [insertSorted]
    split
    · exact List.Perm.refl _
    · exact (ih.cons first).trans (List.Perm.swap item first rest)

theorem sortBy_perm (items : List α) : (sortBy le items).Perm items := by
  induction items with
  | nil => exact List.Perm.refl _
  | cons item rest ih => exact (insertSorted_perm le item _).trans (ih.cons item)

end SchemaCompiler
