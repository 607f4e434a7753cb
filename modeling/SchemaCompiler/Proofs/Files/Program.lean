import SchemaCompiler.Files.Tree

/-!
# Programs over a tree

A program over `FileAccess` that runs over a tree gives an answer (`FileTree.answer`) and leaves a
tree (`FileTree.after`).  `Consults paths` says of a program that it only reads, and what it may
learn: whether some paths lead to texts, and to which.
-/

namespace SchemaCompiler.FileTree

variable {α β : Type} (tree : FileTree)

/-- What a program answers over a tree. -/
def answer (program : StateM FileTree α) : α :=
  (program.run tree).1

/-- The tree that a program leaves. -/
def after (program : StateM FileTree α) : FileTree :=
  (program.run tree).2

/-! ## Steps of programs -/

@[simp] theorem answer_pure (value : α) : tree.answer (pure value) = value :=
  rfl

@[simp] theorem after_pure (value : α) : tree.after (pure value) = tree :=
  rfl

theorem answer_bind (program : StateM FileTree α) (next : α → StateM FileTree β) :
    tree.answer (program >>= next) = (tree.after program).answer (next (tree.answer program)) :=
  rfl

theorem after_bind (program : StateM FileTree α) (next : α → StateM FileTree β) :
    tree.after (program >>= next) = (tree.after program).after (next (tree.answer program)) :=
  rfl

@[simp] theorem answer_read (path : String) : tree.answer (FileAccess.read path) = tree.read path :=
  rfl

@[simp] theorem after_read (path : String) : tree.after (FileAccess.read path) = tree :=
  rfl

/-- An operation that may change the tree; a fault leaves it as it is. -/
private def change (result : Except FileFault FileTree) : StateM FileTree (Except FileFault Unit) :=
  match result with
  | .ok after => do set after; return .ok ()
  | .error fault => return .error fault

private theorem answer_change (result : Except FileFault FileTree) :
    tree.answer (change result) = result.map fun _ => () := by
  cases result <;> rfl

private theorem after_change (result : Except FileFault FileTree) :
    tree.after (change result) = result.toOption.getD tree := by
  cases result <;> rfl

@[simp] theorem answer_createDirectory (path : String) :
    tree.answer (FileAccess.createDirectory path) =
      (tree.createDirectory path).map fun _ => () :=
  answer_change tree (tree.createDirectory path)

@[simp] theorem after_createDirectory (path : String) :
    tree.after (FileAccess.createDirectory path) = (tree.createDirectory path).toOption.getD tree :=
  after_change tree (tree.createDirectory path)

@[simp] theorem answer_write (path content : String) :
    tree.answer (FileAccess.write path content) = (tree.write path content).map fun _ => () :=
  answer_change tree (tree.write path content)

@[simp] theorem after_write (path content : String) :
    tree.after (FileAccess.write path content) = (tree.write path content).toOption.getD tree :=
  after_change tree (tree.write path content)

/-! ## Consulting -/

/-- A program that leaves every tree as it is and answers alike in two trees in which some paths
lead to the same texts. -/
structure Consults (paths : List String) (program : StateM FileTree α) : Prop where
  after_eq : ∀ tree : FileTree, tree.after program = tree
  answer_eq : ∀ tree other : FileTree,
    (∀ path ∈ paths, (tree.read path).toOption = (other.read path).toOption) →
      tree.answer program = other.answer program

namespace Consults

variable {paths : List String} {program : StateM FileTree α}

theorem pure (value : α) : Consults paths (pure value) where
  after_eq _ := rfl
  answer_eq _ _ _ := rfl

theorem bind {next : α → StateM FileTree β} (h : Consults paths program)
    (hnext : ∀ value, Consults paths (next value)) : Consults paths (program >>= next) where
  after_eq tree := by
    rw [after_bind, (hnext _).after_eq, h.after_eq]
  answer_eq tree other hpaths := by
    rw [answer_bind, answer_bind, h.after_eq, h.after_eq, h.answer_eq tree other hpaths]
    exact (hnext _).answer_eq tree other hpaths

/-- Reading a text, with one way to go on for all faults. -/
theorem read_or {path : String} (hpath : path ∈ paths) {next : String → StateM FileTree α}
    {otherwise : StateM FileTree α} (hnext : ∀ content, Consults paths (next content))
    (hotherwise : Consults paths otherwise) :
    Consults paths (do
      match ← FileAccess.read path with
      | .ok content => next content
      | .error _ => otherwise) where
  after_eq tree := by
    rw [after_bind, answer_read, after_read]
    cases tree.read path with
    | ok content => exact (hnext content).after_eq tree
    | error fault => exact hotherwise.after_eq tree
  answer_eq tree other hpaths := by
    have hread := hpaths path hpath
    rw [answer_bind, answer_bind, answer_read, answer_read, after_read, after_read]
    cases htree : tree.read path <;> cases hother : other.read path <;> rw [htree, hother] at hread
    · exact hotherwise.answer_eq tree other hpaths
    · cases hread
    · cases hread
    · obtain rfl := Option.some.inj hread
      exact (hnext _).answer_eq tree other hpaths

theorem mapM {items : List β} {next : β → StateM FileTree α}
    (h : ∀ item ∈ items, Consults paths (next item)) : Consults paths (items.mapM next) := by
  induction items with
  | nil => exact .pure []
  | cons item items ih =>
      obtain ⟨hitem, hrest⟩ := List.forall_mem_cons.mp h
      rw [List.mapM_cons]
      exact hitem.bind fun value => (ih hrest).bind fun values => .pure (value :: values)

end Consults

end SchemaCompiler.FileTree
