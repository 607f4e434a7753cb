import SchemaCompiler.Files.Path

/-!
# Files

What a run asks of the files around it is the class `FileAccess`: to read a file, to create a
directory, to write a file.  `FileTree` is a directory as a value, and running over one is running
over files that are all known.
-/

namespace SchemaCompiler

open SchemaCompiler.Path (Place)

/-- Why a file could not be read or written. -/
inductive FileFault where
  | missing
  | occupied
  | notDirectory
  | isDirectory
  /-- The content is no UTF-8. -/
  | notText
  | other (reason : String)
deriving DecidableEq, Repr

def FileFault.message : FileFault → String
  | missing => "No such file or directory (os error 2)"
  | occupied => "File exists (os error 17)"
  | notDirectory => "Not a directory (os error 20)"
  | isDirectory => "Is a directory (os error 21)"
  | notText => "stream did not contain valid UTF-8"
  | other reason => reason

class FileAccess (m : Type → Type) where
  read : String → m (Except FileFault String)
  /-- A directory with all directories above it; nothing happens where it is there already. -/
  createDirectory : String → m (Except FileFault Unit)
  /-- Replaces a file or makes a new one. -/
  write : String → String → m (Except FileFault Unit)

/-- The files below one directory, and directories that are there on their own account. -/
structure FileTree where
  files : List (Place × String)
  directories : List Place

namespace FileTree

def ofFiles (files : List (Place × String)) : FileTree :=
  ⟨files, []⟩

def file? (tree : FileTree) (place : Place) : Option String :=
  tree.files.lookup place

/-- The directories that lead to the tree are there. -/
def isAbove (place : Place) : Bool :=
  place = ["/"] || place.all (· = "..")

/-- A directory is there if anything is below it. -/
def isDirectory (tree : FileTree) (place : Place) : Bool :=
  isAbove place || tree.directories.any (place.isPrefixOf ·) ||
    tree.files.any fun (other, _) => place.isPrefixOf other && other ≠ place

/-- The fault of going on from a place, unless it is a directory. -/
def passFault? (tree : FileTree) (place : Place) : Option FileFault :=
  if (tree.file? place).isSome then some .notDirectory
  else if tree.isDirectory place then none
  else some .missing

/-- Goes from place to place through directories. -/
def walk (tree : FileTree) : Place → List String → Except FileFault Place
  | place, [] => .ok place
  | place, part :: parts =>
    match tree.passFault? place with
    | some fault => .error fault
    | none => walk tree (Path.step place part) parts

def read (tree : FileTree) (path : String) : Except FileFault String := do
  if path.isEmpty then .error .missing
  let place ← tree.walk (Path.start path) (Path.parts path)
  match tree.file? place with
  | some content => .ok content
  | none => .error (if tree.isDirectory place then .isDirectory else .missing)

def addDirectory (tree : FileTree) (place : Place) : FileTree :=
  if tree.isDirectory place then tree else { tree with directories := place :: tree.directories }

/-- Goes from place to place and makes each a directory. -/
def makeDirectories (tree : FileTree) : Place → List String → Except FileFault FileTree
  | place, [] =>
    if (tree.file? place).isSome then .error .occupied else .ok (tree.addDirectory place)
  | place, part :: parts =>
    if (tree.file? place).isSome then .error .notDirectory
    else makeDirectories (tree.addDirectory place) (Path.step place part) parts

def createDirectory (tree : FileTree) (path : String) : Except FileFault FileTree :=
  tree.makeDirectories (Path.start path) (Path.parts path)

/-- The tree with a file in a place. -/
def put (tree : FileTree) (place : Place) (content : String) : FileTree :=
  { tree with files := (place, content) :: tree.files.filter fun (other, _) => other ≠ place }

/-- Slashes behind the last name say that a directory is meant, which no file can be. -/
def write (tree : FileTree) (path content : String) : Except FileFault FileTree := do
  if path.isEmpty then .error .missing
  let parts := ((Path.parts path).reverse.dropWhile (·.isEmpty)).reverse
  let place ← tree.walk (Path.start path) parts
  if Path.endsInSlash path || tree.isDirectory place then .error .isDirectory
  else .ok (tree.put place content)

instance : FileAccess (StateM FileTree) where
  read path := do return (← get).read path
  createDirectory path := do
    match (← get).createDirectory path with
    | .ok tree => set tree; return .ok ()
    | .error fault => return .error fault
  write path content := do
    match (← get).write path content with
    | .ok tree => set tree; return .ok ()
    | .error fault => return .error fault

end FileTree

end SchemaCompiler
