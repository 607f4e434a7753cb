import SchemaCompiler.Text.Blank

/-!
# File paths

A path is text; its parts are separated by slashes.  `Path.join` and `Path.parent?` keep the text
as it was written, `Path.step` says where a part leads.
-/

namespace SchemaCompiler.Path

def isAbsolute (path : String) : Bool :=
  path.toList.head? = some '/'

def endsInSlash (path : String) : Bool :=
  path.toList.getLast? = some '/'

/-- The path of a name in a directory.  An absolute name stands alone, and so does any name in the
directory without a name; a slash is never doubled. -/
def join (directory name : String) : String :=
  if isAbsolute name || directory.isEmpty then name
  else if endsInSlash directory then directory ++ name
  else directory ++ "/" ++ name

/-- Drops slashes and the parts `.` from the front of a reversed path; a path of nothing else
keeps its last character. -/
private def trimReversed : List Char → List Char
  | '/' :: c :: cs => trimReversed (c :: cs)
  | '.' :: '/' :: cs => trimReversed ('/' :: cs)
  | cs => cs

/-- The directory a path leads into, as written: the path without its last part. -/
def parent? (path : String) : Option String :=
  match trimReversed path.toList.reverse with
  | [] | ['/'] => none
  | cs => some (String.ofList (trimReversed (cs.dropWhile (· ≠ '/'))).reverse)

/-- The texts between the slashes of a path. -/
def parts (path : String) : List String :=
  (Text.splitBy (· = '/') path.toList).map String.ofList

/-- The parts of a path that are not about the directory they stand in. -/
def names (path : String) : List String :=
  (parts path).filter fun part => part ≠ "" && part ≠ "."

/-- A place in the file system: names from the current directory on.  An absolute place starts
with the name `/`. -/
abbrev Place := List String

/-- Where a path starts. -/
def start (path : String) : Place :=
  if isAbsolute path then ["/"] else []

/-- The place that a part leads to.  Going up from the start is a name of its own. -/
def step (place : Place) (part : String) : Place :=
  if part.isEmpty || part = "." then place
  else if part = ".." then
    match place.getLast? with
    | none | some ".." => place ++ [part]
    | some "/" => place
    | some _ => place.dropLast
  else place ++ [part]

/-- Where a path leads if every directory on the way is there. -/
def place (path : String) : Place :=
  (parts path).foldl step (start path)

end SchemaCompiler.Path
