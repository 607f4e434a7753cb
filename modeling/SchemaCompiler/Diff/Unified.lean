import SchemaCompiler.Diff.Script

/-!
# Unified diffs

A diff shows the changed lines of a text with some equal lines around them.  Changes with few
equal lines between them share a hunk, which starts with the two ranges of lines it covers.
-/

namespace SchemaCompiler.Diff

/-- The lines of a text with their ends: a line feed, a carriage return, or both. -/
def linesFrom (line : List Char) : List Char → List String
  | [] => if line.isEmpty then [] else [String.ofList line.reverse]
  | '\r' :: '\n' :: rest => String.ofList ('\n' :: '\r' :: line).reverse :: linesFrom [] rest
  | c :: rest =>
    if c = '\n' || c = '\r' then String.ofList (c :: line).reverse :: linesFrom [] rest
    else linesFrom (c :: line) rest

def lines (text : String) : List String :=
  linesFrom [] text.toList

/-- Equal lines, or lines that were replaced, with the number of lines before them in either
text. -/
inductive Block where
  | same (oldAt newAt : Nat) (lines : List String)
  | change (oldAt newAt : Nat) (removed added : List String)

namespace Block

/-- The first old line and the one behind the last. -/
def oldRange : Block → Nat × Nat
  | same oldAt _ lines => (oldAt, oldAt + lines.length)
  | change oldAt _ removed _ => (oldAt, oldAt + removed.length)

/-- The first new line and the one behind the last. -/
def newRange : Block → Nat × Nat
  | same _ newAt lines => (newAt, newAt + lines.length)
  | change _ newAt _ added => (newAt, newAt + added.length)

end Block

/-- Edits since the last equal line: lines removed and added, each with the position in the other
text at which the first of them was found. -/
structure Pending where
  removed : Option (Nat × List String)
  added : Option (Nat × List String)

namespace Pending

def empty : Pending :=
  ⟨none, none⟩

private def extend (found : Nat) (lines : List String) :
    Option (Nat × List String) → Option (Nat × List String)
  | none => some (found, lines)
  | some (first, earlier) => some (first, earlier ++ lines)

def remove (pending : Pending) (found : Nat) (lines : List String) : Pending :=
  { pending with removed := extend found lines pending.removed }

def add (pending : Pending) (found : Nat) (lines : List String) : Pending :=
  { pending with added := extend found lines pending.added }

/-- The change, if there is one.  A removal alone stands where it was found in the new text, an
addition alone where it was found in the old one. -/
def toBlocks (pending : Pending) (oldAt newAt : Nat) : List Block :=
  match pending.removed, pending.added with
  | none, none => []
  | some (found, removed), none => [.change oldAt found removed []]
  | none, some (found, added) => [.change found newAt [] added]
  | some (_, removed), some (_, added) => [.change oldAt newAt removed added]

def removedCount (pending : Pending) : Nat :=
  (pending.removed.map (·.2.length)).getD 0

def addedCount (pending : Pending) : Nat :=
  (pending.added.map (·.2.length)).getD 0

end Pending

/-- Joins neighbouring edits to changes; `oldAt` and `newAt` count the lines before the pending
ones. -/
def blocksFrom (oldAt newAt : Nat) (pending : Pending) : Script String → List Block
  | [] => pending.toBlocks oldAt newAt
  | .delete found removed :: rest => blocksFrom oldAt newAt (pending.remove found removed) rest
  | .insert found added :: rest => blocksFrom oldAt newAt (pending.add found added) rest
  | .keep kept :: rest =>
    let changes := pending.toBlocks oldAt newAt
    let oldAt := oldAt + pending.removedCount
    let newAt := newAt + pending.addedCount
    changes ++ .same oldAt newAt kept ::
      blocksFrom (oldAt + kept.length) (newAt + kept.length) Pending.empty rest

/-- Joins neighbouring runs of equal lines. -/
def joinSame : List Block → List Block
  | [] => []
  | .same oldAt newAt kept :: rest =>
    match joinSame rest with
    | .same _ _ more :: rest => .same oldAt newAt (kept ++ more) :: rest
    | rest => .same oldAt newAt kept :: rest
  | change :: rest => change :: joinSame rest

def blocks (old new : List String) : List Block :=
  joinSame (blocksFrom 0 0 Pending.empty (script old new))

/-! ## Hunks -/

/-- The last lines of a run of equal lines. -/
def lastLines (context : Nat) : Block → Block
  | .same oldAt newAt lines =>
    let dropped := lines.length - context
    .same (oldAt + dropped) (newAt + dropped) (lines.drop dropped)
  | change => change

/-- The first lines of a run of equal lines. -/
def firstLines (context : Nat) : Block → Block
  | .same oldAt newAt lines => .same oldAt newAt (lines.take context)
  | change => change

/-- Cuts equal lines at the start and at the end down to the context. -/
def cutEnds (context : Nat) (blocks : List Block) : List Block :=
  let fromStart :=
    match blocks with
    | first :: rest => lastLines context first :: rest
    | [] => []
  match fromStart.reverse with
  | last :: rest => (firstLines context last :: rest).reverse
  | [] => []

/-- Starts a new hunk at each run of equal lines that is longer than the context on both sides. -/
def hunksFrom (context : Nat) (hunk : List Block) : List Block → List (List Block)
  | [] =>
    match hunk with
    | [] | [.same _ _ _] => []
    | _ => [hunk.reverse]
  | block :: rest =>
    match block with
    | .same _ _ lines =>
      if 2 * context < lines.length then
        (firstLines context block :: hunk).reverse ::
          hunksFrom context [lastLines context block] rest
      else hunksFrom context (block :: hunk) rest
    | .change .. => hunksFrom context (block :: hunk) rest

def hunks (context : Nat) (blocks : List Block) : List (List Block) :=
  hunksFrom context [] (cutEnds context blocks)

/-! ## Text -/

/-- A range of lines: the first one and their number, which is left out if it is one.  An empty
range is that behind the line before it. -/
def rangeText (first behind : Nat) : String :=
  match behind - first with
  | 1 => toString (first + 1)
  | 0 => toString first ++ ",0"
  | n => toString (first + 1) ++ "," ++ toString n

/-- A line behind its mark.  One without an end gets an end and a remark. -/
def lineText (mark line : String) : String :=
  match line.toList.getLast? with
  | some '\n' | some '\r' => mark ++ line
  | _ => mark ++ line ++ "\n\\ No newline at end of file\n"

def blockText : Block → String
  | .same _ _ lines => String.join (lines.map (lineText " "))
  | .change _ _ removed added =>
    String.join (removed.map (lineText "-")) ++ String.join (added.map (lineText "+"))

def hunkText (hunk : List Block) : String :=
  match hunk.head?, hunk.getLast? with
  | some first, some last =>
    "@@ -" ++ rangeText first.oldRange.1 last.oldRange.2 ++ " +" ++
      rangeText first.newRange.1 last.newRange.2 ++ " @@\n" ++ String.join (hunk.map blockText)
  | _, _ => ""

/-- The diff of two texts under their names; equal texts have none. -/
def unified (context : Nat) (oldName newName old new : String) : String :=
  match hunks context (blocks (lines old) (lines new)) with
  | [] => ""
  | found =>
    "--- " ++ oldName ++ "\n+++ " ++ newName ++ "\n" ++ String.join (found.map hunkText)

end SchemaCompiler.Diff
