/-!
# Edit scripts

How one list becomes another by keeping, deleting and inserting runs of items.  The script is a
shortest one: where the lists differ, a run of equal items in the middle of a shortest path is
found by searching from both ends, and the two halves are treated alike.  After that, insertions
are moved down as far as equal items let them.

`Script.before` and `Script.after` are the two lists that a script tells apart.
-/

namespace SchemaCompiler.Diff

/-- A run of items.  A deletion and an insertion remember where in the other list they were
found. -/
inductive Edit (α : Type) where
  | keep (items : List α)
  | delete (found : Nat) (items : List α)
  | insert (found : Nat) (items : List α)

abbrev Script (α : Type) := List (Edit α)

variable {α : Type}

namespace Script

/-- The list that a script starts from. -/
def before : Script α → List α
  | [] => []
  | .keep items :: rest => items ++ before rest
  | .delete _ items :: rest => items ++ before rest
  | .insert _ _ :: rest => before rest

/-- The list that a script leads to. -/
def after : Script α → List α
  | [] => []
  | .keep items :: rest => items ++ after rest
  | .delete _ _ :: rest => after rest
  | .insert _ items :: rest => items ++ after rest

end Script

variable [DecidableEq α]

/-- The number of equal items at the start of both lists. -/
def commonStart : List α → List α → Nat
  | a :: as, b :: bs => if a = b then commonStart as bs + 1 else 0
  | _, _ => 0

/-- The number of equal items at the end of both lists. -/
def commonEnd (as bs : List α) : Nat :=
  commonStart as.reverse bs.reverse

/-! ## The middle of a shortest path

A path goes through the table of both lists, one step right for a deletion, one step down for an
insertion, and diagonally for free where the items are equal.  Diagonal `k` holds the points with
`k` more deletions than insertions. -/

/-- How far a search has come on each diagonal, in items of the first list. -/
structure Frontier where
  bound : Nat
  reach : Array Nat

namespace Frontier

def start (bound : Nat) : Frontier :=
  ⟨bound, Array.replicate (2 * bound + 1) 0⟩

def get (frontier : Frontier) (k : Int) : Nat :=
  frontier.reach.getD (k + frontier.bound).toNat 0

def set (frontier : Frontier) (k : Int) (value : Nat) : Frontier :=
  { frontier with reach := frontier.reach.setIfInBounds (k + frontier.bound).toNat value }

/-- Where a diagonal is entered with the given number of steps. -/
def entry (frontier : Frontier) (steps : Nat) (k : Int) : Nat :=
  if k = -steps || k ≠ steps && frontier.get (k - 1) < frontier.get (k + 1) then
    frontier.get (k + 1)
  else frontier.get (k - 1) + 1

end Frontier

/-- The number of equal items from two positions on. -/
def runLength (old new : Array α) : Nat → Nat → Nat → Nat
  | 0, _, _ => 0
  | fuel + 1, x, y =>
    match old[x]?, new[y]? with
    | some a, some b => if a = b then runLength old new fuel (x + 1) (y + 1) + 1 else 0
    | _, _ => 0

/-- The diagonals that a number of steps can reach, the outermost first. -/
def diagonals (steps : Nat) : List Int :=
  (List.range (steps + 1)).map fun (i : Nat) => (steps : Int) - 2 * i

/-- Goes on by one step on each diagonal.  A diagonal that meets the other search, which `meets`
tells from its reach, gives the point where it was entered. -/
def advance (old new : Array α) (steps : Nat) (meets : Int → Nat → Bool) (frontier : Frontier) :
    List Int → Frontier × Option (Nat × Nat)
  | [] => (frontier, none)
  | k :: ks =>
    let x := frontier.entry steps k
    let y := ((x : Int) - k).toNat
    let reach := x + runLength old new old.size x y
    let frontier := frontier.set k reach
    if meets k reach then (frontier, some (x, y))
    else advance old new steps meets frontier ks

/-- A point in the middle of a shortest path, by two searches that take turns.  `oldBack` and
`newBack` are the lists reversed. -/
def middleFrom (old new oldBack newBack : Array α) :
    Nat → Nat → Frontier → Frontier → Option (Nat × Nat)
  | 0, _, _, _ => none
  | fuel + 1, steps, forward, backward =>
    let delta : Int := old.size - new.size
    let isOdd := delta % 2 ≠ 0
    let meetsBackward (k : Int) (reach : Nat) : Bool :=
      isOdd && (k - delta).natAbs + 1 ≤ steps && old.size ≤ reach + backward.get (delta - k)
    match advance old new steps meetsBackward forward (diagonals steps) with
    | (_, some point) => some point
    | (forward, none) =>
      let meetsForward (k : Int) (reach : Nat) : Bool :=
        !isOdd && (k - delta).natAbs ≤ steps && old.size ≤ reach + forward.get (delta - k)
      match advance oldBack newBack steps meetsForward backward (diagonals steps) with
      | (_, some point) =>
        let length := runLength oldBack newBack oldBack.size point.1 point.2
        some (old.size - (point.1 + length), new.size - (point.2 + length))
      | (backward, none) => middleFrom old new oldBack newBack fuel (steps + 1) forward backward

def middle? (old new : List α) : Option (Nat × Nat) :=
  let bound := (old.length + new.length + 1) / 2 + 1
  middleFrom old.toArray new.toArray old.reverse.toArray new.reverse.toArray bound 0
    (Frontier.start (bound + 1)) (Frontier.start (bound + 1))

private def keepAll : List α → Script α
  | [] => []
  | items => [.keep items]

/-- The script of two lists that start at the given positions.  Every step divides the lists, so
their common length is fuel enough. -/
def divide : Nat → Nat → Nat → List α → List α → Script α
  | 0, oldAt, newAt, old, new => [.delete newAt old, .insert oldAt new]
  | fuel + 1, oldAt, newAt, old, new =>
    let start := commonStart old new
    let oldRest := old.drop start
    let newRest := new.drop start
    let ending := commonEnd oldRest newRest
    let oldCore := oldRest.take (oldRest.length - ending)
    let newCore := newRest.take (newRest.length - ending)
    let oldAt := oldAt + start
    let newAt := newAt + start
    let core : Script α :=
      match oldCore, newCore with
      | [], [] => []
      | _, [] => [.delete newAt oldCore]
      | [], _ => [.insert oldAt newCore]
      | _, _ =>
        match middle? oldCore newCore with
        | some (x, y) =>
          divide fuel oldAt newAt (oldCore.take x) (newCore.take y) ++
            divide fuel (oldAt + x) (newAt + y) (oldCore.drop x) (newCore.drop y)
        | none => [.delete newAt oldCore, .insert oldAt newCore]
    keepAll (old.take start) ++ core ++ keepAll (oldRest.drop (oldRest.length - ending))

/-! ## Moving edits -/

/-- An edit between the edits before it, the nearest first, and those behind it. -/
structure Focus (α : Type) where
  above : Script α
  edit : Edit α
  below : Script α

/-- Puts kept items in front of a script. -/
def keepFirst (items : List α) : Script α → Script α
  | .keep others :: rest => .keep (items ++ others) :: rest
  | rest => .keep items :: rest

/-- Puts kept items behind a reversed script. -/
def keepLast (items : List α) : Script α → Script α
  | .keep others :: rest => .keep (others ++ items) :: rest
  | rest => .keep items :: rest

/-- Moves an insertion up over equal items, any edit over one of the other kind, and joins edits
of one kind. -/
def moveUp : Nat → Focus α → Focus α
  | 0, focus => focus
  | fuel + 1, focus =>
    match focus.above, focus.edit with
    | .keep items :: above, .insert found inserted =>
      match commonEnd items inserted with
      | 0 => focus
      | n =>
        let moved := inserted.drop (inserted.length - n)
        moveUp fuel
          { above := keepAll (items.take (items.length - n)) ++ above
            edit := .insert (found - n) (moved ++ inserted.take (inserted.length - n))
            below := keepFirst moved focus.below }
    | .insert found first :: above, .insert _ second =>
      moveUp fuel { focus with above, edit := .insert found (first ++ second) }
    | .delete found first :: above, .delete _ second =>
      moveUp fuel { focus with above, edit := .delete found (first ++ second) }
    | .delete found items :: above, .insert _ _ =>
      moveUp fuel { focus with above, below := .delete found items :: focus.below }
    | .insert found items :: above, .delete _ _ =>
      moveUp fuel { focus with above, below := .insert found items :: focus.below }
    | _, _ => focus

/-- The same, downwards. -/
def moveDown : Nat → Focus α → Focus α
  | 0, focus => focus
  | fuel + 1, focus =>
    match focus.below, focus.edit with
    | .keep items :: below, .insert found inserted =>
      match commonStart items inserted with
      | 0 => focus
      | n =>
        let moved := inserted.take n
        moveDown fuel
          { above := keepLast moved focus.above
            edit := .insert (found + n) (inserted.drop n ++ moved)
            below := keepAll (items.drop n) ++ below }
    | .insert _ second :: below, .insert found first =>
      moveDown fuel { focus with below, edit := .insert found (first ++ second) }
    | .delete _ second :: below, .delete found first =>
      moveDown fuel { focus with below, edit := .delete found (first ++ second) }
    | .delete found items :: below, .insert _ _ =>
      moveDown fuel { focus with below, above := .delete found items :: focus.above }
    | .insert found items :: below, .delete _ _ =>
      moveDown fuel { focus with below, above := .insert found items :: focus.above }
    | _, _ => focus

/-- Moves every chosen edit up and then down, from the first one on. -/
def settle (chosen : Edit α → Bool) (size : Nat) : Nat → Script α → Script α → Script α
  | 0, above, below => above.reverse ++ below
  | _, above, [] => above.reverse
  | fuel + 1, above, edit :: below =>
    if chosen edit then
      let focus := moveDown size (moveUp size ⟨above, edit, below⟩)
      settle chosen size fuel (focus.edit :: focus.above) focus.below
    else settle chosen size fuel (edit :: above) below

def Edit.isDeletion : Edit α → Bool
  | .delete _ _ => true
  | _ => false

def Edit.isInsertion : Edit α → Bool
  | .insert _ _ => true
  | _ => false

/-- The script that makes the second list of the first. -/
def script (old new : List α) : Script α :=
  let size := old.length + new.length + 1
  let found := divide size 0 0 old new
  let settled := settle Edit.isDeletion (2 * size) (size * size) [] found
  settle Edit.isInsertion (2 * size) (size * size) [] settled

end SchemaCompiler.Diff
