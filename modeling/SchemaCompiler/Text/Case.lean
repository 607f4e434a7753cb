import SchemaCompiler.Text.CaseTable

/-!
# Full case mapping

The upper or lower case of a character is a sequence of characters: `ß` becomes `SS`.  A
character without a partner maps to itself.
-/

namespace SchemaCompiler.Text

def mapCase (sequences : List (Nat × List Nat)) (runs : List CaseRun) (c : Char) :
    List Char :=
  match sequences.lookup c.toNat with
  | some codes => codes.map Char.ofNat
  | none =>
    match runs.find? (·.covers c.toNat) with
    | some run => [Char.ofNat (c.toNat + run.offset).toNat]
    | none => [c]

def upper (c : Char) : List Char :=
  mapCase upperSequences upperRuns c

def lower (c : Char) : List Char :=
  mapCase lowerSequences lowerRuns c

/-- The first character in upper case, the others through `rest`. -/
def capitalizeWith (rest : List Char → List Char) : List Char → List Char
  | [] => []
  | c :: cs => upper c ++ rest cs

/-- The first character in upper case, the others kept. -/
def capitalize (cs : List Char) : List Char :=
  capitalizeWith id cs

/-- The first character in upper case, the others in lower case. -/
def titleCase (cs : List Char) : List Char :=
  capitalizeWith (·.flatMap lower) cs

end SchemaCompiler.Text
