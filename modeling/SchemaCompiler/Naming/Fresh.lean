/-!
# Fresh names

A name that is taken is tried again with `2`, `3`, … behind it.  Among one more candidate than
there are names in use, one is always free.
-/

namespace SchemaCompiler.Naming

/-- The name itself, then numbered names. -/
def candidates (base : String) (count : Nat) : List String :=
  base :: (List.range count).map fun n => base ++ toString (n + 2)

/-- The first candidate whose key is not in use. -/
def freshBy (key : String → String) (used : List String) (base : String) : String :=
  ((candidates base used.length).find? fun name => !used.contains (key name)).getD base

/-- The first candidate that is not in use. -/
def fresh (used : List String) (base : String) : String :=
  freshBy id used base

end SchemaCompiler.Naming
