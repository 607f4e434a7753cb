/-!
# Reserved words

The words of the generated language that cannot stand as plain identifiers.  Most can be used in
raw form, behind a marker; a few cannot and take an underscore instead.
-/

namespace SchemaCompiler.Naming

/-- Reserved words without a raw form. -/
def fixedWords : List String :=
  ["self", "Self", "super", "crate"]

/-- Reserved words with a raw form. -/
def keywords : List String :=
  ["as", "break", "const", "continue", "else", "enum", "extern", "false", "fn", "for", "if",
    "impl", "in", "let", "loop", "match", "mod", "move", "mut", "pub", "ref", "return",
    "static", "struct", "trait", "true", "type", "unsafe", "use", "where", "while", "async",
    "await", "dyn", "abstract", "become", "box", "do", "final", "macro", "override", "priv",
    "typeof", "unsized", "virtual", "yield", "try", "gen"]

/-- The marker in front of a reserved word in raw form. -/
def rawMarker : String :=
  "r#"

/-- A name made legal with the given marker. -/
def escapeWith (marker name : String) : String :=
  if fixedWords.contains name then name ++ "_"
  else if keywords.contains name then marker ++ name
  else name

def escape (name : String) : String :=
  escapeWith rawMarker name

end SchemaCompiler.Naming
