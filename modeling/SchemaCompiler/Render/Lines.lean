import SchemaCompiler.Text.Blank

/-!
# Lines of source

Generated source is a list of lines until it is written.
-/

namespace SchemaCompiler.Render

abbrev Lines := List String

/-- Every line with its end. -/
def text (lines : Lines) : String :=
  String.join (lines.map (· ++ "\n"))

/-- One level of indentation. -/
def step : String :=
  "    "

def braced (inner : String) : String :=
  "\x7b" ++ inner ++ "\x7d"

/-- A head that opens a block. -/
def opening (head : String) : String :=
  head ++ " \x7b"

def closing : String :=
  "\x7d"

/-- The lines of a description, without the blanks around each. -/
def descriptionLines (description : String) : List String :=
  match Text.trim description.toList with
  | [] => []
  | cs => (Text.splitBy (· = '\n') cs).map fun line => String.ofList (Text.trim line)

/-- A description as comment lines; an empty line keeps the bare marker. -/
def docs (emit : Bool) (indent : String) (description : Option String) : Lines :=
  if emit then
    (descriptionLines (description.getD "")).map fun line =>
      if line.isEmpty then indent ++ "///" else indent ++ "/// " ++ line
  else []

end SchemaCompiler.Render
