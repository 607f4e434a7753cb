import SchemaCompiler.MethodTable
import SchemaCompiler.Naming.Identifier
import SchemaCompiler.Render.Source

/-!
# Method constants

The source that holds the protocol version and one constant for each method, in the order of the
method keys.  Of two keys that give the same constant, the first stands.
-/

namespace SchemaCompiler.Render

/-- The label of the input where none is configured. -/
def methodLabel : String :=
  "schema/meta.json"

/-- `session_set_mode` gives `SESSION_SET_MODE`. -/
def constantName (key : String) : String :=
  Naming.screamingSnakeCase (Naming.pascalCase key)

/-- The constants of a table whose keys are in order: each name once, and none without a name. -/
def distinctConstants (taken : List String) : List (String × String) → List (String × String)
  | [] => []
  | (key, path) :: rest =>
    let name := constantName key
    if name.isEmpty || taken.contains name then distinctConstants taken rest
    else (name, path) :: distinctConstants (name :: taken) rest

def constants (methods : Entries String) : List (String × String) :=
  distinctConstants [] (sortBy (fun a b => a.1 ≤ b.1) methods)

def methodHolder (holder doc : String) (methods : Entries String) : Lines :=
  ["", "/// " ++ doc, "pub struct " ++ holder ++ ";", "", opening ("impl " ++ holder)] ++
    (constants methods).map (fun (name, path) =>
      step ++ "pub const " ++ name ++ ": &'static str = " ++ Text.quote path ++ ";") ++
    [closing]

def methodConstants (label : String) (table : MethodTable) : String :=
  text <|
    header label table.revision ++
      ["", "/// Protocol metadata", "pub struct ProtocolMeta;", "", opening "impl ProtocolMeta",
        step ++ "/// ACP protocol version",
        step ++ "pub const VERSION: u16 = " ++ toString table.version ++ ";", closing] ++
      methodHolder "AgentMethods" "Methods that agents handle" table.agentMethods ++
      methodHolder "ClientMethods" "Methods that clients handle" table.clientMethods

end SchemaCompiler.Render
