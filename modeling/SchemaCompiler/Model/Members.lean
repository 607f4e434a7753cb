import SchemaCompiler.Model.TypeDecl
import SchemaCompiler.Naming.Fresh
import SchemaCompiler.Notice

/-!
# Enumeration members

Members are added one by one.  A value that comes again is dropped, and a name that comes again
gets a number; both leave a notice.
-/

namespace SchemaCompiler

structure Members where
  items : List EnumMember
  catchAll : Option CatchAll

namespace Members

def empty : Members :=
  ⟨[], none⟩

def names (members : Members) : List String :=
  members.items.map (·.name) ++ (members.catchAll.map (·.name)).toList

/-- A name of its own for a new member. -/
def uniqueName (members : Members) (definition base : String) : String × List Notice :=
  let name := Naming.fresh members.names base
  (name, if name = base then [] else [.memberConflict definition base name])

def push (members : Members) (definition name value : String) (description : Option String) :
    Members × List Notice :=
  if members.items.any (·.value = value) then
    (members, [.memberConflict definition value "(dropped)"])
  else
    let (name, notices) := members.uniqueName definition name
    ({ members with items := members.items ++ [⟨name, value, description⟩] }, notices)

/-- Adds the member that holds every unlisted value; the first one stays. -/
def openWith (members : Members) (definition name : String) (description : Option String) :
    Members × List Notice :=
  if members.catchAll.isSome then
    (members, [.memberConflict definition name "(dropped)"])
  else
    let (name, notices) := members.uniqueName definition name
    ({ members with catchAll := some ⟨name, description⟩ }, notices)

/-- An integer enumeration without a named value is only an alias of its width, and a string
enumeration is never open. -/
def toBody (members : Members) (form : EnumForm) : TypeBody :=
  match form with
  | .string => .enumeration form members.items none
  | .integer width =>
    if members.items.isEmpty then .aliasOf (.scalar (.integer width))
    else .enumeration form members.items members.catchAll

end Members

end SchemaCompiler
