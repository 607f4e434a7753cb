import SchemaCompiler.Entries
import SchemaCompiler.Settings.KeyPath
import SchemaCompiler.Settings.Setting
import SchemaCompiler.Text.Case

/-!
# Layered settings

Settings come from several sources, each laid over the ones before it: tables are merged key by
key, anything else is replaced.  Upper and lower case are the same in a key, so every key is
stored in lower case.
-/

namespace SchemaCompiler.Setting

def storedKey (key : String) : String :=
  String.ofList (key.toList.flatMap Text.lower)

mutual

/-- A setting laid over another one.  A table without entries changes nothing, and what is inside
a list is left as it is. -/
def overlay : Setting → Option Setting → Setting
  | .table _ entries, some (.table source base) => .table source (overlayAll entries base)
  | .table _ (entry :: rest), _ => .table none (overlayAll (entry :: rest) [])
  | .table _ [], some base => base
  | .table _ [], none => .table none []
  | setting, _ => setting

def overlayAll : List (String × Setting) → List (String × Setting) → List (String × Setting)
  | [], base => base
  | (key, setting) :: rest, base =>
    let key := storedKey key
    overlayAll rest (Entries.insert base key (setting.overlay (Entries.get? base key)))

end

/-- A list that is long enough for an index, with the position of the item.  Empty items are added
in front where a negative index reaches before the list, else behind. -/
def reach (index : Int) (items : List Setting) : Nat × List Setting :=
  if 0 ≤ index then
    (index.toNat, items ++ List.replicate (index.toNat + 1 - items.length) empty)
  else
    (items.length - index.natAbs,
      List.replicate (index.natAbs - items.length) empty ++ items)

/-- Lays a setting over the place that a path leads to.  What is no table on the way to an entry,
or no list on the way to an item, gives way to a new one; an item itself is replaced. -/
def put (setting : Setting) : KeyPath → Option Setting → Setting
  | [], base => setting.overlay base
  | .entry key :: path, base =>
    let (source, entries) :=
      match base with
      | some (.table source entries) => (source, entries)
      | _ => (none, [])
    let key := storedKey key
    .table source (Entries.insert entries key (put setting path (Entries.get? entries key)))
  | .item index :: path, base =>
    let (source, items) :=
      match base with
      | some (.list source items) => (source, items)
      | _ => (none, [])
    let (position, items) := reach index items
    let item := if path.isEmpty then setting else put setting path items[position]?
    .list source (items.set position item)

/-- Lays the entries of a source over the settings so far. -/
def overlaySource (base : Setting) (source : Source) : Setting :=
  source.foldl (fun base (key, setting) => put setting (KeyPath.ofKey key) (some base)) base

end SchemaCompiler.Setting
