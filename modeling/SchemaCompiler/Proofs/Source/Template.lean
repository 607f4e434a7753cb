import SchemaCompiler.Entries
import SchemaCompiler.Proofs.Source.Expression

/-!
# Templates of dynamic values

The expression that makes a dynamic value: a template in braces and brackets whose leaves are
literals of the generated language.  A template denotes one value at most (`Denotes.unique`), where
a numeral without point and exponent is a 32-bit integer, the type it has without a suffix.
-/

namespace SchemaCompiler.Source

inductive Template where
  | null
  | bool (value : Bool)
  | number (numeral : Numeral)
  | text (value : String)
  | array (items : List Template)
  | object (members : List (String × Template))

mutual

/-- The value that a template denotes.  A repeated key keeps its last value. -/
inductive Denotes : Template → Json → Prop where
  | null : Denotes .null .null
  | bool (value : Bool) : Denotes (.bool value) (.bool value)
  | integer {numeral : Numeral} (hwhole : numeral.isFloat = false)
      (hfits : IntWidth.int32.holds numeral.integer = true) :
      Denotes (.number numeral) (.number (.int numeral.integer))
  | float {numeral : Numeral} {value : Float} (hfloat : numeral.isFloat = true)
      (hrounds : Binary64.Rounds numeral.negative numeral.magnitude value) :
      Denotes (.number numeral) (.number (.float value))
  | text (value : String) : Denotes (.text value) (.string value)
  | array {items : List Template} {values : List Json} (h : DenotesAll items values) :
      Denotes (.array items) (.array values)
  | object {members : List (String × Template)} {pairs : List (String × Json)}
      {entries : Entries Json} (h : DenotesMembers members pairs)
      (hentries : Entries.ofPairs pairs = entries) : Denotes (.object members) (.object entries)

inductive DenotesAll : List Template → List Json → Prop where
  | nil : DenotesAll [] []
  | cons {item : Template} {rest : List Template} {value : Json} {values : List Json}
      (hitem : Denotes item value) (hrest : DenotesAll rest values) :
      DenotesAll (item :: rest) (value :: values)

inductive DenotesMembers : List (String × Template) → List (String × Json) → Prop where
  | nil : DenotesMembers [] []
  | cons {key : String} {member : Template} {rest : List (String × Template)} {value : Json}
      {pairs : List (String × Json)} (hmember : Denotes member value)
      (hrest : DenotesMembers rest pairs) :
      DenotesMembers ((key, member) :: rest) ((key, value) :: pairs)

end

mutual

/-- A template denotes one value at most. -/
theorem Denotes.unique {t : Template} {v v' : Json} (h : Denotes t v) (h' : Denotes t v') :
    v = v' := by
  cases h with
  | null => cases h'; rfl
  | bool => cases h'; rfl
  | integer hwhole =>
      cases h' with
      | integer => rfl
      | float hfloat => exact absurd hfloat (by rw [hwhole]; exact Bool.false_ne_true)
  | float hfloat hrounds =>
      cases h' with
      | integer hwhole => exact absurd hfloat (by rw [hwhole]; exact Bool.false_ne_true)
      | float _ hrounds' => rw [hrounds.unique hrounds']
  | text => cases h'; rfl
  | array h =>
      cases h' with
      | array h' => exact congrArg Json.array (DenotesAll.unique h h')
  | object h hentries =>
      cases h' with
      | object h' hentries' => rw [← hentries, ← hentries', DenotesMembers.unique h h']

theorem DenotesAll.unique {items : List Template} {vs vs' : List Json}
    (h : DenotesAll items vs) (h' : DenotesAll items vs') : vs = vs' := by
  cases h with
  | nil => cases h'; rfl
  | cons hitem hrest =>
      cases h' with
      | cons hitem' hrest' =>
          rw [Denotes.unique hitem hitem', DenotesAll.unique hrest hrest']

theorem DenotesMembers.unique {members : List (String × Template)} {ps ps' : List (String × Json)}
    (h : DenotesMembers members ps) (h' : DenotesMembers members ps') : ps = ps' := by
  cases h with
  | nil => cases h'; rfl
  | cons hmember hrest =>
      cases h' with
      | cons hmember' hrest' =>
          rw [Denotes.unique hmember hmember', DenotesMembers.unique hrest hrest']

end

theorem DenotesMembers.map_fst_eq {members : List (String × Template)}
    {pairs : List (String × Json)} (h : DenotesMembers members pairs) :
    members.map Prod.fst = pairs.map Prod.fst := by
  induction members generalizing pairs with
  | nil => cases h; rfl
  | cons member rest ih =>
      cases h with
      | cons _ hrest => rw [List.map_cons, List.map_cons, ih hrest]

/-! ## Reading -/

mutual

/-- A template, and what stands behind it. -/
def readTemplate : Nat → List Char → Option (Template × List Char)
  | 0, _ => none
  | fuel + 1, cs =>
    if startsNumber cs then
      (readNumeral cs).map fun (numeral, rest) => (.number numeral, rest)
    else
      match cs with
      | 'n' :: _ => (after? "null" cs).map (.null, ·)
      | 't' :: _ => (after? "true" cs).map (.bool true, ·)
      | 'f' :: _ => (after? "false" cs).map (.bool false, ·)
      | '"' :: rest =>
        (readString rest).map fun (text, rest) => (.text (String.ofList text), rest)
      | '[' :: ']' :: rest => some (.array [], rest)
      | '[' :: rest => (readTemplates fuel rest).map fun (items, rest) => (.array items, rest)
      | '\x7b' :: '\x7d' :: rest => some (.object [], rest)
      | '\x7b' :: rest =>
        (readMembers fuel rest).map fun (members, rest) => (.object members, rest)
      | _ => none

/-- The items of an array up to its bracket, at least one. -/
def readTemplates : Nat → List Char → Option (List Template × List Char)
  | 0, _ => none
  | fuel + 1, cs =>
    (readTemplate fuel cs).bind fun (item, rest) =>
      match rest with
      | ']' :: rest => some ([item], rest)
      | ',' :: rest => (readTemplates fuel rest).map fun (items, rest) => (item :: items, rest)
      | _ => none

/-- The members of an object up to its brace, at least one. -/
def readMembers : Nat → List Char → Option (List (String × Template) × List Char)
  | 0, _ => none
  | fuel + 1, cs =>
    (after? "\"" cs).bind fun cs =>
      (readString cs).bind fun (key, rest) =>
        (after? ":" rest).bind fun rest =>
          (readTemplate fuel rest).bind fun (value, rest) =>
            match rest with
            | '\x7d' :: rest => some ([(String.ofList key, value)], rest)
            | ',' :: rest =>
              (readMembers fuel rest).map fun (members, rest) =>
                ((String.ofList key, value) :: members, rest)
            | _ => none

end

theorem readTemplate_quote (fuel : Nat) (cs : List Char) :
    readTemplate (fuel + 1) ('"' :: cs) =
      (readString cs).map fun (text, rest) => (.text (String.ofList text), rest) :=
  rfl

theorem readTemplate_bracket (fuel : Nat) {cs : List Char} (h : cs.head? ≠ some ']') :
    readTemplate (fuel + 1) ('[' :: cs) =
      (readTemplates fuel cs).map fun (items, rest) => (.array items, rest) := by
  rw [readTemplate.eq_def]
  dsimp only
  rw [if_neg (by simp [startsNumber])]
  split <;> simp_all

theorem readTemplate_brace (fuel : Nat) {cs : List Char} (h : cs.head? ≠ some '\x7d') :
    readTemplate (fuel + 1) ('\x7b' :: cs) =
      (readMembers fuel cs).map fun (members, rest) => (.object members, rest) := by
  rw [readTemplate.eq_def]
  dsimp only
  rw [if_neg (by simp [startsNumber])]
  split <;> simp_all

/-- The template that a whole text hands to the macro for dynamic values. -/
def Template.read? (text : String) : Option Template :=
  (after? "serde_json::json!(" text.toList).bind fun cs =>
    match readTemplate cs.length cs with
    | some (template, [')']) => some template
    | _ => none

end SchemaCompiler.Source
