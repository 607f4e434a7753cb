import SchemaCompiler.Proofs.Render.Conversions
import SchemaCompiler.Proofs.Source.Numerals

/-!
# Expressions of static values

The expressions that make strings, truth values, numbers, lists and options: what they produce as
values of a type, of which there is never more than one (`Produces.unique`), and how they are read
from their text.  `Yields` says of a text that it is such an expression, and how the value that it
produces is encoded; there is a lemma for each form.
-/

namespace SchemaCompiler.Source

/-! ## Expressions and their values -/

/-- A string made from its literal, a truth value, a number, an empty list, a list of items, and
the two forms of an option. -/
inductive Expression where
  | text (value : String)
  | bool (value : Bool)
  | number (numeral : Numeral)
  | emptyList
  | list (items : List Expression)
  | absent
  | present (inner : Expression)

/-- The values that such expressions produce. -/
inductive Value where
  | text (value : String)
  | bool (value : Bool)
  | integer (value : Int)
  | float (value : Float)
  | list (items : List Value)
  | absent
  | present (inner : Value)

namespace Value

mutual

/-- The encoding of a value; an option is encoded as what it holds. -/
def json : Value → Json
  | text value => .string value
  | bool value => .bool value
  | integer value => .number (.int value)
  | float value => .number (.float value)
  | list items => .array (jsonAll items)
  | absent => .null
  | present inner => json inner

def jsonAll : List Value → List Json
  | [] => []
  | item :: rest => json item :: jsonAll rest

end

end Value

mutual

/-- An expression has a value of a type.  A numeral with a point or an exponent is a binary64 value,
any other one an integer of any width that holds it; only widths with a sign have a minus. -/
inductive Produces : Expression → TypeTerm → Value → Prop where
  | text (value : String) : Produces (.text value) (.named "String") (.text value)
  | bool (value : Bool) : Produces (.bool value) (.named "bool") (.bool value)
  | integer {numeral : Numeral} {width : IntWidth} {name : String} (hname : width.label = name)
      (hwhole : numeral.isFloat = false) (hsign : numeral.negative = true → width.least < 0)
      (hfits : width.holds numeral.integer = true) :
      Produces (.number numeral) (.named name) (.integer numeral.integer)
  | float {numeral : Numeral} {value : Float} (hfloat : numeral.isFloat = true)
      (hrounds : Binary64.Rounds numeral.negative numeral.magnitude value) :
      Produces (.number numeral) (.named "f64") (.float value)
  | emptyList (items : TypeTerm) : Produces .emptyList (.list items) (.list [])
  | list {items : List Expression} {type : TypeTerm} {values : List Value}
      (h : ProducesAll items type values) : Produces (.list items) (.list type) (.list values)
  | absent (inner : TypeTerm) : Produces .absent (.option inner) .absent
  | present {inner : Expression} {type : TypeTerm} {value : Value} (h : Produces inner type value) :
      Produces (.present inner) (.option type) (.present value)

inductive ProducesAll : List Expression → TypeTerm → List Value → Prop where
  | nil {type : TypeTerm} : ProducesAll [] type []
  | cons {item : Expression} {rest : List Expression} {type : TypeTerm} {value : Value}
      {values : List Value} (hitem : Produces item type value)
      (hrest : ProducesAll rest type values) : ProducesAll (item :: rest) type (value :: values)

end

mutual

/-- An expression has one value of a type. -/
theorem Produces.unique {e : Expression} {type : TypeTerm} {v v' : Value} (h : Produces e type v)
    (h' : Produces e type v') : v = v' := by
  cases h with
  | text => cases h'; rfl
  | bool => cases h'; rfl
  | integer _ hwhole =>
      cases h' with
      | integer => rfl
      | float hfloat => exact absurd hfloat (by rw [hwhole]; exact Bool.false_ne_true)
  | float hfloat hrounds =>
      cases h' with
      | integer _ hwhole => exact absurd hfloat (by rw [hwhole]; exact Bool.false_ne_true)
      | float _ hrounds' => exact congrArg Value.float (hrounds.unique hrounds')
  | emptyList => cases h'; rfl
  | list h =>
      cases h' with
      | list h' => exact congrArg Value.list (ProducesAll.unique h h')
  | absent => cases h'; rfl
  | present h =>
      cases h' with
      | present h' => exact congrArg Value.present (Produces.unique h h')

theorem ProducesAll.unique {items : List Expression} {type : TypeTerm} {vs vs' : List Value}
    (h : ProducesAll items type vs) (h' : ProducesAll items type vs') : vs = vs' := by
  cases h with
  | nil => cases h'; rfl
  | cons hitem hrest =>
      cases h' with
      | cons hitem' hrest' =>
          rw [Produces.unique hitem hitem', ProducesAll.unique hrest hrest']

end

/-! ## Reading -/

/-- What stands behind a word. -/
def after? (word : String) (cs : List Char) : Option (List Char) :=
  List.isPrefixOf? word.toList cs

theorem after?_append (word : String) (rest : List Char) :
    after? word (word.toList ++ rest) = some rest := by
  rw [after?, List.isPrefixOf?_eq_some_iff_append_eq]

/-- A text that begins with a minus or a digit. -/
def startsNumber (cs : List Char) : Bool :=
  cs.head?.any fun c => c = '-' || c.isDigit

mutual

/-- An expression, and what stands behind it. -/
def readExpression : Nat → List Char → Option (Expression × List Char)
  | 0, _ => none
  | fuel + 1, cs =>
    if startsNumber cs then
      (readNumeral cs).map fun (numeral, rest) => (.number numeral, rest)
    else
      match cs with
      | '"' :: cs =>
        (readString cs).bind fun (text, rest) =>
          (after? ".to_string()" rest).map (.text (String.ofList text), ·)
      | 't' :: _ => (after? "true" cs).map (.bool true, ·)
      | 'f' :: _ => (after? "false" cs).map (.bool false, ·)
      | 'V' :: _ => (after? "Vec::new()" cs).map (.emptyList, ·)
      | 'v' :: _ =>
        (after? "vec![" cs).bind fun cs =>
          (readItems fuel cs).map fun (items, rest) => (.list items, rest)
      | 'N' :: _ => (after? "None" cs).map (.absent, ·)
      | 'S' :: _ =>
        (after? "Some(" cs).bind fun cs =>
          (readExpression fuel cs).bind fun (inner, rest) =>
            (after? ")" rest).map (.present inner, ·)
      | _ => none

/-- The items of a list up to its bracket, at least one. -/
def readItems : Nat → List Char → Option (List Expression × List Char)
  | 0, _ => none
  | fuel + 1, cs =>
    (readExpression fuel cs).bind fun (item, rest) =>
      match rest with
      | ']' :: rest => some ([item], rest)
      | ',' :: ' ' :: rest =>
        (readItems fuel rest).map fun (items, rest) => (item :: items, rest)
      | _ => none

end

/-- The expression that a whole text is. -/
def Expression.read? (text : String) : Option Expression :=
  match readExpression text.toList.length text.toList with
  | some (e, []) => some e
  | _ => none

/-! ## Texts that read as an expression -/

/-- A text that reads as an expression, whatever closes it. -/
def ReadsAs (cs : List Char) (e : Expression) : Prop :=
  ∀ fuel rest, cs.length ≤ fuel → Closes rest → readExpression fuel (cs ++ rest) = some (e, rest)

def ItemsReadAs (cs : List Char) (items : List Expression) : Prop :=
  ∀ fuel rest, cs.length < fuel → readItems fuel (cs ++ ']' :: rest) = some (items, rest)

variable {cs : List Char} {e : Expression} {items : List Expression}

theorem closes_cons {c : Char} (hc : c ∈ [',', ')', ']', '\x7d']) (rest : List Char) :
    Closes (c :: rest) := by
  intro d hd
  rwa [← Option.some.inj hd]

theorem closes_nil : Closes [] :=
  nofun

theorem ReadsAs.read? {text : String} (h : ReadsAs text.toList e) :
    Expression.read? text = some e := by
  have hread := h text.toList.length [] le_rfl closes_nil
  rw [List.append_nil] at hread
  rw [Expression.read?, hread]

theorem readExpression_number (fuel : Nat) (h : startsNumber cs = true) :
    readExpression (fuel + 1) cs =
      (readNumeral cs).map fun (numeral, rest) => (.number numeral, rest) :=
  if_pos h

theorem readExpression_text (fuel : Nat) (cs : List Char) :
    readExpression (fuel + 1) ('"' :: cs) =
      (readString cs).bind fun (text, rest) =>
        (after? ".to_string()" rest).map (.text (String.ofList text), ·) :=
  rfl

theorem readExpression_list (fuel : Nat) (cs : List Char) :
    readExpression (fuel + 1) ("vec![".toList ++ cs) =
      (readItems fuel cs).map fun (items, rest) => (.list items, rest) := by
  have hopened := after?_append "vec![" cs
  exact congrArg (Option.bind · fun cs =>
    (readItems fuel cs).map fun found => (Expression.list found.1, found.2)) hopened

theorem readExpression_present (fuel : Nat) (cs : List Char) :
    readExpression (fuel + 1) ("Some(".toList ++ cs) =
      (readExpression fuel cs).bind fun (inner, rest) =>
        (after? ")" rest).map (.present inner, ·) := by
  have hopened := after?_append "Some(" cs
  exact congrArg (Option.bind · fun cs => (readExpression fuel cs).bind fun found =>
    (after? ")" found.2).map (Expression.present found.1, ·)) hopened

theorem readsAs_text (value : String) :
    ReadsAs (Text.quote value ++ ".to_string()").toList (.text value) := by
  rintro (_ | fuel) rest hfuel -
  · simp [Text.quote] at hfuel
  · have htext : (Text.quote value ++ ".to_string()").toList ++ rest =
        '"' :: (value.toList.flatMap Text.quoteChar ++
          '"' :: (".to_string()".toList ++ rest)) := by
      simp [Text.quote, String.toList_append]
    rw [htext, readExpression_text, readString_quoted, Option.bind_some]
    dsimp only
    rw [after?_append, Option.map_some, String.ofList_toList]

theorem readsAs_bool (value : Bool) : ReadsAs (toString value).toList (.bool value) := by
  rintro (_ | fuel) rest hfuel -
  · cases value <;> cases hfuel
  · cases value
    · exact congrArg (Option.map (Expression.bool false, ·)) (after?_append "false" rest)
    · exact congrArg (Option.map (Expression.bool true, ·)) (after?_append "true" rest)

theorem Writes.startsNumber {n : Numeral} (h : Writes cs n) (rest : List Char) :
    startsNumber (cs ++ rest) = true := by
  obtain ⟨c, hc, hstart⟩ := h.starts
  cases cs with
  | nil => cases hc
  | cons d cs =>
      obtain rfl : d = c := Option.some.inj hc
      simpa [Source.startsNumber] using hstart

theorem readsAs_number {n : Numeral} (h : Writes cs n) : ReadsAs cs (.number n) := by
  rintro (_ | fuel) rest hfuel hrest
  · obtain ⟨c, hc, -⟩ := h.starts
    rw [List.length_eq_zero_iff.mp (Nat.le_zero.mp hfuel)] at hc
    cases hc
  · rw [readExpression_number fuel (h.startsNumber rest), h.reads rest hrest]
    rfl

theorem readsAs_emptyList : ReadsAs "Vec::new()".toList .emptyList := by
  rintro (_ | fuel) rest hfuel -
  · cases hfuel
  · exact congrArg (Option.map (Expression.emptyList, ·)) (after?_append "Vec::new()" rest)

theorem readsAs_absent : ReadsAs "None".toList .absent := by
  rintro (_ | fuel) rest hfuel -
  · cases hfuel
  · exact congrArg (Option.map (Expression.absent, ·)) (after?_append "None" rest)

theorem readsAs_present {text : String} (h : ReadsAs text.toList e) :
    ReadsAs ("Some(" ++ text ++ ")").toList (.present e) := by
  rintro (_ | fuel) rest hfuel -
  · simp at hfuel
  · have htext : ("Some(" ++ text ++ ")").toList ++ rest =
        "Some(".toList ++ (text.toList ++ ')' :: rest) := by
      simp [String.toList_append]
    have hinner : text.toList.length ≤ fuel := by
      simp [String.toList_append] at hfuel ⊢
      omega
    have hread := h fuel (')' :: rest) hinner (closes_cons (by decide) rest)
    have hclosing : after? ")" (')' :: rest) = some rest := after?_append ")" rest
    rw [htext, readExpression_present, hread, Option.bind_some]
    dsimp only
    rw [hclosing, Option.map_some]

theorem readsAs_list {text : String} (h : ItemsReadAs text.toList items) :
    ReadsAs ("vec![" ++ text ++ "]").toList (.list items) := by
  rintro (_ | fuel) rest hfuel -
  · simp at hfuel
  · have htext : ("vec![" ++ text ++ "]").toList ++ rest =
        "vec![".toList ++ (text.toList ++ ']' :: rest) := by
      simp [String.toList_append]
    have hinner : text.toList.length < fuel := by
      simp [String.toList_append] at hfuel ⊢
      omega
    rw [htext, readExpression_list, h fuel rest hinner]
    rfl

theorem itemsReadAs_singleton (h : ReadsAs cs e) : ItemsReadAs cs [e] := by
  rintro (_ | fuel) rest hfuel
  · cases hfuel
  · rw [readItems, h fuel _ (Nat.le_of_lt_succ hfuel) (closes_cons (by decide) rest)]
    rfl

theorem itemsReadAs_cons {tail : List Char} (h : ReadsAs cs e) (htail : ItemsReadAs tail items) :
    ItemsReadAs (cs ++ ',' :: ' ' :: tail) (e :: items) := by
  rintro (_ | fuel) rest hfuel
  · cases hfuel
  · simp only [List.length_append, List.length_cons] at hfuel
    have hread := h fuel (',' :: ' ' :: (tail ++ ']' :: rest)) (by omega)
      (closes_cons (by decide) _)
    rw [List.append_assoc, List.cons_append, List.cons_append, readItems, hread]
    simp only [Option.bind_some]
    rw [htail fuel rest (by omega)]
    rfl

/-! ## What a text yields -/

/-- The text is that of an expression, and what it produces as a value of the type is encoded so. -/
def Yields (text : String) (type : TypeTerm) (json : Json) : Prop :=
  ∃ e value, ReadsAs text.toList e ∧ Produces e type value ∧ value.json = json

def YieldsAll (text : String) (type : TypeTerm) (values : List Json) : Prop :=
  ∃ items found, ItemsReadAs text.toList items ∧ ProducesAll items type found ∧
    Value.jsonAll found = values

theorem yields_text (text : String) :
    Yields (Text.quote text ++ ".to_string()") (.named "String") (.string text) :=
  ⟨.text text, .text text, readsAs_text text, .text text, rfl⟩

theorem yields_bool (b : Bool) : Yields (toString b) (.named "bool") (.bool b) :=
  ⟨.bool b, .bool b, readsAs_bool b, .bool b, rfl⟩

theorem yields_emptyList (items : TypeTerm) : Yields "Vec::new()" (.list items) (.array []) :=
  ⟨.emptyList, .list [], readsAs_emptyList, .emptyList items, rfl⟩

theorem yields_absent (inner : TypeTerm) : Yields "None" (.option inner) .null :=
  ⟨.absent, .absent, readsAs_absent, .absent inner, rfl⟩

theorem yields_integer {width : IntWidth} {i : Int} (h : width.holds i = true) :
    Yields (Json.numberText (.int i)) (.named width.label) (.number (.int i)) := by
  obtain ⟨n, hwrites, hwhole, hinteger, hnegative⟩ := exists_writes_int i
  refine ⟨.number n, .integer n.integer, readsAs_number hwrites, .integer rfl hwhole ?_ ?_, ?_⟩
  · intro hsign
    exact (IntWidth.holds_iff.mp h).1.trans_lt (hnegative.mp hsign)
  · rwa [hinteger]
  · rw [hinteger]
    rfl

theorem yields_float {layout : Layout} (hpoint : layout.pointZero = true) {x : Float}
    (h : x.isFinite = true) : Yields (layout.write x) (.named "f64") (.number (.float x)) := by
  obtain ⟨n, hwrites, hfloat, hrounds⟩ := exists_writes_float hpoint h
  exact ⟨.number n, .float x, readsAs_number hwrites, .float hfloat hrounds, rfl⟩

theorem Yields.present {text : String} {type : TypeTerm} {json : Json}
    (h : Yields text type json) : Yields ("Some(" ++ text ++ ")") (.option type) json := by
  obtain ⟨e, value, hreads, hproduces, hjson⟩ := h
  exact ⟨.present e, .present value, readsAs_present hreads, .present hproduces, hjson⟩

theorem YieldsAll.list {text : String} {type : TypeTerm} {values : List Json}
    (h : YieldsAll text type values) :
    Yields ("vec![" ++ text ++ "]") (.list type) (.array values) := by
  obtain ⟨items, found, hreads, hproduces, hjson⟩ := h
  exact ⟨.list items, .list found, readsAs_list hreads, .list hproduces, congrArg Json.array hjson⟩

theorem Yields.singleton {text : String} {type : TypeTerm} {json : Json}
    (h : Yields text type json) : YieldsAll text type [json] := by
  obtain ⟨e, value, hreads, hproduces, rfl⟩ := h
  exact ⟨[e], [value], itemsReadAs_singleton hreads, .cons hproduces .nil, rfl⟩

theorem Yields.cons {text tail : String} {type : TypeTerm} {json : Json} {values : List Json}
    (h : Yields text type json) (htail : YieldsAll tail type values) :
    YieldsAll (text ++ ", " ++ tail) type (json :: values) := by
  obtain ⟨e, value, hreads, hproduces, rfl⟩ := h
  obtain ⟨items, found, hitems, hall, rfl⟩ := htail
  refine ⟨e :: items, value :: found, ?_, .cons hproduces hall, rfl⟩
  have htext : (text ++ ", " ++ tail).toList = text.toList ++ ',' :: ' ' :: tail.toList := by
    simp [String.toList_append]
  rw [htext]
  exact itemsReadAs_cons hreads hitems

end SchemaCompiler.Source
