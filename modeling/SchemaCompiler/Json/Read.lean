import SchemaCompiler.Json.Draft
import SchemaCompiler.Json.Numeral

/-!
# Reading JSON text

`Draft.ofText` takes a text apart; `Json.parse` asks for the whole value it holds.
-/

namespace SchemaCompiler

/-- The outcome of reading one item: what was found, and the text behind it unless a fault put an
end to the reading. -/
structure Found (α : Type) where
  value : α
  rest : Option (List Char)

namespace Draft

def isSpace (c : Char) : Bool :=
  c = ' ' || c = '\n' || c = '\t' || c = '\r'

def skipSpace (cs : List Char) : List Char :=
  cs.dropWhile isSpace

/-- The fault of a character out of place, or of an end where a character is due. -/
def faultAt : List Char → Fault
  | [] => .truncated
  | _ :: _ => .malformed

private def stop (reading passing : Fault) : Found (Token α) :=
  ⟨⟨.error reading, some passing⟩, none⟩

/-! ## Numbers -/

private def digitValues (cs : List Char) : List Nat :=
  cs.map fun c => c.toNat - '0'.toNat

/-- A numeral, or the two faults of one that is broken off. -/
private def readNumeral (cs : List Char) : Except (Fault × Fault) (Numeral × List Char) := do
  let (negative, cs) :=
    match cs with
    | '-' :: rest => (true, rest)
    | _ => (false, cs)
  let whole := cs.takeWhile Char.isDigit
  let rest := cs.dropWhile Char.isDigit
  if whole.isEmpty then throw (faultAt rest, .malformed)
  if whole.head? = some '0' && whole.length ≠ 1 then throw (.malformed, .malformed)
  let (fraction, rest) ←
    match rest with
    | '.' :: rest =>
      let digits := rest.takeWhile Char.isDigit
      let rest := rest.dropWhile Char.isDigit
      if digits.isEmpty then throw (faultAt rest, .malformed)
      pure (some (digitValues digits), rest)
    | _ => pure (none, rest)
  let (exponent, rest) ←
    match rest with
    | c :: rest =>
      if c = 'e' || c = 'E' then
        let (negativeExponent, rest) :=
          match rest with
          | '-' :: rest => (true, rest)
          | '+' :: rest => (false, rest)
          | _ => (false, rest)
        let digits := rest.takeWhile Char.isDigit
        let rest := rest.dropWhile Char.isDigit
        if digits.isEmpty then throw (faultAt rest, .malformed)
        let size : Int := Numeral.ofDigits (digitValues digits)
        pure (some (if negativeExponent then -size else size), rest)
      else pure (none, c :: rest)
    | [] => pure (none, [])
  pure (⟨negative, digitValues whole, fraction, exponent⟩, rest)

def readNumber (cs : List Char) : Found (Token Number) :=
  match readNumeral cs with
  | .error (reading, passing) => stop reading passing
  | .ok (numeral, rest) =>
    match numeral.number? with
    | some value => ⟨⟨.ok value, none⟩, some rest⟩
    | none => ⟨⟨.error .malformed, none⟩, some rest⟩

/-! ## Strings -/

private def hexValue? (c : Char) : Option Nat :=
  if c.isDigit then some (c.toNat - '0'.toNat)
  else if 'a' ≤ c && c ≤ 'f' then some (c.toNat - 'a'.toNat + 10)
  else if 'A' ≤ c && c ≤ 'F' then some (c.toNat - 'A'.toNat + 10)
  else none

/-- Four hexadecimal digits.  Where fewer than four bytes are left, the text ended too soon. -/
def readHex (cs : List Char) : Except Fault (Nat × List Char) :=
  match (cs.take 4).mapM hexValue? with
  | some [a, b, c, d] => .ok (((a * 16 + b) * 16 + c) * 16 + d, cs.drop 4)
  | _ =>
    if (String.ofList (cs.take 4)).utf8ByteSize < 4 then .error .truncated else .error .malformed

def isHighSurrogate (code : Nat) : Bool :=
  0xD800 ≤ code && code < 0xDC00

def isLowSurrogate (code : Nat) : Bool :=
  0xDC00 ≤ code && code < 0xE000

/-- The character of a numeric escape, which spends a second escape on a surrogate pair. -/
def readCodeUnit (cs : List Char) : Except Fault (Char × List Char) := do
  let (code, rest) ← readHex cs
  if isLowSurrogate code then throw .malformed
  else if isHighSurrogate code then
    match rest with
    | '\\' :: 'u' :: rest =>
      let (second, rest) ← readHex rest
      if isLowSurrogate second then
        pure (Char.ofNat (0x10000 + (code - 0xD800) * 0x400 + (second - 0xDC00)), rest)
      else throw .malformed
    | ['\\'] => throw .truncated
    | rest => throw (faultAt rest)
  else pure (Char.ofNat code, rest)

/-- The character that a one-letter escape stands for. -/
def simpleEscape? (c : Char) : Option Char :=
  if c = '"' || c = '\\' || c = '/' then some c
  else if c = 'b' then some '\x08'
  else if c = 'f' then some '\x0c'
  else if c = 'n' then some '\n'
  else if c = 'r' then some '\r'
  else if c = 't' then some '\t'
  else none

/-- The characters up to the closing quote. -/
def readCharacters : Nat → List Char → Except Fault (List Char × List Char)
  | 0, _ => .error .truncated
  | _ + 1, [] => .error .truncated
  | fuel + 1, c :: rest => do
    if c = '"' then pure ([], rest)
    else if c = '\\' then
      match rest with
      | [] => throw .truncated
      | e :: rest =>
        let (char, rest) ←
          if e = 'u' then readCodeUnit rest
          else
            match simpleEscape? e with
            | some char => pure (char, rest)
            | none => throw .malformed
        let (chars, rest) ← readCharacters fuel rest
        pure (char :: chars, rest)
    else if c.toNat < 0x20 then throw .malformed
    else
      let (chars, rest) ← readCharacters fuel rest
      pure (c :: chars, rest)

/-- The text behind the closing quote, for a reader that does not pair surrogates. -/
def passCharacters : Nat → List Char → Except Fault (List Char)
  | 0, _ => .error .truncated
  | _ + 1, [] => .error .truncated
  | fuel + 1, c :: rest =>
    if c = '"' then .ok rest
    else if c = '\\' then
      match rest with
      | [] => .error .truncated
      | e :: rest =>
        if e = 'u' then
          match readHex rest with
          | .ok (_, rest) => passCharacters fuel rest
          | .error fault => .error fault
        else if (simpleEscape? e).isSome then passCharacters fuel rest
        else .error .malformed
    else if c.toNat < 0x20 then .error .malformed
    else passCharacters fuel rest

/-- A string, from behind its opening quote.  Every character costs at most one unit of fuel. -/
def readString (fuel : Nat) (cs : List Char) : Found (Token String) :=
  let reading := readCharacters fuel cs
  match passCharacters fuel cs with
  | .ok rest => ⟨⟨reading.map (String.ofList ·.1), none⟩, some rest⟩
  | .error passing => ⟨⟨reading.map (String.ofList ·.1), some passing⟩, none⟩

/-! ## Values -/

/-- The rest of a word, which must stand letter for letter. -/
def readLetters : List Char → List Char → Except Fault (List Char)
  | [], rest => .ok rest
  | _ :: _, [] => .error .truncated
  | letter :: letters, c :: rest =>
    if c = letter then readLetters letters rest else .error .malformed

private def readWord (value : Json) (letters : String) (cs : List Char) : Found Draft :=
  match readLetters letters.toList cs with
  | .ok rest => ⟨.word ⟨.ok value, none⟩, some rest⟩
  | .error fault => ⟨.word ⟨.error fault, some fault⟩, none⟩

private def brokenAt (cs : List Char) : Found Draft :=
  ⟨.broken (faultAt cs), none⟩

mutual

/-- One value, leading space included. -/
def readValue : Nat → List Char → Found Draft
  | 0, _ => ⟨.broken .malformed, none⟩
  | fuel + 1, cs =>
    match skipSpace cs with
    | [] => brokenAt []
    | c :: rest =>
      if c = 'n' then readWord .null "ull" rest
      else if c = 't' then readWord (.bool true) "rue" rest
      else if c = 'f' then readWord (.bool false) "alse" rest
      else if c = '"' then
        let found := readString (fuel + 1) rest
        ⟨.string found.value, found.rest⟩
      else if c = '-' || c.isDigit then
        let found := readNumber (c :: rest)
        ⟨.number found.value, found.rest⟩
      else if c = '[' then
        match skipSpace rest with
        | [] => ⟨.array [] (some .truncated), none⟩
        | ']' :: rest => ⟨.array [] none, some rest⟩
        | rest =>
          let found := readItems fuel rest
          ⟨.array found.value.1 found.value.2, found.rest⟩
      else if c = '\x7b' then
        match skipSpace rest with
        | [] => ⟨.object [] (some .truncated), none⟩
        | '\x7d' :: rest => ⟨.object [] none, some rest⟩
        | rest =>
          let found := readMembers fuel rest
          ⟨.object found.value.1 found.value.2, found.rest⟩
      else ⟨.broken .malformed, none⟩

/-- The items of an array up to its bracket, at least one.  A comma always leads to an item, be it
a broken one. -/
def readItems : Nat → List Char → Found (List Draft × Option Fault)
  | 0, _ => ⟨([], some .malformed), none⟩
  | fuel + 1, cs =>
    let item := readValue fuel cs
    match item.rest with
    | none => ⟨([item.value], some .truncated), none⟩
    | some rest =>
      match skipSpace rest with
      | ',' :: rest =>
        let more := readItems fuel rest
        ⟨(item.value :: more.value.1, more.value.2), more.rest⟩
      | ']' :: rest => ⟨([item.value], none), some rest⟩
      | rest => ⟨([item.value], some (faultAt rest)), none⟩

/-- The members of an object up to its brace, at least one. -/
def readMembers : Nat → List Char → Found (List (Draft × Draft) × Option Fault)
  | 0, _ => ⟨([], some .malformed), none⟩
  | fuel + 1, cs =>
    let name := readValue fuel cs
    let value : Found Draft :=
      match name.value, name.rest with
      | .string _, some rest =>
        match skipSpace rest with
        | ':' :: rest => readValue fuel rest
        | rest => brokenAt rest
      | _, _ => ⟨.broken .malformed, none⟩
    match value.rest with
    | none => ⟨([(name.value, value.value)], some .truncated), none⟩
    | some rest =>
      match skipSpace rest with
      | ',' :: rest =>
        let more := readMembers fuel rest
        ⟨((name.value, value.value) :: more.value.1, more.value.2), more.rest⟩
      | '\x7d' :: rest => ⟨([(name.value, value.value)], none), some rest⟩
      | rest => ⟨([(name.value, value.value)], some (faultAt rest)), none⟩

end

/-- A text as one value, and the fault of whatever but space stands behind it.  Between two
characters that are read, at most four steps go deeper. -/
def ofText (text : String) : Draft × Option Fault :=
  let cs := text.toList
  let found := readValue (4 * cs.length + 4) cs
  let trailing :=
    match found.rest with
    | none => none
    | some rest => if (skipSpace rest).isEmpty then none else some Fault.malformed
  (found.value, trailing)

end Draft

/-- The value that a whole text holds. -/
def Json.parse (text : String) : Except Fault Json := do
  let (draft, trailing) := Draft.ofText text
  let value ← draft.toJson Draft.levelLimit
  Draft.finish trailing
  pure value

end SchemaCompiler
