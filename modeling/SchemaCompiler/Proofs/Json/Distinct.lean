import SchemaCompiler.Proofs.Document
import SchemaCompiler.Proofs.Entries
import SchemaCompiler.Proofs.Fallible

/-!
# Keys of what is read

Reading an object writes its members into a table, where a repeated key keeps one place.  So no
object inside a value that was read repeats a key (`Json.distinctKeys_of_parse`), and neither does
any inside the definitions of a document that was (`Document.distinctKeys_of_parse`).
-/

namespace SchemaCompiler

open Fallible

namespace Json

theorem distinctKeysMembers_iff {members : List (String × Json)} :
    DistinctKeysMembers members ↔ ∀ entry ∈ members, entry.2.DistinctKeys := by
  induction members with
  | nil => exact iff_of_true trivial (List.forall_mem_nil _)
  | cons head rest ih =>
      show head.2.DistinctKeys ∧ DistinctKeysMembers rest ↔ _
      rw [ih, List.forall_mem_cons]

theorem distinctKeysAll_iff {items : List Json} :
    DistinctKeysAll items ↔ ∀ item ∈ items, item.DistinctKeys := by
  induction items with
  | nil => exact iff_of_true trivial (List.forall_mem_nil _)
  | cons head rest ih =>
      show head.DistinctKeys ∧ DistinctKeysAll rest ↔ _
      rw [ih, List.forall_mem_cons]

theorem distinctKeys_object_iff {members : List (String × Json)} :
    (Json.object members).DistinctKeys ↔
      Entries.Distinct members ∧ ∀ entry ∈ members, entry.2.DistinctKeys := by
  show (members.map Prod.fst).Nodup ∧ DistinctKeysMembers members ↔ _
  rw [distinctKeysMembers_iff]
  rfl

theorem distinctKeys_array_iff {items : List Json} :
    (Json.array items).DistinctKeys ↔ ∀ item ∈ items, item.DistinctKeys :=
  distinctKeysAll_iff

theorem distinctKeys_of_get? {members : List (String × Json)}
    (h : (Json.object members).DistinctKeys) {key : String} {value : Json}
    (hvalue : Entries.get? members key = some value) : value.DistinctKeys := by
  rw [distinctKeys_object_iff] at h
  exact h.2 _ (Entries.mem_of_get?_eq_some hvalue)

theorem distinctKeys_ofPairs {pairs : List (String × Json)}
    (h : ∀ pair ∈ pairs, pair.2.DistinctKeys) :
    (Json.object (Entries.ofPairs pairs)).DistinctKeys := by
  rw [distinctKeys_object_iff]
  refine ⟨Entries.distinct_ofPairs pairs, ?_⟩
  intro entry hentry
  exact h entry (Entries.mem_ofPairs hentry)

end Json

/-! ## Nodes -/

namespace Node

variable {node : Node} (h : (Json.object node).DistinctKeys) {key : String}

include h

theorem distinctKeys_of_object? {members : Node} (hmembers : node.object? key = some members) :
    (Json.object members).DistinctKeys := by
  obtain ⟨value, hvalue, hobject⟩ := Option.bind_eq_some_iff.mp hmembers
  cases value with
  | object found =>
      obtain rfl : found = members := Option.some.inj hobject
      exact Json.distinctKeys_of_get? h hvalue
  | _ => cases hobject

theorem distinctKeys_of_array? {items : List Json} (hitems : node.array? key = some items)
    {item : Json} (hitem : item ∈ items) : item.DistinctKeys := by
  obtain ⟨value, hvalue, harray⟩ := Option.bind_eq_some_iff.mp hitems
  cases value with
  | array found =>
      obtain rfl : found = items := Option.some.inj harray
      have hall := Json.distinctKeys_of_get? h hvalue
      rw [Json.distinctKeys_array_iff] at hall
      exact hall item hitem
  | _ => cases harray

theorem distinctKeys_of_objectItems {items : List Json} (hitems : node.array? key = some items)
    {item : Node} (hitem : item ∈ objectItems items) : (Json.object item).DistinctKeys := by
  obtain ⟨value, hvalue, hobject⟩ := List.mem_filterMap.mp hitem
  cases value with
  | object members =>
      obtain rfl : members = item := Option.some.inj hobject
      exact distinctKeys_of_array? h hitems hvalue
  | _ => cases hobject

end Node

/-! ## Drafts -/

namespace Draft

mutual

/-- The words inside a draft stand for values without repeated keys. -/
def Plain : Draft → Prop
  | .word token => ∀ value, token.reading = .ok value → value.DistinctKeys
  | .array items _ => PlainItems items
  | .object members _ => PlainMembers members
  | .number _ | .string _ | .broken _ => True

def PlainItems : List Draft → Prop
  | [] => True
  | item :: rest => item.Plain ∧ PlainItems rest

def PlainMembers : List (Draft × Draft) → Prop
  | [] => True
  | (_, value) :: rest => value.Plain ∧ PlainMembers rest

end

mutual

theorem distinctKeys_toJson (draft : Draft) (levels : Nat) (hplain : draft.Plain) {value : Json}
    (h : draft.toJson levels = .ok value) : value.DistinctKeys := by
  cases draft with
  | word token => exact hplain value h
  | number token =>
      obtain ⟨number, -, rfl⟩ := map_eq_ok_iff.mp h
      exact trivial
  | string token =>
      obtain ⟨text, -, rfl⟩ := map_eq_ok_iff.mp h
      exact trivial
  | array items ending =>
      obtain ⟨levels, -, h⟩ := bind_eq_ok_iff.mp h
      obtain ⟨values, hvalues, h⟩ := bind_eq_ok_iff.mp h
      obtain ⟨-, -, h⟩ := bind_eq_ok_iff.mp h
      obtain rfl := Except.ok.inj h
      exact Json.distinctKeys_array_iff.mpr (distinctKeys_toJsonItems items levels hplain hvalues)
  | object members ending =>
      obtain ⟨levels, -, h⟩ := bind_eq_ok_iff.mp h
      obtain ⟨pairs, hpairs, h⟩ := bind_eq_ok_iff.mp h
      obtain ⟨-, -, h⟩ := bind_eq_ok_iff.mp h
      obtain rfl := Except.ok.inj h
      exact Json.distinctKeys_ofPairs (distinctKeys_toJsonMembers members levels hplain hpairs)
  | broken fault => cases h

theorem distinctKeys_toJsonItems (items : List Draft) (levels : Nat) (hplain : PlainItems items)
    {values : List Json} (h : toJsonItems levels items = .ok values) :
    ∀ value ∈ values, value.DistinctKeys := by
  cases items with
  | nil =>
      cases h
      exact fun value hvalue => absurd hvalue List.not_mem_nil
  | cons item rest =>
      obtain ⟨first, hfirst, h⟩ := bind_eq_ok_iff.mp h
      obtain ⟨more, hmore, h⟩ := bind_eq_ok_iff.mp h
      cases h
      exact List.forall_mem_cons.mpr ⟨distinctKeys_toJson item levels hplain.1 hfirst,
        distinctKeys_toJsonItems rest levels hplain.2 hmore⟩

theorem distinctKeys_toJsonMembers (members : List (Draft × Draft)) (levels : Nat)
    (hplain : PlainMembers members) {pairs : List (String × Json)}
    (h : toJsonMembers levels members = .ok pairs) : ∀ pair ∈ pairs, pair.2.DistinctKeys := by
  cases members with
  | nil =>
      cases h
      exact fun pair hpair => absurd hpair List.not_mem_nil
  | cons member rest =>
      obtain ⟨name, value⟩ := member
      obtain ⟨name, -, h⟩ := bind_eq_ok_iff.mp h
      obtain ⟨first, hfirst, h⟩ := bind_eq_ok_iff.mp h
      obtain ⟨more, hmore, h⟩ := bind_eq_ok_iff.mp h
      cases h
      exact List.forall_mem_cons.mpr ⟨distinctKeys_toJson value levels hplain.1 hfirst,
        distinctKeys_toJsonMembers rest levels hplain.2 hmore⟩

end

/-! ## Reading -/

/-- A word is read as a value without members. -/
theorem plain_word (value : Json) (hvalue : value.DistinctKeys) (letters cs : List Char) :
    (match readLetters letters cs with
      | .ok rest => (⟨.word ⟨.ok value, none⟩, some rest⟩ : Found Draft)
      | .error fault => ⟨.word ⟨.error fault, some fault⟩, none⟩).value.Plain := by
  split
  · intro found hfound
    obtain rfl := Except.ok.inj hfound
    exact hvalue
  · intro found hfound
    cases hfound

/-- Whatever stands in front, a value is plain if the items and members inside it are. -/
theorem plain_readValue_succ {fuel : Nat}
    (hitems : ∀ cs, PlainItems (readItems fuel cs).value.1)
    (hmembers : ∀ cs, PlainMembers (readMembers fuel cs).value.1) (cs : List Char) :
    (readValue (fuel + 1) cs).value.Plain := by
  rw [readValue]
  split
  · exact trivial
  · split
    · exact plain_word .null trivial _ _
    · split
      · exact plain_word (.bool true) trivial _ _
      · split
        · exact plain_word (.bool false) trivial _ _
        · split
          · exact trivial
          · split
            · exact trivial
            · split
              · split
                · exact trivial
                · exact trivial
                · exact hitems _
              · split
                · split
                  · exact trivial
                  · exact trivial
                  · exact hmembers _
                · exact trivial

theorem plainItems_readItems_succ {fuel : Nat} (hvalue : ∀ cs, (readValue fuel cs).value.Plain)
    (hitems : ∀ cs, PlainItems (readItems fuel cs).value.1) (cs : List Char) :
    PlainItems (readItems (fuel + 1) cs).value.1 := by
  rw [readItems]
  dsimp only
  split
  · exact ⟨hvalue _, trivial⟩
  · split
    · exact ⟨hvalue _, hitems _⟩
    · exact ⟨hvalue _, trivial⟩
    · exact ⟨hvalue _, trivial⟩

/-- A member has the value that stands behind its colon, or one that is broken. -/
theorem readMembers_succ (fuel : Nat) (cs : List Char) :
    ∃ found : Found Draft,
      ((∃ rest, found = readValue fuel rest) ∨ ∃ fault, found.value = .broken fault) ∧
      readMembers (fuel + 1) cs =
        match found.rest with
        | none => ⟨([((readValue fuel cs).value, found.value)], some .truncated), none⟩
        | some rest =>
          match skipSpace rest with
          | ',' :: rest =>
            let more := readMembers fuel rest
            ⟨(((readValue fuel cs).value, found.value) :: more.value.1, more.value.2), more.rest⟩
          | '\x7d' :: rest => ⟨([((readValue fuel cs).value, found.value)], none), some rest⟩
          | rest => ⟨([((readValue fuel cs).value, found.value)], some (faultAt rest)), none⟩ := by
  rw [readMembers]
  refine ⟨_, ?_, rfl⟩
  split
  · split
    · exact Or.inl ⟨_, rfl⟩
    · exact Or.inr ⟨_, rfl⟩
  · exact Or.inr ⟨_, rfl⟩

theorem plainMembers_readMembers_succ {fuel : Nat}
    (hvalue : ∀ cs, (readValue fuel cs).value.Plain)
    (hmembers : ∀ cs, PlainMembers (readMembers fuel cs).value.1) (cs : List Char) :
    PlainMembers (readMembers (fuel + 1) cs).value.1 := by
  obtain ⟨found, hfound, hread⟩ := readMembers_succ fuel cs
  have hplain : found.value.Plain := by
    rcases hfound with ⟨rest, rfl⟩ | ⟨fault, hbroken⟩
    · exact hvalue rest
    · rw [hbroken]
      exact trivial
  rw [hread]
  split
  · exact ⟨hplain, trivial⟩
  · split
    · exact ⟨hplain, hmembers _⟩
    · exact ⟨hplain, trivial⟩
    · exact ⟨hplain, trivial⟩

theorem plain_read (fuel : Nat) :
    (∀ cs, (readValue fuel cs).value.Plain) ∧ (∀ cs, PlainItems (readItems fuel cs).value.1) ∧
      ∀ cs, PlainMembers (readMembers fuel cs).value.1 := by
  induction fuel with
  | zero => exact ⟨fun cs => trivial, fun cs => trivial, fun cs => trivial⟩
  | succ fuel ih =>
      obtain ⟨hvalue, hitems, hmembers⟩ := ih
      exact ⟨plain_readValue_succ hitems hmembers, plainItems_readItems_succ hvalue hitems,
        plainMembers_readMembers_succ hvalue hmembers⟩

end Draft

theorem Json.distinctKeys_of_parse {text : String} {value : Json}
    (h : Json.parse text = .ok value) : value.DistinctKeys := by
  obtain ⟨found, hfound, h⟩ := bind_eq_ok_iff.mp h
  obtain ⟨-, -, h⟩ := bind_eq_ok_iff.mp h
  obtain rfl := Except.ok.inj h
  exact Draft.distinctKeys_toJson _ _ ((Draft.plain_read _).1 _) hfound

theorem Document.distinctKeys_of_get? {document : Document}
    (h : (Json.object document.definitions).DistinctKeys) {name : String} {definition : Definition}
    (hdefinition : document.get? name = some definition) :
    (Json.object definition.node).DistinctKeys :=
  (Json.distinctKeys_object_iff.mp h).2 _ (Document.get?_eq_some_iff.mp hdefinition).2

theorem Document.distinctKeys_of_ofJson {value : Json} (hvalue : value.DistinctKeys)
    {document : Document} (h : Document.ofJson value = .ok document) :
    (Json.object document.definitions).DistinctKeys := by
  unfold ofJson at h
  split at h
  · rename_i members
    obtain ⟨-, hmembers⟩ := Json.distinctKeys_object_iff.mp hvalue
    split at h
    · cases h
    · rename_i definitions hdefinitions
      obtain rfl := Except.ok.inj h
      have hmem : ∃ key, (key, Json.object definitions) ∈ members := by
        rcases Option.or_eq_some_iff.mp hdefinitions with hfound | ⟨-, hfound⟩
        · exact ⟨_, Entries.mem_of_get?_eq_some hfound⟩
        · exact ⟨_, Entries.mem_of_get?_eq_some hfound⟩
      obtain ⟨key, hmem⟩ := hmem
      obtain ⟨-, hinside⟩ := Json.distinctKeys_object_iff.mp (hmembers _ hmem)
      exact Json.distinctKeys_ofPairs hinside
    · cases h
  · cases h

/-- No object inside a document that was read repeats a key. -/
theorem Document.distinctKeys_of_parse {text : String} {document : Document}
    (h : Document.parse text = .ok document) :
    (Json.object document.definitions).DistinctKeys := by
  obtain ⟨value, hvalue, h⟩ := bind_eq_ok_iff.mp h
  cases hparse : Json.parse text with
  | error fault =>
      rw [hparse] at hvalue
      cases hvalue
  | ok read =>
      rw [hparse] at hvalue
      obtain rfl : read = value := Except.ok.inj hvalue
      exact distinctKeys_of_ofJson (Json.distinctKeys_of_parse hparse) h

end SchemaCompiler
