import Mathlib.Data.List.Count
import Mathlib.Data.List.Flatten
import SchemaCompiler.Proofs.Document
import SchemaCompiler.Reference

/-!
# Counting references

The tally counts at least what a reader of references sees: every item of a list under a keyword
that refers to a name (`countP_le_count_of_array?`), and for two definitions the references of
both (`count_add_count_le_ofDocument`).
-/

namespace SchemaCompiler

namespace Tally

variable {name : String}

theorem ofJson_object (members : List (String × Json)) :
    ofJson (.object members) = ofMembers members := rfl

theorem ofItems_cons (item : Json) (rest : List Json) :
    ofItems (item :: rest) = ofJson item ++ ofItems rest := rfl

theorem ofMembers_cons (key : String) (value : Json) (rest : List (String × Json)) :
    ofMembers ((key, value) :: rest) =
      (if key = "$ref" then (value.string?.map refName).toList else ofJson value) ++
        ofMembers rest := rfl

theorem mem_ofMembers_of_directRef? {node : Node} (h : node.directRef? = some name) :
    name ∈ ofMembers node := by
  rw [Node.directRef?] at h
  split at h
  · rename_i path hpath
    split at h
    · cases h
    · obtain rfl : refName path = name := Option.some.inj h
      obtain ⟨value, hvalue, htext⟩ := Option.bind_eq_some_iff.mp hpath
      clear hpath
      induction node with
      | nil => cases hvalue
      | cons head rest ih =>
          obtain ⟨key, first⟩ := head
          rw [Entries.get?_cons] at hvalue
          rw [ofMembers_cons, List.mem_append]
          by_cases hkey : key = "$ref"
          · rw [if_pos hkey] at hvalue
            obtain rfl : first = value := Option.some.inj hvalue
            left
            rw [if_pos hkey, htext]
            exact List.mem_singleton_self _
          · rw [if_neg hkey] at hvalue
            exact Or.inr (ih hvalue)
  · cases h

theorem count_le_count_ofMembers (name : String) {node : Node} {key : String} {value : Json}
    (h : Entries.get? node key = some value) (hkey : key ≠ "$ref") :
    (ofJson value).count name ≤ (ofMembers node).count name := by
  induction node with
  | nil => cases h
  | cons head rest ih =>
      obtain ⟨first, other⟩ := head
      rw [Entries.get?_cons] at h
      rw [ofMembers_cons, count, count, List.count_append]
      by_cases hfirst : first = key
      · rw [if_pos hfirst] at h
        obtain rfl : other = value := Option.some.inj h
        rw [if_neg (hfirst ▸ hkey)]
        exact Nat.le_add_right _ _
      · rw [if_neg hfirst] at h
        exact Nat.le_trans (ih h) (Nat.le_add_left _ _)

theorem countP_le_count_ofItems {p : Node → Bool} {items : List Json}
    (h : ∀ node, p node = true → name ∈ ofMembers node) :
    (Node.objectItems items).countP p ≤ (ofItems items).count name := by
  induction items with
  | nil => exact Nat.le_refl 0
  | cons item rest ih =>
      rw [ofItems_cons, count, List.count_append]
      rw [count] at ih
      cases item with
      | object node =>
          show (node :: Node.objectItems rest).countP p ≤ _
          rw [List.countP_cons, ofJson_object, Nat.add_comm]
          refine Nat.add_le_add ?_ ih
          split
          · rename_i hnode
            exact List.count_pos_iff.mpr (h node hnode)
          · exact Nat.zero_le _
      | _ => exact Nat.le_trans ih (Nat.le_add_left _ _)

theorem count_ofItems_le_of_array? (name : String) {node : Node} {key : String}
    {items : List Json} (hitems : node.array? key = some items) (hkey : key ≠ "$ref") :
    (ofItems items).count name ≤ (ofMembers node).count name := by
  obtain ⟨value, hvalue, hitems⟩ := Option.bind_eq_some_iff.mp hitems
  cases value with
  | array values =>
      obtain rfl : values = items := Option.some.inj hitems
      exact count_le_count_ofMembers name hvalue hkey
  | _ => cases hitems

/-- The items of a list refer to a name at most as often as the node that holds the list. -/
theorem countP_le_count_of_array? {p : Node → Bool} {node : Node} {key : String}
    {items : List Json} (hitems : node.array? key = some items) (hkey : key ≠ "$ref")
    (h : ∀ item, p item = true → name ∈ ofMembers item) :
    (Node.objectItems items).countP p ≤ (ofMembers node).count name :=
  Nat.le_trans (countP_le_count_ofItems h) (count_ofItems_le_of_array? name hitems hkey)

theorem mem_ofItems_of_item {items : List Json} {item : Node}
    (hitem : item ∈ Node.objectItems items) (h : name ∈ ofMembers item) : name ∈ ofItems items := by
  have hcount : (Node.objectItems items).countP (fun item => (ofMembers item).contains name) ≤
      (ofItems items).count name :=
    countP_le_count_ofItems fun item => List.contains_iff_mem.mp
  have hpos : 0 < (Node.objectItems items).countP fun item => (ofMembers item).contains name :=
    List.countP_pos_iff.mpr ⟨item, hitem, List.contains_iff_mem.mpr h⟩
  exact List.count_pos_iff.mp (Nat.lt_of_lt_of_le hpos hcount)

/-- What an item of a list refers to, the node that holds the list refers to as well. -/
theorem mem_ofMembers_of_item {node : Node} {key : String} {items : List Json}
    (hitems : node.array? key = some items) (hkey : key ≠ "$ref") {item : Node}
    (hitem : item ∈ Node.objectItems items) (h : name ∈ ofMembers item) : name ∈ ofMembers node := by
  have hpos : 0 < (ofItems items).count name := List.count_pos_iff.mpr (mem_ofItems_of_item hitem h)
  exact List.count_pos_iff.mp
    (Nat.lt_of_lt_of_le hpos (count_ofItems_le_of_array? name hitems hkey))

theorem mem_ofMembers_of_allOfRef? {node : Node} (h : node.allOfRef? = some name) :
    name ∈ ofMembers node := by
  rw [Node.allOfRef?] at h
  split at h
  · rename_i items hitems
    obtain ⟨item, hitem, href⟩ := List.exists_of_findSome?_eq_some h
    exact mem_ofMembers_of_item hitems (by decide) hitem (mem_ofMembers_of_directRef? href)
  · cases h

theorem mem_ofMembers_of_ref? {node : Node} (h : node.ref? = some name) :
    name ∈ ofMembers node := by
  rcases Option.or_eq_some_iff.mp h with hdirect | ⟨-, hall⟩
  · exact mem_ofMembers_of_directRef? hdirect
  · exact mem_ofMembers_of_allOfRef? hall

theorem mem_ofMembers_of_get? {node : Node} {key : String} {value : Json}
    (h : Entries.get? node key = some value) (hkey : key ≠ "$ref") (hname : name ∈ ofJson value) :
    name ∈ ofMembers node := by
  have hcount := count_le_count_ofMembers name h hkey
  exact List.count_pos_iff.mp (Nat.lt_of_lt_of_le (List.count_pos_iff.mpr hname) hcount)

/-! ## Two places -/

theorem add_le_count_flatMap (name : String) {α : Type} {f : α → Tally} {items : List α}
    {a b : α} (ha : a ∈ items) (hb : b ∈ items) (hne : a ≠ b) :
    (f a).count name + (f b).count name ≤ List.count name (items.flatMap f) := by
  obtain ⟨front, back, rfl⟩ := List.append_of_mem ha
  have hothers : b ∈ front ++ back := by
    rcases List.mem_append.mp hb with hb | hb
    · exact List.mem_append_left _ hb
    · rcases List.mem_cons.mp hb with hb | hb
      · exact absurd hb.symm hne
      · exact List.mem_append_right _ hb
  have hsublist : (f b).Sublist ((front ++ back).flatMap f) := by
    rw [List.flatMap_def]
    exact List.sublist_flatten_of_mem (List.mem_map_of_mem hothers)
  have hle := hsublist.count_le name
  rw [List.flatMap_append, List.count_append] at hle
  rw [List.flatMap_append, List.flatMap_cons, List.count_append, List.count_append, count, count]
  omega

theorem ofItems_eq_flatMap (items : List Json) : ofItems items = items.flatMap ofJson := by
  induction items with
  | nil => rfl
  | cons item rest ih => rw [ofItems_cons, ih, List.flatMap_cons]

/-- What one member adds to the tally of its node. -/
def ofMember (member : String × Json) : Tally :=
  if member.1 = "$ref" then (member.2.string?.map refName).toList else ofJson member.2

theorem ofMembers_eq_flatMap (members : List (String × Json)) :
    ofMembers members = members.flatMap ofMember := by
  induction members with
  | nil => rfl
  | cons member rest ih => rw [ofMembers_cons, ih, List.flatMap_cons, ofMember]

theorem ofMember_of_ne {key : String} (hkey : key ≠ "$ref") (value : Json) :
    ofMember (key, value) = ofJson value :=
  if_neg hkey

theorem count_add_count_le_ofMembers (name : String) {node : Node} {key key' : String}
    {value value' : Json} (h : Entries.get? node key = some value)
    (h' : Entries.get? node key' = some value') (hkey : key ≠ "$ref") (hkey' : key' ≠ "$ref")
    (hne : key ≠ key') :
    (ofJson value).count name + (ofJson value').count name ≤ (ofMembers node).count name := by
  have hle := add_le_count_flatMap name (f := ofMember) (Entries.mem_of_get?_eq_some h)
    (Entries.mem_of_get?_eq_some h') fun heq => hne (Prod.mk.inj heq).1
  rwa [ofMember_of_ne hkey, ofMember_of_ne hkey', ← ofMembers_eq_flatMap] at hle

theorem count_add_count_le_ofItems (name : String) {items : List Json} {a b : Node}
    (ha : a ∈ Node.objectItems items) (hb : b ∈ Node.objectItems items) (hne : a ≠ b) :
    (ofMembers a).count name + (ofMembers b).count name ≤ (ofItems items).count name := by
  have hobject {node : Node} (hnode : node ∈ Node.objectItems items) : Json.object node ∈ items := by
    obtain ⟨value, hvalue, hobject⟩ := List.mem_filterMap.mp hnode
    cases value with
    | object members =>
        obtain rfl : members = node := Option.some.inj hobject
        exact hvalue
    | _ => cases hobject
  have hle := add_le_count_flatMap name (f := ofJson) (hobject ha) (hobject hb)
    fun heq => hne (Json.object.inj heq)
  rwa [ofJson_object, ofJson_object, ← ofItems_eq_flatMap] at hle

theorem count_add_count_le_of_array? (name : String) {node : Node} {key : String}
    {items : List Json} (hitems : node.array? key = some items) (hkey : key ≠ "$ref") {a b : Node}
    (ha : a ∈ Node.objectItems items) (hb : b ∈ Node.objectItems items) (hne : a ≠ b) :
    (ofMembers a).count name + (ofMembers b).count name ≤ (ofMembers node).count name :=
  Nat.le_trans (count_add_count_le_ofItems name ha hb hne)
    (count_ofItems_le_of_array? name hitems hkey)

/-! ## Whole documents -/

variable {document : Document}

theorem count_le_count_ofDocument (name : String) {definition : Definition}
    (h : definition ∈ document.sorted) :
    (ofMembers definition.node).count name ≤ (ofDocument document).count name := by
  have hmem := List.mem_map_of_mem (f := fun entry : String × Json => ofJson entry.2)
    (Document.mem_sorted_iff.mp h)
  rw [ofJson_object] at hmem
  rw [ofDocument, List.flatMap_def]
  exact (List.sublist_flatten_of_mem hmem).count_le name

theorem count_add_count_le_ofDocument (name : String) {a b : Definition}
    (ha : a ∈ document.sorted) (hb : b ∈ document.sorted) (hne : a.name ≠ b.name) :
    (ofMembers a.node).count name + (ofMembers b.node).count name ≤
      (ofDocument document).count name := by
  have hentries : (a.name, Json.object a.node) ≠ (b.name, Json.object b.node) :=
    fun h => hne (Prod.mk.inj h).1
  have hle := add_le_count_flatMap name (f := fun entry => ofJson entry.2)
    (Document.mem_sorted_iff.mp ha) (Document.mem_sorted_iff.mp hb) hentries
  rwa [ofJson_object, ofJson_object] at hle

end Tally

end SchemaCompiler
