import Mathlib.Algebra.BigOperators.Group.List.Lemmas
import Mathlib.Data.Set.Card
import SchemaCompiler.Proofs.Json.Inside
import SchemaCompiler.Proofs.Tally.Position

/-!
# Tallies count positions

The tally of a value counts the positions of its references (`Tally.encard_refersAt`): it is made
up of one part for each item or member, and so are the positions.

`Tally.counts_positions` says this of whole documents, with what follows from the tally being a
list: the total is the sum over the names, the order of definitions and of keys does not matter,
and values counted one after the other add up.
-/

namespace SchemaCompiler

/-! ## Counting -/

namespace Tally

/-- Pieces are counted one by one if the first part of what is counted tells them apart. -/
theorem encard_pieces {α β γ : Type} (label : α → γ) (first : β → γ) {pieces : α → Set β}
    {tally : α → Tally} {name : String} {items : List α} (hnodup : (items.map label).Nodup)
    (hfirst : ∀ item, ∀ x ∈ pieces item, first x = label item)
    (hcount : ∀ item ∈ items, (pieces item).encard = (tally item).count name) :
    {x | ∃ item ∈ items, x ∈ pieces item}.encard = Tally.count (items.flatMap tally) name := by
  induction items with
  | nil => simp [count]
  | cons item rest ih =>
      obtain ⟨hitem, hrest⟩ := List.nodup_cons.mp hnodup
      have hunion : {x | ∃ other ∈ item :: rest, x ∈ pieces other} =
          pieces item ∪ {x | ∃ other ∈ rest, x ∈ pieces other} := by
        ext x
        simp
      have hdisjoint : Disjoint (pieces item) {x | ∃ other ∈ rest, x ∈ pieces other} := by
        rw [Set.disjoint_left]
        rintro x hx ⟨other, hother, hx'⟩
        refine hitem (List.mem_map.mpr ⟨other, hother, ?_⟩)
        rw [← hfirst other x hx', hfirst item x hx]
      obtain ⟨hcount, hcounts⟩ := List.forall_mem_cons.mp hcount
      rw [hunion, Set.encard_union_eq hdisjoint, hcount, ih hrest hcounts, List.flatMap_cons,
        count, count, count, List.count_append, Nat.cast_add]

/-- A string under `$ref` is one reference, to its last segment. -/
theorem encard_self (value : Json) (name : String) :
    {path : List Json.Step | path = [] ∧ ∃ text, value = .string text ∧
      IsLastSegment text name}.encard = List.count name (value.string?.map refName).toList := by
  cases value with
  | string text =>
      by_cases hname : refName text = name
      · have hself : {path : List Json.Step | path = [] ∧
            ∃ other, Json.string text = .string other ∧ IsLastSegment other name} = {[]} := by
          ext path
          simp [← refName_eq_iff, hname]
        rw [hself, Set.encard_singleton]
        simp [Json.string?, hname]
      · simp [← refName_eq_iff, hname, Json.string?]
  | _ => simp [Json.string?]

theorem nodup_itemSteps (items : List Json) :
    (items.zipIdx.map fun item => some (Json.Step.item item.2)).Nodup := by
  have hinjective : Function.Injective fun index => some (Json.Step.item index) := by
    intro index other h
    exact Json.Step.item.inj (Option.some.inj h)
  have hnodup := (List.nodup_range' (s := 0) (n := items.length)).map hinjective
  rwa [← List.zipIdx_map_snd, List.map_map] at hnodup

/-- **The tally of a value counts the positions of its references.** -/
theorem encard_refersAt {value : Json} (hdistinct : value.DistinctKeys) (name : String) :
    {path | value.RefersAt path name}.encard = (ofJson value).count name := by
  induction value using Json.inside_induction with
  | array items ih =>
      have hitems : ofItems items = items.zipIdx.flatMap fun item => ofJson item.1 := by
        rw [ofItems_eq_flatMap, ← List.flatMap_map Prod.fst ofJson, List.zipIdx_map_fst]
      rw [Json.refersAt_array_eq, ofJson, hitems]
      -- items may be equal, so their indices tell the pieces apart
      refine encard_pieces _ List.head? (nodup_itemSteps items) ?_ ?_
      · rintro item _ ⟨path, -, rfl⟩
        rfl
      · intro item hitem
        have hmem : item.1 ∈ items := List.mem_of_getElem? (List.mem_zipIdx_iff_getElem?.mp hitem)
        rw [Json.itemPositions, List.cons_injective.encard_image]
        exact ih item.1 hmem (Json.distinctKeys_array_iff.mp hdistinct item.1 hmem)
  | object members ih =>
      obtain ⟨hkeys, hinside⟩ := Json.distinctKeys_object_iff.mp hdistinct
      have hsteps := hkeys.map Json.firstStep?_injective
      rw [Entries.keys, List.map_map] at hsteps
      rw [Json.refersAt_object_eq hkeys, ofJson, ofMembers_eq_flatMap]
      refine encard_pieces _ List.head? hsteps (fun _ _ => Json.head?_of_mem_memberPositions) ?_
      intro member hmember
      rw [Json.memberPositions, ofMember]
      split
      · exact encard_self member.2 name
      · rw [List.cons_injective.encard_image]
        exact ih member hmember (hinside member hmember)
  | _ =>
      rw [Json.refersAt_eq_empty (by simp) (by simp [Json.step?]), Set.encard_empty]
      rfl

theorem encard_document {document : Document}
    (hdistinct : (Json.object document.definitions).DistinctKeys) (name : String) :
    {position | document.RefersAt position name}.encard = (ofDocument document).count name := by
  have hpieces : {position | document.RefersAt position name} =
      {position | ∃ entry ∈ document.definitions,
        position ∈ Prod.mk entry.1 '' {path | entry.2.RefersAt path name}} := by
    ext ⟨definition, path⟩
    constructor
    · rintro ⟨value, hvalue, hrefers⟩
      exact ⟨(definition, value), Entries.mem_of_get?_eq_some hvalue, path, hrefers, rfl⟩
    · rintro ⟨⟨definition, value⟩, hentry, path, hrefers, heq⟩
      cases heq
      exact ⟨value, document.distinct.get?_eq_some_iff.mpr hentry, hrefers⟩
  rw [hpieces, ofDocument]
  refine encard_pieces Prod.fst Prod.fst document.distinct ?_ ?_
  · rintro entry _ ⟨path, -, rfl⟩
    rfl
  · intro entry hentry
    rw [(Prod.mk_right_injective entry.1).encard_image]
    exact encard_refersAt ((Json.distinctKeys_object_iff.mp hdistinct).2 entry hentry) name

end Tally

/-! ## Order -/

mutual

/-- Values that differ in the order of keys, at any depth. -/
inductive Json.Rearranged : Json → Json → Prop where
  | same (value : Json) : Json.Rearranged value value
  | array {items items' : List Json} (hitems : List.Forall₂ Json.Rearranged items items') :
      Json.Rearranged (.array items) (.array items')
  | object {members moved members' : List (String × Json)} (hmoved : members.Perm moved)
      (hmembers : List.Forall₂ Json.RearrangedMember moved members') :
      Json.Rearranged (.object members) (.object members')

inductive Json.RearrangedMember : String × Json → String × Json → Prop where
  | under (key : String) {value value' : Json} (h : Json.Rearranged value value') :
      Json.RearrangedMember (key, value) (key, value')

end

/-- Documents that differ in the order of definitions and of keys. -/
def Document.Rearranged (document other : Document) : Prop :=
  Json.Rearranged (.object document.definitions) (.object other.definitions)

theorem Json.Rearranged.string?_eq {value other : Json} (h : value.Rearranged other) :
    value.string? = other.string? := by
  cases h <;> rfl

namespace Tally

theorem flatMap_perm_of_forall₂ {α β : Type} {r : α → β → Prop} {f : α → Tally} {g : β → Tally}
    {items : List α} {others : List β} (h : List.Forall₂ r items others)
    (hperm : ∀ item ∈ items, ∀ other, r item other → (f item).Perm (g other)) :
    (items.flatMap f).Perm (others.flatMap g) := by
  induction h with
  | nil => exact List.Perm.refl _
  | cons hhead _ ih =>
      obtain ⟨hfirst, hrest⟩ := List.forall_mem_cons.mp hperm
      exact (hfirst _ hhead).append (ih hrest)

theorem ofJson_perm {value other : Json} (h : value.Rearranged other) :
    (ofJson value).Perm (ofJson other) := by
  induction value using Json.inside_induction generalizing other with
  | array items ih =>
      cases h with
      | same => exact List.Perm.refl _
      | array hitems =>
          rw [ofJson, ofJson, ofItems_eq_flatMap, ofItems_eq_flatMap]
          exact flatMap_perm_of_forall₂ hitems fun item hitem _ hother => ih item hitem hother
  | object members ih =>
      cases h with
      | same => exact List.Perm.refl _
      | @object _ moved _ hmoved hmembers =>
          rw [ofJson, ofJson, ofMembers_eq_flatMap, ofMembers_eq_flatMap]
          refine (hmoved.flatMap_right _).trans (flatMap_perm_of_forall₂ hmembers ?_)
          rintro member hmember _ ⟨key, hother⟩
          have hinner := ih _ (hmoved.mem_iff.mpr hmember) hother
          rw [ofMember, ofMember, hother.string?_eq]
          split
          · exact List.Perm.refl _
          · exact hinner
  | _ =>
      cases h
      exact List.Perm.refl _

theorem ofDocument_perm {document other : Document} (h : document.Rearranged other) :
    (ofDocument document).Perm (ofDocument other) := by
  unfold Document.Rearranged at h
  rw [ofDocument, ofDocument]
  generalize document.definitions = definitions at h
  generalize other.definitions = others at h
  cases h with
  | same => exact List.Perm.refl _
  | object hmoved hmembers =>
      refine (hmoved.flatMap_right _).trans (flatMap_perm_of_forall₂ hmembers ?_)
      rintro entry - _ ⟨name, hother⟩
      exact ofJson_perm hother

/-! ## Sums -/

/-- The names of a tally, each of them once, with counts that make up the total. -/
structure SumsUp (tally : Tally) : Prop where
  nodup : tally.names.Nodup
  mem_iff : ∀ name, name ∈ tally.names ↔ 0 < tally.count name
  sum_eq : (tally.names.map tally.count).sum = tally.total

theorem sumsUp (tally : Tally) : tally.SumsUp := by
  have hperm : tally.names.Perm tally.eraseDups := sortBy_perm _ _
  have hmem (name : String) : name ∈ tally.names ↔ name ∈ tally := by
    rw [hperm.mem_iff, List.mem_eraseDups]
  have hnodup : tally.names.Nodup := hperm.symm.nodup (nodup_eraseDups tally)
  refine ⟨hnodup, fun name => (hmem name).trans List.count_pos_iff.symm, ?_⟩
  have hdedup : tally.names.Perm tally.dedup :=
    (List.perm_ext_iff_of_nodup hnodup (List.nodup_dedup tally)).mpr fun name => by
      rw [hmem, List.mem_dedup]
  rw [(hdedup.map tally.count).sum_eq]
  exact List.sum_map_count_dedup_eq_length tally

/-- Counts several values, one after the other, on top of what has been counted. -/
def visitAll (tally : Tally) (values : List Json) : Tally :=
  values.foldl (fun tally value => tally ++ ofJson value) tally

theorem visitAll_eq (tally : Tally) (values : List Json) :
    tally.visitAll values = tally ++ values.flatMap ofJson := by
  induction values generalizing tally with
  | nil => simp [visitAll]
  | cons value rest ih =>
      show visitAll (tally ++ ofJson value) rest = _
      rw [ih, List.flatMap_cons, List.append_assoc]

theorem count_visitAll (tally : Tally) (values : List Json) (name : String) :
    (tally.visitAll values).count name =
      tally.count name + (values.map fun value => (ofJson value).count name).sum := by
  rw [visitAll_eq, count, List.count_append, List.count_flatMap]
  rfl

theorem ofDocument_eq_visitAll (document : Document) :
    ofDocument document = visitAll [] (document.definitions.map Prod.snd) := by
  rw [visitAll_eq, List.nil_append, List.flatMap_map, ofDocument]

/-- **The tally of a document counts the positions of references.**  The counts of its names make
up the total, the order of definitions and of keys makes no difference, and counting one value
after the other adds up. -/
theorem counts_positions {document : Document}
    (hdistinct : (Json.object document.definitions).DistinctKeys) :
    (∀ name, {position | document.RefersAt position name}.encard =
        (ofDocument document).count name) ∧
      (ofDocument document).SumsUp ∧
      (∀ other, document.Rearranged other →
        (∀ name, (ofDocument other).count name = (ofDocument document).count name) ∧
          (ofDocument other).total = (ofDocument document).total) ∧
      ofDocument document = visitAll [] (document.definitions.map Prod.snd) ∧
      ∀ (tally : Tally) (values : List Json) (name : String),
        (tally.visitAll values).count name =
          tally.count name + (values.map fun value => (ofJson value).count name).sum := by
  refine ⟨encard_document hdistinct, sumsUp _, fun other hother => ?_,
    ofDocument_eq_visitAll document, count_visitAll⟩
  have hperm := ofDocument_perm hother
  exact ⟨fun name => (hperm.count_eq name).symm, hperm.length_eq.symm⟩

/-- One reference to `B` stands below a property called `$ref`. -/
def nestedDocument : Document where
  definitions :=
    [("A", .object [("type", .string "object"), ("properties", .object
        [("b", .object [("$ref", .string "#/$defs/B")]),
          ("list", .object [("type", .string "array"),
            ("items", .object [("$ref", .string "#/$defs/B")])]),
          ("$ref", .object [("$ref", .string "#/$defs/B")]),
          ("either", .object [("anyOf", .array
            [.object [("$ref", .string "#/$defs/C")], .object [("type", .string "null")]])])])]),
      ("B", .object [("allOf", .array [.object [("$ref", .string "C")]])]),
      ("C", .object [("type", .string "string")])]
  revision := none
  distinct := by decide

def rearrangedDocument : Document where
  definitions := nestedDocument.definitions.reverse
  revision := none
  distinct := by decide

theorem distinctKeys_nested : (Json.object nestedDocument.definitions).DistinctKeys := by
  simp only [nestedDocument, Json.DistinctKeys, Json.DistinctKeysMembers, Json.DistinctKeysAll]
  decide

theorem counts_positions_nested :
    {position | nestedDocument.RefersAt position "B"}.encard = 2 ∧
      {position | nestedDocument.RefersAt position "C"}.encard = 2 ∧
      (ofDocument nestedDocument).names = ["B", "C"] ∧ (ofDocument nestedDocument).total = 4 ∧
      nestedDocument.Rearranged rearrangedDocument ∧
      (ofDocument rearrangedDocument).count "C" = (ofDocument nestedDocument).count "C" := by
  obtain ⟨hpositions, -, horder, -⟩ := counts_positions distinctKeys_nested
  have hrearranged : nestedDocument.Rearranged rearrangedDocument :=
    .object (List.reverse_perm _).symm (List.forall₂_same.mpr fun member _ => .under _ (.same _))
  have hb : (ofDocument nestedDocument).count "B" = 2 := by decide
  have hc : (ofDocument nestedDocument).count "C" = 2 := by decide
  refine ⟨?_, ?_, by decide, by decide, hrearranged, (horder _ hrearranged).1 "C"⟩
  · rw [hpositions, hb]
    rfl
  · rw [hpositions, hc]
    rfl

end Tally

end SchemaCompiler
