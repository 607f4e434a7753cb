import SchemaCompiler.Proofs.Naming.Identifier
import SchemaCompiler.Proofs.Render.MethodConstants

/-!
# Keys that share a constant

The segments of a key are capitalised and joined, and taken apart again where a small letter or a
digit stands in front of a capital.  So the boundary behind a single letter is lost, and so is the
one in front of a digit, and two keys give one constant exactly if they are the same without these
(`constantName_eq_iff`).  A key is skipped if a smaller one is the same in this sense
(`constants_of_keys`): `x_ray` and `xray` give one constant (`xray_skipped`).
-/

namespace SchemaCompiler.Render

open Naming (segments snakeChars)
open Text (lower splitBy titleCase upper)

/-! ## Keys -/

/-- What keys are made of besides underscores: small letters and digits of the ASCII range. -/
def isKeyChar (c : Char) : Bool :=
  c.isLower || c.isDigit

/-- A part of a key between two underscores. -/
def isSegment (segment : List Char) : Bool :=
  !segment.isEmpty && segment.all isKeyChar

/-- Segments joined by single underscores. -/
def isKey (key : String) : Bool :=
  (splitBy (· = '_') key.toList).all isSegment

/-- A segment behind which a capital is told apart: all but single letters. -/
def isOpen (segment : List Char) : Bool :=
  !(segment.length = 1 && segment.all Char.isLower)

def beginsWithLetter (segment : List Char) : Bool :=
  segment.head?.any Char.isLower

/-- The boundary between two segments stays unless the first is a single letter or the second
begins with a digit. -/
def keepsBoundary (segment next : List Char) : Bool :=
  isOpen segment && beginsWithLetter next

/-- Segments joined again, with an underscore where the boundary stays. -/
def joinSegments : List (List Char) → List Char
  | [] => []
  | segment :: rest =>
    segment ++ (if rest.head?.any (keepsBoundary segment) then ['_'] else []) ++ joinSegments rest

/-- A key without the underscores that its constant has lost. -/
def collapse (key : String) : String :=
  String.ofList (joinSegments (splitBy (· = '_') key.toList))

/-! ## Characters of keys -/

theorem toNat_lt_of_isKeyChar {c : Char} (h : isKeyChar c = true) : c.toNat < 123 := by
  rcases Bool.or_eq_true _ _ ▸ h with hlower | hdigit
  · exact Nat.lt_succ_of_le (Naming.isLower_iff_toNat.mp hlower).2
  · exact Nat.lt_of_le_of_lt (Char.isDigit_iff_toNat.mp hdigit).2 (by decide)

/-- What the case mappings do to the characters of keys. -/
structure MapsCase (c : Char) : Prop where
  upper_eq : upper c = [c.toUpper]
  lower_eq : lower c = [c]
  isUpper_toUpper : c.toUpper.isUpper = c.isLower
  toLower_toUpper : c.toUpper.toLower = c
  toUpper_eq : c.isLower = false → c.toUpper = c
  isUpper_eq : c.isUpper = false
  plain : (decide (c = '-') || decide (c = ' ')) = false

theorem mapsCase_of_isKeyChar {c : Char} (h : isKeyChar c = true) : MapsCase c := by
  have hall : ∀ n < 123, isKeyChar (Char.ofNat n) = true →
      upper (Char.ofNat n) = [(Char.ofNat n).toUpper] ∧ lower (Char.ofNat n) = [Char.ofNat n] ∧
        (Char.ofNat n).toUpper.isUpper = (Char.ofNat n).isLower ∧
        (Char.ofNat n).toUpper.toLower = Char.ofNat n ∧
        ((Char.ofNat n).isLower = false → (Char.ofNat n).toUpper = Char.ofNat n) ∧
        (Char.ofNat n).isUpper = false ∧
        (decide (Char.ofNat n = '-') || decide (Char.ofNat n = ' ')) = false := by decide
  obtain ⟨hupper, hlower, hcapital, hback, hdigit, hsmall, hplain⟩ :=
    Char.ofNat_toNat c ▸ hall c.toNat (toNat_lt_of_isKeyChar h) (by rwa [Char.ofNat_toNat])
  exact ⟨hupper, hlower, hcapital, hback, hdigit, hsmall, hplain⟩

theorem snakeChars_keyChar {c : Char} (h : isKeyChar c = true) (flag : Bool) (cs : List Char) :
    snakeChars flag (c :: cs) = c :: snakeChars true cs := by
  have hmaps := mapsCase_of_isKeyChar h
  have hnext : (c.isLower || c.isDigit) = true := h
  rw [snakeChars, if_neg (by rw [hmaps.isUpper_eq]; decide),
    if_neg (by rw [hmaps.plain]; decide), hnext]

theorem snakeChars_toUpper {c : Char} (h : c.isLower = true) (flag : Bool) (cs : List Char) :
    snakeChars flag (c.toUpper :: cs) =
      (if flag then ['_'] else []) ++ c :: snakeChars false cs := by
  have hmaps := mapsCase_of_isKeyChar (c := c) (by rw [isKeyChar, h, Bool.true_or])
  rw [snakeChars, if_pos (hmaps.isUpper_toUpper.trans h), hmaps.toLower_toUpper]
  cases flag <;> rfl

/-! ## Segments -/

theorem snakeChars_run {cs : List Char} (h : ∀ c ∈ cs, isKeyChar c = true) (hne : cs ≠ [])
    (flag : Bool) (back : List Char) :
    snakeChars flag (cs ++ back) = cs ++ snakeChars true back := by
  induction cs generalizing flag with
  | nil => exact absurd rfl hne
  | cons c rest ih =>
      obtain ⟨hc, hrest⟩ := List.forall_mem_cons.mp h
      rw [List.cons_append, snakeChars_keyChar hc, List.cons_append]
      rcases eq_or_ne rest [] with rfl | hne
      · rfl
      · rw [ih hrest hne]

theorem titleCase_cons {c : Char} {rest : List Char} (hc : isKeyChar c = true)
    (hrest : ∀ d ∈ rest, isKeyChar d = true) : titleCase (c :: rest) = c.toUpper :: rest := by
  have hkept : rest.flatMap lower = rest := by
    rw [List.flatMap_congr fun d hd => (mapsCase_of_isKeyChar (hrest d hd)).lower_eq,
      List.flatMap_singleton']
  show upper c ++ rest.flatMap lower = _
  rw [(mapsCase_of_isKeyChar hc).upper_eq, hkept]
  rfl

/-- A segment is read back from its capitalised form; a letter in front is told apart if what
stands before it is open. -/
theorem snakeChars_titleCase {segment : List Char} (h : isSegment segment = true) (flag : Bool)
    (back : List Char) :
    snakeChars flag (titleCase segment ++ back) =
      (if flag && beginsWithLetter segment then ['_'] else []) ++
        (segment ++ snakeChars (isOpen segment) back) := by
  obtain ⟨hne, hchars⟩ := Bool.and_eq_true_iff.mp h
  cases segment with
  | nil => cases hne
  | cons c rest =>
      obtain ⟨hc, hrest⟩ := List.forall_mem_cons.mp (List.all_eq_true.mp hchars)
      rw [titleCase_cons hc hrest, List.cons_append, beginsWithLetter, List.head?_cons,
        Option.any_some]
      cases hletter : c.isLower with
      | true =>
          rw [snakeChars_toUpper hletter, Bool.and_true]
          rcases eq_or_ne rest [] with rfl | hne
          · have hclosed : isOpen [c] = false := by simp [isOpen, hletter]
            rw [hclosed]
            rfl
          · have hopen : isOpen (c :: rest) = true := by simp [isOpen, hne]
            rw [snakeChars_run hrest hne, hopen]
            rfl
      | false =>
          -- a digit is its own capital
          have hopen : isOpen (c :: rest) = true := by simp [isOpen, hletter]
          rw [(mapsCase_of_isKeyChar hc).toUpper_eq hletter, hopen, Bool.and_false]
          exact snakeChars_run (List.forall_mem_cons.mpr ⟨hc, hrest⟩) (List.cons_ne_nil _ _) flag
            back

theorem snakeChars_segments {segments : List (List Char)}
    (h : ∀ segment ∈ segments, isSegment segment = true) (flag : Bool) :
    snakeChars flag (segments.flatMap titleCase) =
      (if flag && segments.head?.any beginsWithLetter then ['_'] else []) ++
        joinSegments segments := by
  induction segments generalizing flag with
  | nil =>
      rw [List.head?_nil, Option.any_none, Bool.and_false]
      rfl
  | cons segment rest ih =>
      obtain ⟨hsegment, hrest⟩ := List.forall_mem_cons.mp h
      have hboundary : rest.head?.any (keepsBoundary segment) =
          (isOpen segment && rest.head?.any beginsWithLetter) := by
        cases rest with
        | nil => exact (Bool.and_false _).symm
        | cons next rest => rfl
      rw [List.flatMap_cons, snakeChars_titleCase hsegment, ih hrest, joinSegments, hboundary,
        List.append_assoc]
      rfl

/-! ## Constants -/

theorem isSegment_of_isKey {key : String} (h : isKey key = true) :
    ∀ segment ∈ splitBy (· = '_') key.toList, isSegment segment = true :=
  List.all_eq_true.mp h

/-- The constant of a key spells what is left of it in capitals. -/
theorem constantName_eq {key : String} (h : isKey key = true) :
    constantName key = String.ofList ((collapse key).toList.map Char.toUpper) := by
  have hsegments : segments key.toList = splitBy (· = '_') key.toList :=
    List.filter_eq_self.mpr fun segment hsegment =>
      (Bool.and_eq_true_iff.mp (isSegment_of_isKey h segment hsegment)).1
  rw [constantName, Naming.screamingSnakeCase, Naming.pascalCase, String.toList_ofList, hsegments,
    snakeChars_segments (isSegment_of_isKey h), Bool.false_and, collapse, String.toList_ofList]
  rfl

theorem toLower_toUpper_of_mem_collapse {key : String} (h : isKey key = true) :
    ∀ c ∈ (collapse key).toList, c.toUpper.toLower = c := by
  rw [collapse, String.toList_ofList]
  have hsegments := isSegment_of_isKey h
  generalize splitBy (· = '_') key.toList = segments at hsegments
  induction segments with
  | nil => exact fun _ hc => absurd hc List.not_mem_nil
  | cons segment rest ih =>
      obtain ⟨hsegment, hrest⟩ := List.forall_mem_cons.mp hsegments
      obtain ⟨-, hchars⟩ := Bool.and_eq_true_iff.mp hsegment
      intro c hc
      rw [joinSegments, List.mem_append, List.mem_append] at hc
      rcases hc with (hc | hc) | hc
      · exact (mapsCase_of_isKeyChar (List.all_eq_true.mp hchars c hc)).toLower_toUpper
      · split at hc
        · rw [List.mem_singleton.mp hc]
          decide
        · cases hc
      · exact ih hrest c hc

/-- What is left of a key can be read off its constant. -/
theorem map_toLower_constantName {key : String} (h : isKey key = true) :
    (constantName key).toList.map Char.toLower = (collapse key).toList := by
  rw [constantName_eq h, String.toList_ofList, List.map_map]
  exact (List.map_congr_left (toLower_toUpper_of_mem_collapse h)).trans (List.map_id' _)

/-- **When two keys give one constant.** -/
theorem constantName_eq_iff {a b : String} (ha : isKey a = true) (hb : isKey b = true) :
    constantName a = constantName b ↔ collapse a = collapse b := by
  constructor
  · intro h
    have hsame := map_toLower_constantName ha
    rw [h, map_toLower_constantName hb] at hsame
    exact (String.toList_inj.mp hsame).symm
  · intro h
    rw [constantName_eq ha, constantName_eq hb, h]

theorem constantName_ne_empty {key : String} (h : isKey key = true) : constantName key ≠ "" := by
  intro hempty
  have hcollapse : (collapse key).toList = [] := by
    rw [← map_toLower_constantName h, hempty]
    rfl
  obtain ⟨first, rest, hsplit⟩ :=
    List.exists_cons_of_ne_nil (Text.splitBy_ne_nil (· = '_') key.toList)
  have hfirst := isSegment_of_isKey h first (hsplit ▸ List.mem_cons_self)
  rw [collapse, String.toList_ofList, hsplit, joinSegments, List.append_assoc] at hcollapse
  obtain ⟨rfl, -⟩ := List.append_eq_nil_iff.mp hcollapse
  cases hfirst

/-- **Which keys are skipped.**  Two keys give one constant exactly if they are the same without
the boundaries behind single letters and in front of digits.  A method of a table of such keys has
a constant exactly if no smaller key is the same as its own in this sense. -/
theorem constants_of_keys {methods : Entries String} (hdistinct : methods.Distinct)
    (hkeys : ∀ method ∈ methods, isKey method.1 = true) :
    (∀ a b, isKey a = true → isKey b = true →
      (constantName a = constantName b ↔ collapse a = collapse b)) ∧
      ∃ kept : Entries String,
        constants methods = kept.map (fun method => (constantName method.1, method.2)) ∧
        ∀ method, method ∈ kept ↔ method ∈ methods ∧
          ∀ other ∈ methods, collapse other.1 = collapse method.1 → method.1 ≤ other.1 := by
  refine ⟨fun a b ha hb => constantName_eq_iff ha hb, chosen [] (inOrder methods),
    distinctConstants_eq_map [] (inOrder methods), fun method => ?_⟩
  rw [mem_chosen_inOrder_iff hdistinct]
  refine and_congr_right fun hmethod => ?_
  have hsame : ∀ other ∈ methods,
      (nameOf other = nameOf method ↔ collapse other.1 = collapse method.1) := fun other hother =>
    constantName_eq_iff (hkeys other hother) (hkeys method hmethod)
  constructor
  · rintro ⟨-, hleast⟩ other hother hcollapse
    exact hleast other hother ((hsame other hother).mpr hcollapse)
  · intro hleast
    exact ⟨constantName_ne_empty (hkeys method hmethod),
      fun other hother hname => hleast other hother ((hsame other hother).mp hname)⟩

/-- A key that ends in a digit, and two that share a constant. -/
def rayMethods : Entries String :=
  [("xray", "xray"), ("tab_2", "tab"), ("x_ray", "x/ray")]

theorem constants_of_keys_ray :
    ∃ kept : Entries String,
      constants rayMethods = kept.map (fun method => (constantName method.1, method.2)) ∧
        ∀ method, method ∈ kept ↔ method ∈ rayMethods ∧ method.1 ≠ "xray" := by
  have hdistinct : rayMethods.Distinct := by decide
  have hkeys : ∀ method ∈ rayMethods, isKey method.1 = true := by decide
  obtain ⟨-, kept, hconstants, hkept⟩ := constants_of_keys hdistinct hkeys
  have hleast : ∀ method ∈ rayMethods,
      ((∀ other ∈ rayMethods, collapse other.1 = collapse method.1 → method.1 ≤ other.1) ↔
        method.1 ≠ "xray") := by decide
  refine ⟨kept, hconstants, fun method => ?_⟩
  rw [hkept]
  exact and_congr_right (hleast method)

/-- An underscore behind a single letter or in front of a digit tells no two constants apart, and of
two such keys the greater one is skipped. -/
theorem xray_skipped :
    (∀ key ∈ ["x_ray", "xray", "tab_2", "tab2"], isKey key = true) ∧
      constantName "x_ray" = constantName "xray" ∧ constantName "tab_2" = constantName "tab2" ∧
      constants [("x_ray", "x/ray"), ("xray", "xray")] = [("XRAY", "x/ray")] := by
  decide

end SchemaCompiler.Render
