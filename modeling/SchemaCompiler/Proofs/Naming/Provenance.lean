import Mathlib.Data.List.Basic
import SchemaCompiler.Naming.Identifier

/-!
# Provenance of type names

A type is named after a definition, or after a base and the value of one of its branches.  Origins
are ambiguous: the text `A[b]` can be a definition or the branch `b` of `A`, and `A[b[c]` can be
taken apart in two ways.  What tells such types apart is their names, because an opening bracket
stays in the name of a definition and is lost in the name of a value.

Main statement: origin and name together determine the provenance
(`Provenance.eq_of_origin_of_typeName`).
-/

namespace SchemaCompiler.Naming

open Text (capitalize upper)

inductive Provenance where
  | definition (name : String)
  /-- The wrapper of one branch. -/
  | wrapper (base value : String)
deriving DecidableEq

namespace Provenance

def origin : Provenance → String
  | definition name => name
  | wrapper base value => base ++ "[" ++ value ++ "]"

def typeName : Provenance → String
  | definition name => Naming.typeName name
  | wrapper base value => Naming.typeName base ++ member value

end Provenance

/-! ## Where brackets go -/

theorem isWordChar_of_mem_memberChars {c : Char} {cs : List Char} (h : c ∈ memberChars cs) :
    isWordChar c = true := by
  rw [memberChars] at h
  generalize hkept : List.filter isWordChar _ = kept at h
  have hword : ∀ d ∈ kept, isWordChar d = true := by
    intro d hd
    rw [← hkept] at hd
    exact (List.mem_filter.mp hd).2
  cases kept with
  | nil => simp [guardDigit] at h
  | cons d rest =>
      rw [guardDigit] at h
      split at h
      · rcases List.mem_cons.mp h with rfl | h
        · rfl
        · exact hword c h
      · exact hword c h

theorem bracket_notMem_member (text : String) : '[' ∉ (member text).toList := by
  intro h
  rw [member] at h
  split at h
  · exact absurd h (by decide)
  · rw [String.toList_ofList] at h
    exact absurd (isWordChar_of_mem_memberChars h) (by decide)

theorem capitalize_append_bracket (cs rest : List Char) :
    capitalize (cs ++ '[' :: rest) = capitalize cs ++ '[' :: rest := by
  cases cs with
  | nil =>
      have hup : upper '[' = ['['] := by decide
      show upper '[' ++ rest = _
      rw [hup]
      rfl
  | cons c cs =>
      show upper c ++ (cs ++ '[' :: rest) = (upper c ++ cs) ++ '[' :: rest
      rw [List.append_assoc]

theorem bracket_notMem_reserved {word : String} (h : word ∈ fixedWords ++ keywords) :
    '[' ∉ word.toList := by
  have hall : ∀ word ∈ fixedWords ++ keywords, '[' ∉ word.toList := by decide
  exact hall word h

/-- No reserved word has a bracket, so escaping either leaves a name alone or finds and leaves
none in it. -/
theorem escape_eq_or_bracket_notMem (name : String) :
    escape name = name ∨ '[' ∉ (escape name).toList ∧ '[' ∉ name.toList := by
  rw [escape, escapeWith]
  split
  · rename_i hfixed
    have hmem : name ∈ fixedWords ++ keywords :=
      List.mem_append_left _ (List.contains_iff_mem.mp hfixed)
    have hname := bracket_notMem_reserved hmem
    refine Or.inr ⟨?_, hname⟩
    rw [String.toList_append, List.mem_append]
    rintro (h | h)
    · exact hname h
    · exact absurd h (by decide)
  · split
    · rename_i hkeyword
      have hmem : name ∈ fixedWords ++ keywords :=
        List.mem_append_right _ (List.contains_iff_mem.mp hkeyword)
      have hname := bracket_notMem_reserved hmem
      refine Or.inr ⟨?_, hname⟩
      rw [String.toList_append, List.mem_append]
      rintro (h | h)
      · exact absurd h (by decide)
      · exact hname h
    · exact Or.inl rfl

/-- From its first bracket on, a definition is kept as it is. -/
theorem toList_typeName_of_bracket {definition : String} {front rest : List Char}
    (h : definition.toList = front ++ '[' :: rest) :
    (typeName definition).toList = capitalize front ++ '[' :: rest := by
  rw [typeName, h, capitalize_append_bracket]
  rcases escape_eq_or_bracket_notMem (String.ofList (capitalize front ++ '[' :: rest)) with
    heq | ⟨-, hno⟩
  · rw [heq, String.toList_ofList]
  · rw [String.toList_ofList] at hno
    exact absurd (by simp) hno

/-- A name that goes on without a bracket is not one that goes on with one. -/
theorem toList_typeName_append_ne {definition : String} {tail rest : List Char}
    (htail : '[' ∉ tail) :
    (typeName definition).toList ++ tail ≠ capitalize definition.toList ++ '[' :: rest := by
  intro h
  rw [typeName] at h
  rcases escape_eq_or_bracket_notMem (String.ofList (capitalize definition.toList)) with
    heq | ⟨hno, -⟩
  · rw [heq, String.toList_ofList] at h
    have hrest : tail = '[' :: rest := List.append_cancel_left h
    exact htail (hrest ▸ List.mem_cons_self)
  · have hmem : '[' ∈ capitalize definition.toList ++ '[' :: rest := by simp
    rw [← h, List.mem_append] at hmem
    rcases hmem with hmem | hmem
    · exact hno hmem
    · exact htail hmem

/-! ## Provenance from origin and name -/

namespace Provenance

theorem toList_origin_wrapper (base value : String) :
    (wrapper base value).origin.toList = base.toList ++ '[' :: (value.toList ++ [']']) := by
  simp [origin, String.toList_append]

theorem toList_typeName_wrapper (base value : String) :
    (wrapper base value).typeName.toList =
      (Naming.typeName base).toList ++ (member value).toList := by
  simp [typeName, String.toList_append]

theorem definition_ne_wrapper {name base value : String}
    (horigin : (definition name).origin = (wrapper base value).origin) :
    (definition name).typeName ≠ (wrapper base value).typeName := by
  intro hname
  have htext : name.toList = base.toList ++ '[' :: (value.toList ++ [']']) := by
    rw [← toList_origin_wrapper, ← horigin]
    rfl
  have hdefinition := toList_typeName_of_bracket htext
  rw [show Naming.typeName name = (wrapper base value).typeName from hname,
    toList_typeName_wrapper] at hdefinition
  exact toList_typeName_append_ne (bracket_notMem_member value) hdefinition

/-- A base that is longer than another one by a bracket and more keeps the bracket in its name. -/
theorem wrapper_base_ne_append {base value base' value' : String} {more : List Char}
    (hbase : base'.toList = base.toList ++ '[' :: more) :
    (wrapper base value).typeName ≠ (wrapper base' value').typeName := by
  intro hname
  have hlist := congrArg String.toList hname
  rw [toList_typeName_wrapper, toList_typeName_wrapper, toList_typeName_of_bracket hbase,
    List.append_assoc, List.cons_append] at hlist
  exact toList_typeName_append_ne (bracket_notMem_member value) hlist

theorem wrapper_injective {base value base' value' : String}
    (horigin : (wrapper base value).origin = (wrapper base' value').origin)
    (hname : (wrapper base value).typeName = (wrapper base' value').typeName) :
    base = base' ∧ value = value' := by
  have htext := congrArg String.toList horigin
  rw [toList_origin_wrapper, toList_origin_wrapper] at htext
  -- one base is a beginning of the other; a proper beginning ends before a bracket
  rcases List.append_eq_append_iff.mp htext with ⟨more, hbase, hrest⟩ | ⟨more, hbase, hrest⟩
  · cases more with
    | nil =>
        rw [List.append_nil] at hbase
        have hvalue : value.toList ++ [']'] = value'.toList ++ [']'] := List.tail_eq_of_cons_eq hrest
        exact ⟨(String.toList_inj.mp hbase).symm,
          String.toList_inj.mp (List.append_cancel_right hvalue)⟩
    | cons c more =>
        have hc : '[' = c := List.head_eq_of_cons_eq hrest
        rw [← hc] at hbase
        exact absurd hname (wrapper_base_ne_append hbase)
  · cases more with
    | nil =>
        rw [List.append_nil] at hbase
        have hvalue : value'.toList ++ [']'] = value.toList ++ [']'] := List.tail_eq_of_cons_eq hrest
        exact ⟨String.toList_inj.mp hbase,
          (String.toList_inj.mp (List.append_cancel_right hvalue)).symm⟩
    | cons c more =>
        have hc : '[' = c := List.head_eq_of_cons_eq hrest
        rw [← hc] at hbase
        exact absurd hname.symm (wrapper_base_ne_append hbase)

/-- **Origin and name determine the provenance.** -/
theorem eq_of_origin_of_typeName {p q : Provenance} (horigin : p.origin = q.origin)
    (hname : p.typeName = q.typeName) : p = q := by
  cases p with
  | definition name =>
      cases q with
      | definition name' => exact congrArg definition horigin
      | wrapper base value => exact absurd hname (definition_ne_wrapper horigin)
  | wrapper base value =>
      cases q with
      | definition name => exact absurd hname.symm (definition_ne_wrapper horigin.symm)
      | wrapper base' value' =>
          obtain ⟨rfl, rfl⟩ := wrapper_injective horigin hname
          rfl

end Provenance

end SchemaCompiler.Naming
