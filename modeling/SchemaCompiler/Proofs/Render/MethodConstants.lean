import SchemaCompiler.Proofs.Sorting
import SchemaCompiler.Proofs.Text.Bytes
import SchemaCompiler.Render.MethodConstants

/-!
# Which methods get a constant

The methods are gone through in the order of their keys, so of the keys that give one name the
smallest is met first and has the constant (`mem_chosen_inOrder_iff`).  A key that is left out takes
no name, and so leaves every other key as it was.  The order of a table does not matter
(`inOrder_eq_of_perm`), since there is one way only to put distinct keys in order.
-/

namespace SchemaCompiler.Render

variable {taken : List String} {methods : Entries String} {method : String × String}

/-- The name of the constant for a method. -/
def nameOf (method : String × String) : String :=
  constantName method.1

/-! ## The methods that are chosen -/

/-- The methods that get a constant, where some names are taken. -/
def chosen (taken : List String) : Entries String → Entries String
  | [] => []
  | method :: rest =>
    if nameOf method = "" ∨ nameOf method ∈ taken then chosen taken rest
    else method :: chosen (nameOf method :: taken) rest

theorem chosen_cons (taken : List String) (method : String × String) (rest : Entries String) :
    chosen taken (method :: rest) =
      if nameOf method = "" ∨ nameOf method ∈ taken then chosen taken rest
      else method :: chosen (nameOf method :: taken) rest :=
  rfl

theorem distinctConstants_eq_map (taken : List String) (methods : Entries String) :
    distinctConstants taken methods =
      (chosen taken methods).map fun method => (nameOf method, method.2) := by
  induction methods generalizing taken with
  | nil => rfl
  | cons method rest ih =>
      obtain ⟨key, path⟩ := method
      by_cases hskip : nameOf (key, path) = "" ∨ nameOf (key, path) ∈ taken
      · have hskipped : (constantName key).isEmpty || taken.contains (constantName key) := by
          simpa [nameOf] using hskip
        rw [chosen_cons, if_pos hskip, ← ih, distinctConstants]
        simp only [hskipped, if_true]
      · have hkept : ((constantName key).isEmpty || taken.contains (constantName key)) = false := by
          simpa [nameOf] using hskip
        rw [chosen_cons, if_neg hskip, List.map_cons, ← ih, distinctConstants]
        simp only [hkept, Bool.false_eq_true, if_false]
        rfl

theorem chosen_sublist (taken : List String) (methods : Entries String) :
    (chosen taken methods).Sublist methods := by
  induction methods generalizing taken with
  | nil => exact List.Sublist.slnil
  | cons method rest ih =>
      rw [chosen_cons]
      split
      · exact (ih taken).cons method
      · exact (ih _).cons_cons method

/-- A method is chosen if its name is free and none before it has the same. -/
theorem mem_chosen_append_cons_iff {front back : Entries String} (hfront : method ∉ front)
    (hback : method ∉ back) :
    method ∈ chosen taken (front ++ method :: back) ↔
      nameOf method ≠ "" ∧ nameOf method ∉ taken ∧
        ∀ other ∈ front, nameOf other ≠ nameOf method := by
  induction front generalizing taken with
  | nil =>
      rw [List.nil_append, chosen_cons]
      split
      · rename_i hskip
        apply iff_of_false
        · intro hmem
          exact hback ((chosen_sublist _ _).subset hmem)
        · rintro ⟨hname, hfree, -⟩
          exact hskip.elim hname hfree
      · rename_i hkept
        obtain ⟨hname, hfree⟩ := not_or.mp hkept
        exact iff_of_true List.mem_cons_self ⟨hname, hfree, fun _ hmem => nomatch hmem⟩
  | cons first rest ih =>
      obtain ⟨hfirst, hrest⟩ := not_or.mp (mt List.mem_cons.mpr hfront)
      rw [List.cons_append, chosen_cons, List.forall_mem_cons]
      split
      · rename_i hskip
        rw [ih hrest]
        constructor
        · rintro ⟨hname, hfree, hothers⟩
          have hdiffers : nameOf first ≠ nameOf method := by
            intro hsame
            rw [hsame] at hskip
            exact hskip.elim hname hfree
          exact ⟨hname, hfree, hdiffers, hothers⟩
        · rintro ⟨hname, hfree, -, hothers⟩
          exact ⟨hname, hfree, hothers⟩
      · rw [List.mem_cons, or_iff_right hfirst, ih hrest, List.mem_cons, not_or]
        constructor
        · rintro ⟨hname, ⟨hdiffers, hfree⟩, hothers⟩
          exact ⟨hname, hfree, Ne.symm hdiffers, hothers⟩
        · rintro ⟨hname, hfree, hdiffers, hothers⟩
          exact ⟨hname, ⟨Ne.symm hdiffers, hfree⟩, hothers⟩

theorem nodup_names_chosen (taken : List String) (methods : Entries String) :
    ((chosen taken methods).map nameOf).Nodup ∧
      ∀ method ∈ chosen taken methods, nameOf method ∉ taken := by
  induction methods generalizing taken with
  | nil => exact ⟨List.nodup_nil, fun _ hmem => nomatch hmem⟩
  | cons method rest ih =>
      rw [chosen_cons]
      split
      · exact ih taken
      · rename_i hkept
        obtain ⟨hnodup, hfree⟩ := ih (nameOf method :: taken)
        have hnew : nameOf method ∉ (chosen (nameOf method :: taken) rest).map nameOf := by
          intro hmem
          obtain ⟨other, hother, hsame⟩ := List.mem_map.mp hmem
          have htaken : nameOf other ∈ nameOf method :: taken := by
            rw [hsame]
            exact List.mem_cons_self
          exact hfree other hother htaken
        rw [List.map_cons, List.nodup_cons, List.forall_mem_cons]
        refine ⟨⟨hnew, hnodup⟩, ?_, ?_⟩
        · intro hmem
          exact hkept (Or.inr hmem)
        · intro other hother hmem
          exact hfree other hother (List.mem_cons_of_mem _ hmem)

/-- A name that is free gets a constant if it is the name of some method. -/
theorem exists_mem_chosen (h : method ∈ methods) (hname : nameOf method ≠ "")
    (hfree : nameOf method ∉ taken) :
    ∃ other ∈ chosen taken methods, nameOf other = nameOf method := by
  induction methods generalizing taken with
  | nil => cases h
  | cons first rest ih =>
      rw [chosen_cons]
      by_cases hsame : nameOf first = nameOf method
      · have hkept : ¬(nameOf first = "" ∨ nameOf first ∈ taken) := by
          rw [hsame]
          exact not_or.mpr ⟨hname, hfree⟩
        rw [if_neg hkept]
        exact ⟨first, List.mem_cons_self, hsame⟩
      · have hmem : method ∈ rest := by
          rcases List.mem_cons.mp h with rfl | hmem
          · exact absurd rfl hsame
          · exact hmem
        split
        · exact ih hmem hfree
        · have hfree : nameOf method ∉ nameOf first :: taken :=
            not_or.mpr ⟨Ne.symm hsame, hfree⟩ ∘ List.mem_cons.mp
          obtain ⟨other, hother, hname⟩ := ih hmem hfree
          exact ⟨other, List.mem_cons_of_mem _ hother, hname⟩

/-! ## In the order of the keys -/

/-- The order that the methods are gone through in. -/
def inOrder (methods : Entries String) : Entries String :=
  sortBy (fun a b => a.1 ≤ b.1) methods

theorem mem_inOrder_iff : method ∈ inOrder methods ↔ method ∈ methods :=
  (sortBy_perm _ methods).mem_iff

theorem inOrder_pairwise (h : methods.Distinct) : (inOrder methods).Pairwise (·.1 < ·.1) :=
  sortBy_key_pairwise_lt h

/-- Smaller keys stand in front, and greater ones behind. -/
theorem exists_split_inOrder (h : methods.Distinct) (hmem : method ∈ methods) :
    ∃ front back, inOrder methods = front ++ method :: back ∧
      (∀ other ∈ front, other.1 < method.1) ∧ ∀ other ∈ back, method.1 < other.1 := by
  obtain ⟨front, back, hsplit⟩ := List.append_of_mem (mem_inOrder_iff.mpr hmem)
  have hsorted := inOrder_pairwise h
  rw [hsplit, List.pairwise_append, List.pairwise_cons] at hsorted
  obtain ⟨-, ⟨hback, -⟩, hfront⟩ := hsorted
  refine ⟨front, back, hsplit, ?_, hback⟩
  intro other hother
  exact hfront other hother method List.mem_cons_self

/-- Of the methods with one name that of the smallest key is chosen, and no other. -/
theorem mem_chosen_inOrder_iff (h : methods.Distinct) :
    method ∈ chosen [] (inOrder methods) ↔
      method ∈ methods ∧ nameOf method ≠ "" ∧
        ∀ other ∈ methods, nameOf other = nameOf method → method.1 ≤ other.1 := by
  by_cases hmem : method ∈ methods
  · obtain ⟨front, back, hsplit, hfront, hback⟩ := exists_split_inOrder h hmem
    have hnotFront : method ∉ front := fun hmem => String.lt_irrefl _ (hfront method hmem)
    have hnotBack : method ∉ back := fun hmem => String.lt_irrefl _ (hback method hmem)
    rw [hsplit, mem_chosen_append_cons_iff hnotFront hnotBack]
    constructor
    · rintro ⟨hname, -, hothers⟩
      refine ⟨hmem, hname, ?_⟩
      intro other hother hsame
      have hother : other ∈ front ++ method :: back := hsplit ▸ mem_inOrder_iff.mpr hother
      rcases List.mem_append.mp hother with hother | hother
      · exact absurd hsame (hothers other hother)
      · rcases List.mem_cons.mp hother with rfl | hother
        · exact String.le_refl _
        · exact Std.le_of_lt (hback other hother)
    · rintro ⟨-, hname, hleast⟩
      refine ⟨hname, List.not_mem_nil, ?_⟩
      intro other hother hsame
      have hmethods : other ∈ methods :=
        mem_inOrder_iff.mp (hsplit ▸ List.mem_append_left _ hother)
      exact String.not_lt.mpr (hleast other hmethods hsame) (hfront other hother)
  · apply iff_of_false
    · intro hchosen
      exact hmem (mem_inOrder_iff.mp ((chosen_sublist _ _).subset hchosen))
    · rintro ⟨hmethods, -⟩
      exact hmem hmethods

theorem inOrder_eq_of_perm {methods' : Entries String} (h : methods.Distinct)
    (hperm : methods.Perm methods') : inOrder methods = inOrder methods' :=
  sortBy_key_eq_of_perm hperm h

/-! ## The source of a holder -/

/-- What is written for a method. -/
def constantLine (method : String × String) : String :=
  step ++ "pub const " ++ nameOf method ++ ": &'static str = " ++ Text.quote method.2 ++ ";"

/-- The methods that get a constant, in the order of the constants. -/
structure HaveConstants (methods kept : Entries String) : Prop where
  /-- They stand in byte order of their keys. -/
  ascending : kept.Pairwise fun a b => Text.bytes a.1 < Text.bytes b.1
  /-- They have names, and the smallest keys in byte order of those with their names. -/
  mem_iff : ∀ method, method ∈ kept ↔ method ∈ methods ∧ nameOf method ≠ "" ∧
    ∀ other ∈ methods, nameOf other = nameOf method → Text.bytes method.1 ≤ Text.bytes other.1
  /-- Every name that some key yields is there. -/
  complete : ∀ method ∈ methods, nameOf method ≠ "" → ∃ other ∈ kept, nameOf other = nameOf method
  names_nodup : (kept.map nameOf).Nodup

theorem haveConstants_chosen (h : methods.Distinct) :
    HaveConstants methods (chosen [] (inOrder methods)) where
  ascending := ((inOrder_pairwise h).sublist (chosen_sublist _ _)).imp Text.bytes_lt_of_lt
  mem_iff method := by
    simp only [Text.bytes_le_iff]
    exact mem_chosen_inOrder_iff h
  complete method hmethod hname :=
    exists_mem_chosen (mem_inOrder_iff.mpr hmethod) hname List.not_mem_nil
  names_nodup := (nodup_names_chosen [] (inOrder methods)).1

theorem methodHolder_eq (holder doc : String) (methods : Entries String) :
    methodHolder holder doc methods =
      ["", "/// " ++ doc, "pub struct " ++ holder ++ ";", "", opening ("impl " ++ holder)] ++
        (chosen [] (inOrder methods)).map constantLine ++ [closing] := by
  rw [methodHolder, constants, distinctConstants_eq_map, List.map_map]
  rfl

theorem methodHolder_eq_of_perm {methods' : Entries String} (h : methods.Distinct)
    (hperm : methods.Perm methods') (holder doc : String) :
    methodHolder holder doc methods' = methodHolder holder doc methods := by
  rw [methodHolder_eq, methodHolder_eq, inOrder_eq_of_perm h hperm]

/-- The whole source does not depend on the order of the tables. -/
theorem methodConstants_eq_of_perm {label : String} {table : MethodTable}
    (hagent : table.agentMethods.Distinct) (hclient : table.clientMethods.Distinct)
    {agentMethods clientMethods : Entries String}
    (hagents : table.agentMethods.Perm agentMethods)
    (hclients : table.clientMethods.Perm clientMethods) :
    methodConstants label { table with agentMethods, clientMethods } =
      methodConstants label table := by
  rw [methodConstants, methodConstants, methodHolder_eq_of_perm hagent hagents,
    methodHolder_eq_of_perm hclient hclients]

/-- **One constant for each name, of the smallest key.**  A holder has a constant for every name
that some key yields, with the path of the smallest such key in byte order.  The constants stand in
byte order of these keys, no name comes twice, and the order of the table does not matter. -/
theorem methodHolder_constants (h : methods.Distinct) :
    (∃ kept, HaveConstants methods kept ∧ ∀ holder doc,
        methodHolder holder doc methods =
          ["", "/// " ++ doc, "pub struct " ++ holder ++ ";", "", opening ("impl " ++ holder)] ++
            kept.map constantLine ++ [closing]) ∧
      ∀ methods', methods.Perm methods' → ∀ holder doc,
        methodHolder holder doc methods' = methodHolder holder doc methods := by
  constructor
  · refine ⟨chosen [] (inOrder methods), haveConstants_chosen h, ?_⟩
    intro holder doc
    exact methodHolder_eq holder doc methods
  · intro methods' hperm holder doc
    exact methodHolder_eq_of_perm h hperm holder doc

/-- Two keys of one name, and a key that yields none. -/
def sessionMethods : Entries String :=
  [("session_new", "session/new"), ("_", "nameless"), ("Session_New", "session/New")]

theorem methodHolder_constants_session :
    sessionMethods.Distinct ∧
      (∃ kept, HaveConstants sessionMethods kept ∧ ∀ holder doc,
        methodHolder holder doc sessionMethods =
          ["", "/// " ++ doc, "pub struct " ++ holder ++ ";", "", opening ("impl " ++ holder)] ++
            kept.map constantLine ++ [closing]) ∧
      ∀ methods', sessionMethods.Perm methods' → ∀ holder doc,
        methodHolder holder doc methods' = methodHolder holder doc sessionMethods := by
  have hdistinct : sessionMethods.Distinct := by decide
  exact ⟨hdistinct, methodHolder_constants hdistinct⟩

example : constants sessionMethods = [("SESSION_NEW", "session/New")] := by decide +kernel

end SchemaCompiler.Render
