import SchemaCompiler.Model.Members
import SchemaCompiler.Proofs.Naming.Fresh
import SchemaCompiler.Proofs.Sorting

/-!
# Runs over members

Members come about by a run of additions, each of which names a value or opens the enumeration to
all values that have no name.  One step leaves the members alone or takes one name more, a free one
(`names_add`); so the names of a run are distinct (`names_nodup_addAll`), and the values are those
that were added, each where it came first (`values_addAll`).
-/

namespace SchemaCompiler

/-- What is added to the members of an enumeration at a time. -/
inductive Addition where
  | member (name value : String) (description : Option String)
  | catchAll (name : String) (description : Option String)

namespace Addition

/-- The name asked for. -/
def name : Addition → String
  | member name _ _ | catchAll name _ => name

def value? : Addition → Option String
  | member _ value _ => some value
  | catchAll _ _ => none

end Addition

namespace Members

def values (members : Members) : List String :=
  members.items.map (·.value)

def add (definition : String) (members : Members) : Addition → Members × List Notice
  | .member name value description => members.push definition name value description
  | .catchAll name description => members.openWith definition name description

/-- Adds one after the other, with the notices of all. -/
def addAll (definition : String) (members : Members) : List Addition → Members × List Notice
  | [] => (members, [])
  | addition :: rest =>
    let (members, notices) := members.add definition addition
    let (members, more) := members.addAll definition rest
    (members, notices ++ more)

variable {definition : String} {members : Members}

/-! ## One step -/

/-- A step drops what is added or takes a free name for it. -/
theorem names_add (members : Members) (addition : Addition) :
    (members.add definition addition).1 = members ∨
      (members.add definition addition).1.names.Perm
        (Naming.fresh members.names addition.name :: members.names) := by
  cases addition with
  | member name value description =>
      rw [add, push]
      split
      · exact Or.inl rfl
      · right
        simp only [uniqueName, names, List.map_append, List.map_cons, List.map_nil,
          List.append_assoc, List.singleton_append]
        exact List.perm_middle
  | catchAll name description =>
      rw [add, openWith]
      split
      · exact Or.inl rfl
      · rename_i hclosed
        have hnone : members.catchAll = none := by simpa using hclosed
        right
        simp only [uniqueName, names, hnone, Option.map_some, Option.map_none, Option.toList_some,
          Option.toList_none, List.append_nil]
        exact List.perm_append_singleton _ _

/-- A value that has a member is not added again. -/
theorem values_add (definition : String) (h : members.values.Nodup) (addition : Addition) :
    (members.add definition addition).1.values =
      (members.values ++ addition.value?.toList).eraseDups := by
  cases addition with
  | member name value description =>
      have hlisted : members.items.any (·.value = value) = true ↔ value ∈ members.values := by
        simp [values]
      rw [add, push]
      split
      · rename_i hvalue
        exact (eraseDups_eq_self h).symm.trans (eraseDups_append_of_mem (hlisted.mp hvalue)).symm
      · rename_i hvalue
        have hnodup : (members.values ++ [value]).Nodup := by
          rw [← List.concat_eq_append, List.nodup_concat]
          exact ⟨mt hlisted.mpr hvalue, h⟩
        refine Eq.trans ?_ (eraseDups_eq_self hnodup).symm
        simp [values, uniqueName]
  | catchAll name description =>
      have hsame : (members.openWith definition name description).1.values = members.values := by
        rw [openWith]
        split <;> rfl
      rw [add, hsame]
      exact (eraseDups_eq_self h).symm.trans (by simp [Addition.value?])

/-! ## A whole run -/

theorem addAll_nil (definition : String) (members : Members) :
    members.addAll definition [] = (members, []) :=
  rfl

theorem addAll_cons (definition : String) (members : Members) (addition : Addition)
    (rest : List Addition) :
    members.addAll definition (addition :: rest) =
      (((members.add definition addition).1.addAll definition rest).1,
        (members.add definition addition).2 ++
          ((members.add definition addition).1.addAll definition rest).2) :=
  rfl

theorem addAll_singleton (definition : String) (members : Members) (addition : Addition) :
    members.addAll definition [addition] = members.add definition addition := by
  rw [addAll_cons, addAll_nil, List.append_nil]

theorem addAll_append (definition : String) (members : Members) (front back : List Addition) :
    members.addAll definition (front ++ back) =
      (((members.addAll definition front).1.addAll definition back).1,
        (members.addAll definition front).2 ++
          ((members.addAll definition front).1.addAll definition back).2) := by
  induction front generalizing members with
  | nil => rfl
  | cons addition rest ih => simp only [List.cons_append, addAll_cons, ih, List.append_assoc]

/-- What every step keeps, a run keeps. -/
theorem addAll_induction {motive : Members → Prop} {additions : List Addition}
    (hstep : ∀ members, ∀ addition ∈ additions, motive members →
      motive (members.add definition addition).1)
    (h : motive members) : motive (members.addAll definition additions).1 := by
  induction additions generalizing members with
  | nil => exact h
  | cons addition rest ih =>
      rw [addAll_cons]
      exact ih (fun members other hother => hstep members other (List.mem_cons_of_mem _ hother))
        (hstep members addition List.mem_cons_self h)

theorem names_nodup_addAll (h : members.names.Nodup) (additions : List Addition) :
    (members.addAll definition additions).1.names.Nodup := by
  refine addAll_induction (motive := fun members => members.names.Nodup)
    (fun members addition _ hnodup => ?_) h
  rcases names_add members addition with hsame | hperm
  · rw [hsame]
    exact hnodup
  · exact hperm.symm.nodup (List.nodup_cons.mpr ⟨Naming.fresh_notMem _ _, hnodup⟩)

/-- What holds of every name that an addition can take holds of every name of a run. -/
theorem forall_names_addAll {P : String → Prop} {additions : List Addition}
    (hfresh : ∀ addition ∈ additions, ∀ used, P (Naming.fresh used addition.name))
    (h : ∀ name ∈ members.names, P name) :
    ∀ name ∈ (members.addAll definition additions).1.names, P name := by
  refine addAll_induction (motive := fun members => ∀ name ∈ members.names, P name)
    (fun members addition haddition hnames => ?_) h
  rcases names_add members addition with hsame | hperm
  · rw [hsame]
    exact hnames
  · intro name hname
    rcases List.mem_cons.mp (hperm.mem_iff.mp hname) with rfl | hname
    · exact hfresh addition haddition members.names
    · exact hnames name hname

/-- A run has the values that were added, each once and where it came first. -/
theorem values_addAll (definition : String) (h : members.values.Nodup) (additions : List Addition) :
    (members.addAll definition additions).1.values =
      (members.values ++ additions.filterMap Addition.value?).eraseDups := by
  induction additions generalizing members with
  | nil => rw [addAll_nil, List.filterMap_nil, List.append_nil, eraseDups_eq_self h]
  | cons addition rest ih =>
      have hvalues := values_add definition h addition
      have hnodup : (members.add definition addition).1.values.Nodup :=
        hvalues ▸ nodup_eraseDups _
      have hcons : (addition :: rest).filterMap Addition.value? =
          addition.value?.toList ++ rest.filterMap Addition.value? := by
        cases hvalue : addition.value? with
        | none => rw [List.filterMap_cons_none hvalue]; rfl
        | some value => rw [List.filterMap_cons_some hvalue]; rfl
      rw [addAll_cons]
      calc _ = ((members.add definition addition).1.values ++
              rest.filterMap Addition.value?).eraseDups := ih hnodup
        _ = (members.values ++ addition.value?.toList ++
              rest.filterMap Addition.value?).eraseDups := by
            rw [hvalues, eraseDups_eraseDups_append]
        _ = _ := by rw [hcons, List.append_assoc]

theorem values_addAll_empty (definition : String) (additions : List Addition) :
    (empty.addAll definition additions).1.values =
      (additions.filterMap Addition.value?).eraseDups :=
  values_addAll definition (show empty.values.Nodup from List.nodup_nil) additions

end Members

end SchemaCompiler
