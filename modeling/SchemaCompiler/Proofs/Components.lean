import SchemaCompiler.Proofs.Containment
import SchemaCompiler.Proofs.Sorting

/-!
# Groups and boxes

A cycle is a walk along edges that ends where it starts.  The groups of a containment sort the
types that lie on cycles by which of them lead to each other (`partitions_groups`), and once the
boxed fields are taken away, every cycle that is left runs through cases alone
(`field_eq_none_of_cycle`).

The same groups and boxes come out of any list of strongly connected components, whatever their
order: a component is a group if it has a second type or a type that holds itself, and a field is
boxed if both its ends have the same group (`components_decide`).
-/

namespace SchemaCompiler.Containment

open Relation (ReflTransGen TransGen)

variable {edges : Containment} {a b : String}

/-! ## Walks -/

/-- The edges that are passed on the way from one type to another. -/
inductive Walk (edges : Containment) : String → List Edge → String → Prop where
  | nil (type : String) : Walk edges type [] type
  | cons {e : Edge} {rest : List Edge} {last : String} (hedge : e ∈ edges)
      (hrest : Walk edges e.target rest last) : Walk edges e.source (e :: rest) last

/-- A walk of at least one edge ends where it starts. -/
def OnCycle (edges : Containment) (type : String) : Prop :=
  ∃ walk, walk ≠ [] ∧ Walk edges type walk type

theorem Walk.leads {walk : List Edge} (h : Walk edges a walk b) : edges.Leads a b := by
  induction h with
  | nil type => exact ReflTransGen.refl
  | cons hedge _ ih => exact ih.head ⟨_, hedge, rfl, rfl⟩

theorem exists_walk (h : edges.Leads a b) : ∃ walk, Walk edges a walk b := by
  induction h using ReflTransGen.head_induction_on with
  | refl => exact ⟨[], .nil b⟩
  | head hstep _ ih =>
      obtain ⟨e, hedge, rfl, rfl⟩ := hstep
      obtain ⟨walk, hwalk⟩ := ih
      exact ⟨e :: walk, .cons hedge hwalk⟩

theorem Walk.of_append {front back : List Edge} {e : Edge}
    (h : Walk edges a (front ++ e :: back) b) :
    e ∈ edges ∧ edges.Leads a e.source ∧ edges.Leads e.target b := by
  induction front generalizing a with
  | nil =>
      cases h with
      | cons hedge hrest => exact ⟨hedge, ReflTransGen.refl, hrest.leads⟩
  | cons first rest ih =>
      cases h with
      | cons hfirst hrest =>
          obtain ⟨hedge, hsource, htarget⟩ := ih hrest
          exact ⟨hedge, hsource.head ⟨_, hfirst, rfl, rfl⟩, htarget⟩

/-- Every edge of a cycle leads back to where it comes from. -/
theorem Walk.leads_back {walk : List Edge} (h : Walk edges a walk a) {e : Edge} (he : e ∈ walk) :
    e ∈ edges ∧ edges.Leads e.target e.source := by
  obtain ⟨front, back, rfl⟩ := List.append_of_mem he
  obtain ⟨hedge, hsource, htarget⟩ := h.of_append
  exact ⟨hedge, htarget.trans hsource⟩

theorem onCycle_iff : edges.OnCycle a ↔ TransGen edges.Holds a a := by
  rw [TransGen.head'_iff]
  constructor
  · rintro ⟨walk, hne, hwalk⟩
    cases hwalk with
    | nil => exact absurd rfl hne
    | cons hedge hrest => exact ⟨_, ⟨_, hedge, rfl, rfl⟩, hrest.leads⟩
  · rintro ⟨next, ⟨e, hedge, rfl, rfl⟩, hrest⟩
    obtain ⟨walk, hwalk⟩ := exists_walk hrest
    exact ⟨e :: walk, List.cons_ne_nil _ _, .cons hedge hwalk⟩

theorem onCycle_iff_exists_edge :
    edges.OnCycle a ↔ ∃ e ∈ edges, e.source = a ∧ edges.Leads e.target a := by
  rw [onCycle_iff, TransGen.head'_iff]
  constructor
  · rintro ⟨next, ⟨e, hedge, rfl, rfl⟩, hrest⟩
    exact ⟨e, hedge, rfl, hrest⟩
  · rintro ⟨e, hedge, rfl, hrest⟩
    exact ⟨e.target, ⟨e, hedge, rfl, rfl⟩, hrest⟩

theorem isCyclic_iff : isCyclic edges a = true ↔ edges.OnCycle a := by
  rw [isCyclic, List.any_eq_true, onCycle_iff_exists_edge]
  simp only [Bool.and_eq_true, decide_eq_true_eq, leadsTo_iff]

/-! ## Types that lead to each other -/

/-- Each of two types leads to the other. -/
def Mutual (edges : Containment) (a b : String) : Prop :=
  edges.Leads a b ∧ edges.Leads b a

theorem Mutual.symm (h : edges.Mutual a b) : edges.Mutual b a :=
  ⟨h.2, h.1⟩

theorem Mutual.trans {c : String} (h : edges.Mutual a b) (h' : edges.Mutual b c) :
    edges.Mutual a c :=
  ⟨h.1.trans h'.1, h'.2.trans h.2⟩

theorem Mutual.onCycle (h : edges.Mutual a b) (ha : edges.OnCycle a) : edges.OnCycle b := by
  rw [onCycle_iff] at ha ⊢
  exact TransGen.trans_right h.2 (ha.trans_left h.1)

/-- Two types that lead to each other make a cycle. -/
theorem Mutual.onCycle_of_ne (h : edges.Mutual a b) (hne : a ≠ b) : edges.OnCycle a := by
  rw [onCycle_iff]
  rcases ReflTransGen.cases_head h.1 with heq | ⟨next, hstep, hrest⟩
  · exact absurd heq hne
  · exact TransGen.head' hstep (hrest.trans h.2)

/-- The types that lie on cycles, sorted by which of them lead to each other; in order within each
group. -/
structure Partitions (edges : Containment) (groups : List (List String)) : Prop where
  covers : ∀ type, (∃ group ∈ groups, type ∈ group) ↔ edges.OnCycle type
  mem_iff : ∀ group ∈ groups, ∀ a ∈ group, ∀ b, b ∈ group ↔ edges.Mutual a b
  ne_nil : ∀ group ∈ groups, group ≠ []
  disjoint : groups.Pairwise List.Disjoint
  sorted : ∀ group ∈ groups, group.Pairwise (· < ·)

namespace Partitions

variable {groups groups' : List (List String)}

theorem subset (h : Partitions edges groups) (h' : Partitions edges groups') :
    groups ⊆ groups' := by
  intro group hgroup
  obtain ⟨type, htype⟩ := List.exists_mem_of_ne_nil _ (h.ne_nil group hgroup)
  obtain ⟨other, hother, hmem⟩ := (h'.covers type).mpr ((h.covers type).mp ⟨group, hgroup, htype⟩)
  have hsame : group.Perm other := by
    refine (List.perm_ext_iff_of_nodup ?_ ?_).mpr fun b => ?_
    · exact (h.sorted group hgroup).imp fun hlt => Std.ne_of_lt hlt
    · exact (h'.sorted other hother).imp fun hlt => Std.ne_of_lt hlt
    · rw [h.mem_iff group hgroup type htype, h'.mem_iff other hother type hmem]
  have heq : group = other :=
    hsame.eq_of_pairwise (fun _ _ _ _ hlt hgt => absurd hgt (Std.not_gt_of_lt hlt))
      (h.sorted group hgroup) (h'.sorted other hother)
  exact heq ▸ hother

theorem nodup (h : Partitions edges groups) : groups.Nodup := by
  refine h.disjoint.imp_of_mem fun hgroup _ hdisjoint heq => ?_
  obtain ⟨type, htype⟩ := List.exists_mem_of_ne_nil _ (h.ne_nil _ hgroup)
  exact hdisjoint htype (heq ▸ htype)

/-- There is one partition, up to the order of its groups. -/
theorem perm (h : Partitions edges groups) (h' : Partitions edges groups') :
    groups.Perm groups' :=
  (List.perm_ext_iff_of_nodup h.nodup h'.nodup).mpr fun _ => ⟨(h.subset h' ·), (h'.subset h ·)⟩

/-- Both ends of an edge have the same group exactly if the edge leads back. -/
theorem exists_group_iff (h : Partitions edges groups) {e : Edge} (hedge : e ∈ edges) :
    (∃ group ∈ groups, e.source ∈ group ∧ e.target ∈ group) ↔
      edges.Leads e.target e.source := by
  have hstep : edges.Leads e.source e.target := ReflTransGen.single ⟨e, hedge, rfl, rfl⟩
  constructor
  · rintro ⟨group, hgroup, hsource, htarget⟩
    exact ((h.mem_iff group hgroup _ hsource _).mp htarget).2
  · intro hback
    have hcycle : edges.OnCycle e.source := onCycle_iff_exists_edge.mpr ⟨e, hedge, rfl, hback⟩
    obtain ⟨group, hgroup, hsource⟩ := (h.covers _).mpr hcycle
    exact ⟨group, hgroup, hsource, (h.mem_iff group hgroup _ hsource _).mpr ⟨hstep, hback⟩⟩

end Partitions

/-! ## The groups -/

theorem mem_types_iff : a ∈ types edges ↔ ∃ e ∈ edges, e.source = a ∨ e.target = a := by
  rw [types, (sortBy_perm _ _).mem_iff, List.mem_eraseDups, List.mem_flatMap]
  simp only [List.mem_pair, eq_comm]

theorem types_pairwise (edges : Containment) : (types edges).Pairwise (· < ·) := by
  have hnodup : ((edges.flatMap fun e => [e.source, e.target]).eraseDups.map id).Nodup := by
    rw [List.map_id]
    exact nodup_eraseDups _
  exact sortBy_key_pairwise_lt hnodup

/-- The group of a type: the cyclic types that it leads to and that lead to it. -/
theorem mem_groups_iff {group : List String} :
    group ∈ groups edges ↔ ∃ type, edges.OnCycle type ∧
      group = ((types edges).filter (isCyclic edges)).filter fun other =>
        leadsTo edges type other && leadsTo edges other type := by
  have htype {type : String} : type ∈ (types edges).filter (isCyclic edges) ↔
      edges.OnCycle type := by
    rw [List.mem_filter, isCyclic_iff, and_iff_right_iff_imp, mem_types_iff,
      onCycle_iff_exists_edge]
    rintro ⟨e, hedge, hsource, -⟩
    exact ⟨e, hedge, Or.inl hsource⟩
  rw [groups, List.mem_eraseDups, List.mem_map]
  simp only [htype, eq_comm]

theorem mem_group_iff :
    b ∈ ((types edges).filter (isCyclic edges)).filter (fun other =>
      leadsTo edges a other && leadsTo edges other a) ↔ edges.OnCycle b ∧ edges.Mutual a b := by
  rw [List.mem_filter, List.mem_filter, isCyclic_iff, Bool.and_eq_true, leadsTo_iff, leadsTo_iff]
  refine and_congr_left fun _ => and_iff_right_of_imp fun hcycle => ?_
  obtain ⟨e, hedge, hsource, -⟩ := onCycle_iff_exists_edge.mp hcycle
  exact mem_types_iff.mpr ⟨e, hedge, Or.inl hsource⟩

/-- **The groups partition the types on cycles** into those that lead to each other. -/
theorem partitions_groups (edges : Containment) : Partitions edges (groups edges) := by
  refine ⟨fun type => ⟨?_, fun hcycle => ?_⟩, ?_, ?_, ?_, ?_⟩
  · rintro ⟨group, hgroup, htype⟩
    obtain ⟨first, -, rfl⟩ := mem_groups_iff.mp hgroup
    exact (mem_group_iff.mp htype).1
  · exact ⟨_, mem_groups_iff.mpr ⟨type, hcycle, rfl⟩,
      mem_group_iff.mpr ⟨hcycle, ReflTransGen.refl, ReflTransGen.refl⟩⟩
  · intro group hgroup a ha b
    obtain ⟨first, -, rfl⟩ := mem_groups_iff.mp hgroup
    obtain ⟨hcycle, hfirst⟩ := mem_group_iff.mp ha
    rw [mem_group_iff]
    exact ⟨fun hb => hfirst.symm.trans hb.2,
      fun hmutual => ⟨hmutual.onCycle hcycle, hfirst.trans hmutual⟩⟩
  · intro group hgroup
    obtain ⟨first, hcycle, rfl⟩ := mem_groups_iff.mp hgroup
    exact List.ne_nil_of_mem (mem_group_iff.mpr ⟨hcycle, ReflTransGen.refl, ReflTransGen.refl⟩)
  · have hnodup : (groups edges).Nodup := nodup_eraseDups _
    refine hnodup.imp_of_mem fun hgroup hother hne type htype htype' => hne ?_
    obtain ⟨first, -, rfl⟩ := mem_groups_iff.mp hgroup
    obtain ⟨second, -, rfl⟩ := mem_groups_iff.mp hother
    -- types of one group lead to the same others
    have hmutual := (mem_group_iff.mp htype).2.trans (mem_group_iff.mp htype').2.symm
    refine List.filter_congr fun other _ => Bool.eq_iff_iff.mpr ?_
    simp only [Bool.and_eq_true, leadsTo_iff]
    exact ⟨fun h => hmutual.symm.trans h, fun h => hmutual.trans h⟩
  · intro group hgroup
    obtain ⟨first, -, rfl⟩ := mem_groups_iff.mp hgroup
    exact ((types_pairwise edges).filter _).filter _

/-! ## Boxed fields -/

theorem mem_boxed_iff {box : BoxedField} :
    box ∈ boxed edges ↔
      ⟨box.type, box.target, some box.field⟩ ∈ edges ∧ edges.Leads box.target box.type := by
  rw [boxed, (sortBy_perm _ _).mem_iff, List.mem_eraseDups, List.mem_filterMap]
  constructor
  · rintro ⟨⟨source, target, field⟩, hedge, hbox⟩
    cases field with
    | none => cases hbox
    | some field =>
        dsimp only at hbox
        split at hbox
        · rename_i hleads
          cases hbox
          exact ⟨hedge, leadsTo_iff.mp hleads⟩
        · cases hbox
  · rintro ⟨hedge, hleads⟩
    refine ⟨_, hedge, ?_⟩
    dsimp only
    rw [if_pos (leadsTo_iff.mpr hleads)]

/-- The edges that are left without the boxed fields. -/
def unboxed (edges : Containment) : Containment :=
  edges.filter fun e => e.field.all fun field => !(boxed edges).contains ⟨e.source, field, e.target⟩

theorem unboxed_subset (edges : Containment) : edges.unboxed ⊆ edges :=
  fun _ he => (List.mem_filter.mp he).1

theorem leads_of_unboxed (h : edges.unboxed.Leads a b) : edges.Leads a b := by
  refine ReflTransGen.mono ?_ _ _ h
  rintro _ _ ⟨e, hedge, rfl, rfl⟩
  exact ⟨e, edges.unboxed_subset hedge, rfl, rfl⟩

/-- **Boxes break every cycle that has a field.** -/
theorem field_eq_none_of_cycle {walk : List Edge} (h : Walk edges.unboxed a walk a) {e : Edge}
    (he : e ∈ walk) : e.field = none := by
  obtain ⟨hleft, hback⟩ := h.leads_back he
  obtain ⟨hedge, hkept⟩ := List.mem_filter.mp hleft
  cases hfield : e.field with
  | none => rfl
  | some field =>
      have hbox : ⟨e.source, field, e.target⟩ ∈ boxed edges := by
        rw [mem_boxed_iff, ← hfield]
        exact ⟨hedge, leads_of_unboxed hback⟩
      rw [hfield, Option.all_some, List.contains_iff_mem.mpr hbox] at hkept
      cases hkept

/-! ## Components -/

/-- The strongly connected components of a containment: each of its types is in one of them, with
all that it leads to and that leads back. -/
structure AreComponents (edges : Containment) (components : List (List String)) : Prop where
  nodup : components.flatten.Nodup
  covers : ∀ type, type ∈ components.flatten ↔ type ∈ types edges
  mem_iff : ∀ component ∈ components, ∀ a ∈ component, ∀ b, b ∈ component ↔ edges.Mutual a b

/-- What a list of components says about a containment. -/
structure Analysis where
  groups : List (List String)
  boxed : List BoxedField

/-- A component has a second type, or a type that holds itself. -/
def hasCycle (edges : Containment) (component : List String) : Bool :=
  1 < component.length ||
    component.any fun type => edges.any fun e => e.source = type && e.target = type

/-- The position of the group that a type is in. -/
def groupIndex? (groups : List (List String)) (type : String) : Option Nat :=
  groups.findIdx? (·.contains type)

/-- The field of an edge that has both its ends in one group. -/
def boxedIn? (groups : List (List String)) (e : Edge) : Option BoxedField := do
  let field ← e.field
  let source ← groupIndex? groups e.source
  let target ← groupIndex? groups e.target
  if source = target then some ⟨e.source, field, e.target⟩ else none

def Analysis.ofComponents (edges : Containment) (components : List (List String)) : Analysis :=
  let groups := (components.filter (hasCycle edges)).map (sortBy fun a b => a ≤ b)
  ⟨groups, edges.filterMap (boxedIn? groups)⟩

def Analysis.needsBox (analysis : Analysis) (type field : String) : Bool :=
  analysis.boxed.any fun box => box.type = type && box.field = field

def Analysis.isCyclic (analysis : Analysis) (type : String) : Bool :=
  analysis.groups.any (·.contains type)

variable {components : List (List String)}

namespace AreComponents

variable (h : AreComponents edges components) {component : List String}
  (hcomponent : component ∈ components)

include h hcomponent

theorem nodup_component : component.Nodup :=
  (List.nodup_flatten.mp h.nodup).1 component hcomponent

/-- A component has a cycle exactly if its types lie on one. -/
theorem hasCycle_iff (ha : a ∈ component) : hasCycle edges component = true ↔ edges.OnCycle a := by
  rw [hasCycle, Bool.or_eq_true, decide_eq_true_eq, List.any_eq_true]
  constructor
  · rintro (hlength | ⟨type, htype, hself⟩)
    · obtain ⟨other, hother, hne⟩ : ∃ other ∈ component, other ≠ a := by
        by_contra hnone
        push Not at hnone
        have hsubset : component ⊆ [a] := fun other hother => by simp [hnone other hother]
        have hle := (h.nodup_component hcomponent).length_le_of_subset hsubset
        rw [List.length_singleton] at hle
        omega
      exact ((h.mem_iff component hcomponent a ha other).mp hother).onCycle_of_ne hne.symm
    · obtain ⟨e, hedge, hends⟩ := List.any_eq_true.mp hself
      simp only [Bool.and_eq_true, decide_eq_true_eq] at hends
      obtain ⟨hsource, htarget⟩ := hends
      have hcycle : edges.OnCycle type :=
        onCycle_iff_exists_edge.mpr ⟨e, hedge, hsource, by rw [htarget]; exact ReflTransGen.refl⟩
      exact ((h.mem_iff component hcomponent type htype a).mp ha).onCycle hcycle
  · intro hcycle
    obtain ⟨e, hedge, hsource, hback⟩ := onCycle_iff_exists_edge.mp hcycle
    by_cases hself : e.target = a
    · right
      refine ⟨a, ha, List.any_eq_true.mpr ⟨e, hedge, ?_⟩⟩
      simp [hsource, hself]
    · left
      -- the type on the other end is a second member
      have hstep : edges.Leads a e.target := ReflTransGen.single ⟨e, hedge, hsource, rfl⟩
      have hmem := (h.mem_iff component hcomponent a ha e.target).mpr ⟨hstep, hback⟩
      have hpair : [a, e.target].Nodup := by simpa using Ne.symm hself
      have hsubset : [a, e.target] ⊆ component := by simp [ha, hmem]
      exact hpair.length_le_of_subset hsubset

end AreComponents

theorem AreComponents.partitions (h : AreComponents edges components) :
    Partitions edges (Analysis.ofComponents edges components).groups := by
  have hgroup {group : List String}
      (hmem : group ∈ (Analysis.ofComponents edges components).groups) :
      ∃ component ∈ components, hasCycle edges component = true ∧ group.Perm component ∧
        group = sortBy (fun a b => a ≤ b) component := by
    obtain ⟨component, hfilter, rfl⟩ := List.mem_map.mp hmem
    obtain ⟨hcomponent, hcycle⟩ := List.mem_filter.mp hfilter
    exact ⟨component, hcomponent, hcycle, sortBy_perm _ _, rfl⟩
  refine ⟨fun type => ⟨?_, fun hcycle => ?_⟩, ?_, ?_, ?_, ?_⟩
  · rintro ⟨group, hmem, htype⟩
    obtain ⟨component, hcomponent, hcycle, hperm, -⟩ := hgroup hmem
    exact (h.hasCycle_iff hcomponent (hperm.mem_iff.mp htype)).mp hcycle
  · obtain ⟨e, hedge, hsource, -⟩ := onCycle_iff_exists_edge.mp hcycle
    obtain ⟨component, hcomponent, htype⟩ := List.mem_flatten.mp
      ((h.covers type).mpr (mem_types_iff.mpr ⟨e, hedge, Or.inl hsource⟩))
    exact ⟨_, List.mem_map_of_mem (List.mem_filter.mpr
      ⟨hcomponent, (h.hasCycle_iff hcomponent htype).mpr hcycle⟩),
      (sortBy_perm _ _).mem_iff.mpr htype⟩
  · intro group hmem a ha b
    obtain ⟨component, hcomponent, -, hperm, -⟩ := hgroup hmem
    rw [hperm.mem_iff]
    exact h.mem_iff component hcomponent a (hperm.mem_iff.mp ha) b
  · intro group hmem hnil
    obtain ⟨component, hcomponent, hcycle, hperm, -⟩ := hgroup hmem
    rw [hnil] at hperm
    rw [List.nil_perm.mp hperm] at hcycle
    cases hcycle
  · refine List.pairwise_map.mpr (((List.nodup_flatten.mp h.nodup).2.filter _).imp ?_)
    intro first second hdisjoint type hfirst hsecond
    exact hdisjoint ((sortBy_perm _ _).mem_iff.mp hfirst) ((sortBy_perm _ _).mem_iff.mp hsecond)
  · intro group hmem
    obtain ⟨component, hcomponent, -, -, rfl⟩ := hgroup hmem
    have hnodup : (component.map id).Nodup := by
      rw [List.map_id]
      exact h.nodup_component hcomponent
    exact sortBy_key_pairwise_lt hnodup

theorem groupIndex?_congr {groups : List (List String)}
    (h : ∀ group ∈ groups, a ∈ group ↔ b ∈ group) :
    groupIndex? groups a = groupIndex? groups b := by
  induction groups with
  | nil => rfl
  | cons group rest ih =>
      obtain ⟨hgroup, hrest⟩ := List.forall_mem_cons.mp h
      have hsame : group.contains a = group.contains b := by
        rw [Bool.eq_iff_iff, List.contains_iff_mem, List.contains_iff_mem, hgroup]
      rw [groupIndex?, List.findIdx?_cons, hsame, ← groupIndex?, ih hrest, groupIndex?, groupIndex?,
        List.findIdx?_cons]

theorem exists_group_of_groupIndex? {groups : List (List String)} {i : Nat}
    (h : groupIndex? groups a = some i) : ∃ group, groups[i]? = some group ∧ a ∈ group := by
  obtain ⟨hlt, hmem, -⟩ := List.findIdx?_eq_some_iff_getElem.mp h
  exact ⟨groups[i], List.getElem?_eq_getElem hlt, List.contains_iff_mem.mp hmem⟩

theorem boxedIn?_eq_some_iff {groups : List (List String)} {e : Edge} {box : BoxedField} :
    boxedIn? groups e = some box ↔ e = ⟨box.type, box.target, some box.field⟩ ∧
      ∃ i, groupIndex? groups e.source = some i ∧ groupIndex? groups e.target = some i := by
  obtain ⟨source, target, field⟩ := e
  obtain ⟨type, name, other⟩ := box
  simp only [boxedIn?, Option.bind_eq_bind, Option.bind_eq_some_iff, Option.ite_none_right_eq_some,
    Option.some.injEq, BoxedField.mk.injEq, Edge.mk.injEq]
  constructor
  · rintro ⟨_, rfl, i, hsource, j, htarget, rfl, rfl, rfl, rfl⟩
    exact ⟨⟨rfl, rfl, rfl⟩, i, hsource, htarget⟩
  · rintro ⟨⟨rfl, rfl, rfl⟩, i, hsource, htarget⟩
    exact ⟨_, rfl, i, hsource, i, htarget, rfl, rfl, rfl, rfl⟩

namespace Partitions

variable {groups : List (List String)} (h : Partitions edges groups)

include h

/-- Both ends of an edge have one position exactly if the edge leads back. -/
theorem exists_groupIndex?_iff {e : Edge} (hedge : e ∈ edges) :
    (∃ i, groupIndex? groups e.source = some i ∧ groupIndex? groups e.target = some i) ↔
      edges.Leads e.target e.source := by
  rw [← h.exists_group_iff hedge]
  constructor
  · rintro ⟨i, hsource, htarget⟩
    obtain ⟨group, hgroup, hsource⟩ := exists_group_of_groupIndex? hsource
    obtain ⟨other, hother, htarget⟩ := exists_group_of_groupIndex? htarget
    obtain rfl : group = other := Option.some.inj (hgroup.symm.trans hother)
    exact ⟨group, List.mem_of_getElem? hgroup, hsource, htarget⟩
  · rintro ⟨group, hgroup, hsource, htarget⟩
    have hmutual := (h.mem_iff group hgroup _ hsource _).mp htarget
    -- a group that has one end has the other
    have hends : groupIndex? groups e.source = groupIndex? groups e.target :=
      groupIndex?_congr fun other hother =>
        ⟨fun hmem => (h.mem_iff other hother _ hmem _).mpr hmutual,
          fun hmem => (h.mem_iff other hother _ hmem _).mpr hmutual.symm⟩
    have hsome : (groupIndex? groups e.source).isSome := by
      rw [groupIndex?, List.findIdx?_isSome, List.any_eq_true]
      exact ⟨group, hgroup, List.contains_iff_mem.mpr hsource⟩
    obtain ⟨i, hi⟩ := Option.isSome_iff_exists.mp hsome
    exact ⟨i, hi, hends ▸ hi⟩

theorem mem_filterMap_boxedIn? {box : BoxedField} :
    box ∈ edges.filterMap (boxedIn? groups) ↔ box ∈ boxed edges := by
  rw [List.mem_filterMap, mem_boxed_iff]
  constructor
  · rintro ⟨e, hedge, hbox⟩
    obtain ⟨rfl, hends⟩ := boxedIn?_eq_some_iff.mp hbox
    exact ⟨hedge, (h.exists_groupIndex?_iff hedge).mp hends⟩
  · rintro ⟨hedge, hback⟩
    exact ⟨_, hedge, boxedIn?_eq_some_iff.mpr ⟨rfl, (h.exists_groupIndex?_iff hedge).mpr hback⟩⟩

end Partitions

/-! ## The analysis -/

namespace Analysis

variable {analysis : Analysis}

theorem isCyclic_eq_true_iff :
    analysis.isCyclic a = true ↔ ∃ group ∈ analysis.groups, a ∈ group := by
  simp [isCyclic]

theorem needsBox_eq_true_iff {type field : String} :
    analysis.needsBox type field = true ↔
      ∃ box ∈ analysis.boxed, box.type = type ∧ box.field = field := by
  simp [needsBox]

end Analysis

theorem needsBox_iff_exists_box {type field : String} :
    needsBox edges type field = true ↔
      ∃ box ∈ boxed edges, box.type = type ∧ box.field = field := by
  rw [needsBox_iff]
  constructor
  · rintro ⟨⟨source, target, _⟩, hedge, rfl, rfl, hback⟩
    refine ⟨⟨source, field, target⟩, ?_, rfl, rfl⟩
    rw [mem_boxed_iff]
    exact ⟨hedge, hback⟩
  · rintro ⟨box, hbox, rfl, rfl⟩
    rw [mem_boxed_iff] at hbox
    exact ⟨_, hbox.1, rfl, rfl, hbox.2⟩

/-- An analysis finds the boxes, the cyclic types and the groups of a containment, the groups in
any order. -/
structure Analysis.Finds (analysis : Analysis) (edges : Containment) : Prop where
  needsBox_eq : ∀ type field, analysis.needsBox type field = edges.needsBox type field
  isCyclic_eq : ∀ type, analysis.isCyclic type = edges.isCyclic type
  groups_perm : analysis.groups.Perm edges.groups
  mem_boxed_iff : ∀ box, box ∈ analysis.boxed ↔ box ∈ edges.boxed

theorem AreComponents.finds (h : AreComponents edges components) :
    (Analysis.ofComponents edges components).Finds edges := by
  have hpartitions := h.partitions
  have hboxed : ∀ box, box ∈ (Analysis.ofComponents edges components).boxed ↔ box ∈ edges.boxed :=
    fun box => hpartitions.mem_filterMap_boxedIn?
  refine ⟨fun type field => ?_, fun type => ?_, hpartitions.perm (partitions_groups edges), hboxed⟩
  · rw [Bool.eq_iff_iff, Analysis.needsBox_eq_true_iff, needsBox_iff_exists_box]
    simp only [hboxed]
  · rw [Bool.eq_iff_iff, Analysis.isCyclic_eq_true_iff, hpartitions.covers, isCyclic_iff]

/-- **The analysis is exact.**  A field needs a box exactly if what it holds leads back to its
type, a type is cyclic exactly if it lies on a cycle, and the groups are the cyclic types sorted by
which of them lead to each other.  Without the boxed fields, every cycle runs through cases alone.
All this is what the strongly connected components say, in whatever order they are found. -/
theorem analysis_exact (h : AreComponents edges components) :
    (∀ type field, edges.needsBox type field = true ↔
      ∃ e ∈ edges, e.source = type ∧ e.field = some field ∧ edges.Leads e.target type) ∧
    (∀ type, edges.isCyclic type = true ↔ edges.OnCycle type) ∧
    Partitions edges edges.groups ∧
    (∀ type walk, Walk edges.unboxed type walk type → ∀ e ∈ walk, e.field = none) ∧
    (Analysis.ofComponents edges components).Finds edges := by
  refine ⟨fun type field => ?_, fun type => isCyclic_iff, partitions_groups edges,
    fun type walk hwalk e he => field_eq_none_of_cycle hwalk he, h.finds⟩
  rw [needsBox_iff]
  constructor
  · rintro ⟨e, hedge, rfl, hfield, hback⟩
    exact ⟨e, hedge, rfl, hfield, hback⟩
  · rintro ⟨e, hedge, rfl, hfield, hback⟩
    exact ⟨e, hedge, rfl, hfield, hback⟩

/-! ## A cycle through a case -/

/-- A block is a wrapper or a node; the wrapper holds a block, and each node the next one. -/
def blockEdges : Containment :=
  [⟨"Block", "Wrapper", none⟩, ⟨"Wrapper", "Block", some "inner"⟩,
    ⟨"Wrapper", "Meta", some "meta"⟩, ⟨"Block", "Node", none⟩, ⟨"Node", "Node", some "next"⟩,
    ⟨"Node", "Meta", some "next"⟩]

def blockComponents : List (List String) :=
  [["Meta"], ["Node"], ["Wrapper", "Block"]]

theorem areComponents_block : AreComponents blockEdges blockComponents where
  nodup := by decide
  covers := by
    have htypes : types blockEdges = ["Block", "Meta", "Node", "Wrapper"] := by decide
    intro type
    rw [htypes]
    simp [blockComponents]
    tauto
  mem_iff := by
    have hinside : ∀ component ∈ blockComponents, ∀ a ∈ component, ∀ b ∈ component,
        leadsTo blockEdges a b = true ∧ leadsTo blockEdges b a = true := by
      decide
    have houtside : ∀ component ∈ blockComponents, ∀ a ∈ component,
        ∀ b ∈ reachable blockEdges a, leadsTo blockEdges b a = true → b ∈ component := by
      decide
    intro component hcomponent a ha b
    rw [Mutual, ← leadsTo_iff, ← leadsTo_iff]
    exact ⟨hinside component hcomponent a ha b, fun h =>
      houtside component hcomponent a ha b (List.contains_iff_mem.mp h.1) h.2⟩

theorem analysis_exact_block :
    AreComponents blockEdges blockComponents ∧
      (Analysis.ofComponents blockEdges blockComponents).groups =
        [["Node"], ["Block", "Wrapper"]] ∧
      (Analysis.ofComponents blockEdges blockComponents).Finds blockEdges ∧
      blockEdges.groups = [["Block", "Wrapper"], ["Node"]] ∧
      Partitions blockEdges blockEdges.groups ∧
      blockEdges.needsBox "Wrapper" "inner" = true ∧ blockEdges.needsBox "Wrapper" "meta" = false ∧
      blockEdges.needsBox "Node" "next" = true ∧ ¬blockEdges.OnCycle "Meta" := by
  obtain ⟨-, hcyclic, hpartitions, -, hfinds⟩ := analysis_exact areComponents_block
  refine ⟨areComponents_block, by decide, hfinds, by decide, hpartitions,
    by decide, by decide, by decide, ?_⟩
  rw [← hcyclic]
  decide

end SchemaCompiler.Containment
