import SchemaCompiler.Proofs.Model.Owners
import SchemaCompiler.Render.Source

/-!
# What is emitted, and in which order

Every definition that is an object gives one block of types: the type that carries its name and,
behind it, the wrappers of its cases (`Compilation.emits_blockOf`).  The types of a block belong to
one section, so the stable sort moves blocks as a whole: a model lists the blocks by section and,
within a section, by the names of the definitions (`Model.emission`).  A file prints the heading of
a section where its first type stands, and so once (`Render.sections_eq`).
-/

namespace SchemaCompiler

/-- The types of one definition: its own, and the wrappers behind it. -/
structure Block where
  own : TypeDecl
  wrappers : List TypeDecl

def Block.types (block : Block) : List TypeDecl :=
  block.own :: block.wrappers

/-- The cases of a tagged type that are no definitions themselves. -/
def TypeDecl.wrappedCases (hierarchy : Hierarchy) (type : TypeDecl) : List TaggedCase :=
  type.taggedCases.filter fun case =>
    (hierarchy.base? type.definition).any fun base =>
      base.branches.any fun branch => branch.value = case.value && !branch.isPromoted

/-- A type is the wrapper of a case of a tagged type. -/
structure Wraps (base : TypeDecl) (case : TaggedCase) (wrapper : TypeDecl) : Prop where
  definition_eq : wrapper.definition = base.definition
  origin_eq : wrapper.origin = base.definition ++ "[" ++ case.value ++ "]"
  name_eq : wrapper.name = case.typeName
  exists_body : ∃ fields, wrapper.body = .variant base.name case.value fields

/-- A block holds what one definition gives: its own type, and one wrapper for each case that needs
one, in the order of the values. -/
structure Emits (hierarchy : Hierarchy) (block : Block) : Prop where
  origin_eq : block.own.origin = block.own.definition
  name_eq : block.own.name = Naming.typeName block.own.definition
  values_pairwise : (block.own.wrappedCases hierarchy).Pairwise (·.value < ·.value)
  wrappers : List.Forall₂ (Wraps block.own) (block.own.wrappedCases hierarchy) block.wrappers

/-- The order of emission: by section, and by definition within a section. -/
def Block.Before (a b : Block) : Prop :=
  a.own.group.rank < b.own.group.rank ∨
    a.own.group = b.own.group ∧ a.own.definition < b.own.definition

/-- The order of emission on types: those of one definition stand together. -/
def TypeDecl.NotBehind (a b : TypeDecl) : Prop :=
  a.group.rank < b.group.rank ∨ a.group = b.group ∧ a.definition ≤ b.definition

/-! ## Sections -/

def Group.all : List Group :=
  [.aliases, .enumerations, .models]

theorem Group.mem_all (group : Group) : group ∈ Group.all := by
  cases group <;> decide

theorem Group.rank_inj {a b : Group} : a.rank = b.rank ↔ a = b := by
  cases a <;> cases b <;> decide

theorem sortBy_group_eq {α : Type} (groupOf : α → Group) (items : List α) :
    sortBy (fun a b => (groupOf a).rank ≤ (groupOf b).rank) items =
      Group.all.flatMap fun group => items.filter (groupOf · = group) := by
  have hranks : (Group.all.map Group.rank).Pairwise (· < ·) := by decide
  have hitems : ∀ item ∈ items, (groupOf item).rank ∈ Group.all.map Group.rank :=
    fun item _ => List.mem_map_of_mem (Group.mem_all (groupOf item))
  rw [sortBy_rank_eq_flatMap hranks hitems, List.flatMap_map]
  simp only [Group.rank_inj]

/-- Sorting by section keeps each section as it is. -/
theorem filter_sortBy_group {α : Type} (groupOf : α → Group) (items : List α) (group : Group) :
    (sortBy (fun a b => (groupOf a).rank ≤ (groupOf b).rank) items).filter (groupOf · = group) =
      items.filter (groupOf · = group) := by
  have htwice (other : Group) : (items.filter (groupOf · = other)).filter (groupOf · = group) =
      if other = group then items.filter (groupOf · = group) else [] := by
    split
    · simp [*]
    · rw [List.filter_filter, List.filter_eq_nil_iff]
      grind
  rw [sortBy_group_eq, List.filter_flatMap]
  simp only [htwice]
  cases group <;> simp [Group.all]

namespace Emits

variable {hierarchy : Hierarchy} {block : Block}

theorem wrapper_of_mem (h : Emits hierarchy block) {wrapper : TypeDecl}
    (hwrapper : wrapper ∈ block.wrappers) :
    ∃ case ∈ block.own.wrappedCases hierarchy, Wraps block.own case wrapper :=
  Fallible.exists_of_mem_forall₂ h.wrappers.flip hwrapper

theorem definition_eq (h : Emits hierarchy block) {type : TypeDecl} (htype : type ∈ block.types) :
    type.definition = block.own.definition := by
  rcases List.mem_cons.mp htype with rfl | hwrapper
  · rfl
  · obtain ⟨case, -, hwraps⟩ := h.wrapper_of_mem hwrapper
    exact hwraps.definition_eq

/-- Only tagged types have wrappers, and both are models. -/
theorem group_eq (h : Emits hierarchy block) {type : TypeDecl} (htype : type ∈ block.types) :
    type.group = block.own.group := by
  rcases List.mem_cons.mp htype with rfl | hwrapper
  · rfl
  · obtain ⟨case, hcase, hwraps⟩ := h.wrapper_of_mem hwrapper
    obtain ⟨fields, hfields⟩ := hwraps.exists_body
    have hmem : case ∈ block.own.taggedCases := (List.mem_filter.mp hcase).1
    rw [TypeDecl.group, TypeDecl.group, hfields]
    cases hown : block.own.body with
    | tagged property cases => rfl
    | _ =>
        rw [TypeDecl.taggedCases, hown] at hmem
        exact absurd hmem List.not_mem_nil

end Emits

/-- Sections take blocks as a whole. -/
theorem filter_group_flatMap {hierarchy : Hierarchy} {blocks : List Block}
    (h : ∀ block ∈ blocks, Emits hierarchy block) (group : Group) :
    (blocks.flatMap Block.types).filter (·.group = group) =
      (blocks.filter (·.own.group = group)).flatMap Block.types := by
  induction blocks with
  | nil => rfl
  | cons block rest ih =>
      obtain ⟨hblock, hrest⟩ := List.forall_mem_cons.mp h
      rw [List.flatMap_cons, List.filter_append, ih hrest]
      by_cases hgroup : block.own.group = group
      · have hall : block.types.filter (·.group = group) = block.types :=
          List.filter_eq_self.mpr fun type htype => by
            simpa [hblock.group_eq htype] using hgroup
        simp [hall, hgroup]
      · have hnone : block.types.filter (·.group = group) = [] :=
          List.filter_eq_nil_iff.mpr fun type htype => by
            simpa [hblock.group_eq htype] using hgroup
        simp [hnone, hgroup]

/-! ## The blocks of a compilation -/

namespace Build

variable {source : Source} {definition : Definition}

theorem taggedCases_of_independent {body : TypeBody} (h : Independent body) :
    body.taggedCases = [] := by
  cases body with
  | tagged => exact h.elim
  | _ => rfl

/-- A tagged type and the wrappers of its branches. -/
def taggedBlock (document : Document) (definition : Definition) (base : Base) : Block where
  own := .ofDefinition definition.name definition.description? (.tagged base.property base.cases)
  wrappers :=
    ((base.branches.filter (!·.isPromoted)).map (wrapper document definition base)).map (·.1)

/-- A definition declares one type without cases, or a tagged type with its wrappers. -/
theorem Declares.single_or_tagged {result : List TypeDecl × List Notice}
    (h : Declares source definition result) :
    (∃ body : TypeBody, body.taggedCases = [] ∧
      result.1 = [.ofDefinition definition.name definition.description? body]) ∨
    ∃ base, source.hierarchy.base? definition.name = some base ∧
      result.1 = (taggedBlock source.document definition base).types := by
  cases h with
  | promoted hderived => exact Or.inl ⟨_, rfl, rfl⟩
  | plainAlias hderived halias => exact Or.inl ⟨_, rfl, rfl⟩
  | enumeration hderived halias henum hresult =>
      obtain ⟨members, form, hbody⟩ := exists_toBody_of_enumOfValues hresult
      exact Or.inl ⟨_, hbody ▸ taggedCases_of_independent (independent_toBody members form), rfl⟩
  | tagged hderived halias henum hbase => exact Or.inr ⟨_, hbase, rfl⟩
  | untagged hderived halias henum hbase habstract =>
      exact Or.inl ⟨_, taggedCases_of_independent (independent_untagged _ _), rfl⟩
  | structural hderived halias henum hbase habstract hresult =>
      exact Or.inl ⟨_, taggedCases_of_independent (structured_of_structural hresult).independent,
        rfl⟩

end Build

namespace Compilation

variable {document : Document} (run : Compilation document)

theorem values_pairwise_of_base? {name : String} {base : Base}
    (h : run.analysis.hierarchy.base? name = some base) :
    base.branches.Pairwise (·.value < ·.value) := by
  obtain ⟨hmem, -⟩ := of_find?_name_eq_some h
  obtain ⟨pending, -, hpending⟩ :=
    run.analysis.exists_pending_of_mem_bases (run.analysis.mem_hierarchy_bases.mp hmem)
  exact List.pairwise_map.mp (Hierarchy.values_pairwise_of_baseOf hpending)

/-- The cases of a base that get wrappers are those of the branches that are not promoted. -/
theorem wrappedCases_tagged {definition : Definition} {base : Base}
    (hbase : run.analysis.hierarchy.base? definition.name = some base) (property : String) :
    (TypeDecl.ofDefinition definition.name definition.description?
        (.tagged property base.cases)).wrappedCases run.analysis.hierarchy =
      (base.branches.filter (!·.isPromoted)).map fun branch =>
        ⟨branch.value, branch.caseName, branch.typeName⟩ := by
  have hvalues := run.values_pairwise_of_base? hbase
  show List.filter _ (base.branches.map _) = _
  rw [List.filter_map]
  refine congrArg (List.map _) (List.filter_congr fun branch hbranch => ?_)
  show (run.analysis.hierarchy.base? definition.name).any _ = _
  -- the value alone says which branch is meant
  rw [hbase, Option.any_some, Bool.eq_iff_iff, List.any_eq_true]
  constructor
  · rintro ⟨other, hother, hsame⟩
    obtain ⟨hvalue, hpromoted⟩ := Bool.and_eq_true_iff.mp hsame
    have hnodup := (List.pairwise_map.mpr hvalues).imp fun h => (String.ne_of_lt h)
    obtain rfl : other = branch :=
      List.inj_on_of_nodup_map hnodup hother hbranch (of_decide_eq_true hvalue)
    exact hpromoted
  · intro hpromoted
    exact ⟨branch, hbranch, by simpa using hpromoted⟩

theorem emits_taggedBlock {definition : Definition} {base : Base}
    (hbase : run.analysis.hierarchy.base? definition.name = some base) :
    Emits run.analysis.hierarchy (Build.taggedBlock document definition base) where
  origin_eq := rfl
  name_eq := rfl
  values_pairwise := by
    rw [Build.taggedBlock, run.wrappedCases_tagged hbase, List.pairwise_map]
    exact (run.values_pairwise_of_base? hbase).sublist List.filter_sublist
  wrappers := by
    obtain ⟨-, hname⟩ := of_find?_name_eq_some hbase
    rw [Build.taggedBlock, run.wrappedCases_tagged hbase, List.map_map,
      List.forall₂_map_left_iff, List.forall₂_map_right_iff]
    refine List.forall₂_same.mpr fun branch _ => ?_
    obtain ⟨fields, hfields⟩ : ∃ fields, (Build.wrapper document definition base branch).1.body =
      .variant base.typeName branch.value fields := ⟨_, rfl⟩
    rw [Base.typeName, hname] at hfields
    exact ⟨rfl, rfl, rfl, fields, hfields⟩

/-- The declared types of a definition as a block. -/
theorem exists_block {definition : Definition} (h : definition ∈ document.sorted) :
    ∃ block : Block, block.own.definition = definition.name ∧
      block.types = Build.typesOf run.source definition ∧
      Emits run.analysis.hierarchy block := by
  obtain ⟨notices, hdeclares⟩ := run.declares h
  rcases hdeclares.single_or_tagged with ⟨body, hcases, htypes⟩ | ⟨base, hbase, htypes⟩
  · have hwrapped : (TypeDecl.ofDefinition definition.name definition.description?
        body).wrappedCases run.analysis.hierarchy = [] := by
      rw [TypeDecl.wrappedCases, TypeDecl.taggedCases]
      exact congrArg (List.filter _) hcases
    refine ⟨⟨.ofDefinition definition.name definition.description? body, []⟩, rfl, htypes.symm,
      rfl, rfl, ?_, ?_⟩
    · exact hwrapped ▸ List.Pairwise.nil
    · exact hwrapped ▸ List.Forall₂.nil
  · exact ⟨Build.taggedBlock document definition base, rfl, htypes.symm,
      run.emits_taggedBlock hbase⟩

/-! ## Emitted blocks -/

def emittedBlock (block : Block) : Block :=
  ⟨run.emitted block.own, block.wrappers.map run.emitted⟩

@[simp] theorem wrappedCases_emitted (hierarchy : Hierarchy) (type : TypeDecl) :
    (run.emitted type).wrappedCases hierarchy = type.wrappedCases hierarchy := by
  rw [TypeDecl.wrappedCases, taggedCases_emitted]
  rfl

theorem wraps_emitted {base wrapper : TypeDecl} {case : TaggedCase} (h : Wraps base case wrapper) :
    Wraps (run.emitted base) case (run.emitted wrapper) where
  definition_eq := h.definition_eq
  origin_eq := h.origin_eq
  name_eq := h.name_eq
  exists_body := by
    obtain ⟨fields, hfields⟩ := h.exists_body
    obtain ⟨definition, origin, name, description, body⟩ := wrapper
    obtain rfl : body = _ := hfields
    exact ⟨_, rfl⟩

theorem emits_emittedBlock {block : Block} (h : Emits run.analysis.hierarchy block) :
    Emits run.analysis.hierarchy (run.emittedBlock block) where
  origin_eq := h.origin_eq
  name_eq := h.name_eq
  values_pairwise := by
    rw [emittedBlock, wrappedCases_emitted]
    exact h.values_pairwise
  wrappers := by
    rw [emittedBlock, wrappedCases_emitted, List.forall₂_map_right_iff]
    exact h.wrappers.imp fun _ _ => run.wraps_emitted

/-- The emitted blocks, before they are sorted by section. -/
theorem exists_blocks : ∃ blocks : List Block,
    run.types.map run.emitted = blocks.flatMap Block.types ∧
      blocks.map (·.own.definition) = document.sorted.map (·.name) ∧
      ∀ block ∈ blocks, Emits run.analysis.hierarchy block := by
  have hblocks : ∀ definition ∈ document.sorted, ∃ block : Block,
      block.own.definition = definition.name ∧
        block.types = (Build.typesOf run.source definition).map run.emitted ∧
        Emits run.analysis.hierarchy block := by
    intro definition hdefinition
    obtain ⟨block, hname, htypes, hemits⟩ := run.exists_block hdefinition
    exact ⟨run.emittedBlock block, hname, congrArg (List.map run.emitted) htypes,
      run.emits_emittedBlock hemits⟩
  rw [run.types_eq]
  generalize document.sorted = definitions at hblocks
  induction definitions with
  | nil => exact ⟨[], rfl, rfl, fun _ h => absurd h List.not_mem_nil⟩
  | cons definition rest ih =>
      obtain ⟨hdefinition, hrest⟩ := List.forall_mem_cons.mp hblocks
      obtain ⟨block, hname, htypes, hemits⟩ := hdefinition
      obtain ⟨blocks, hall, hnames, hevery⟩ := ih hrest
      refine ⟨block :: blocks, ?_, ?_, List.forall_mem_cons.mpr ⟨hemits, hevery⟩⟩
      · rw [List.flatMap_cons, List.map_append, hall, List.flatMap_cons, htypes]
      · rw [List.map_cons, List.map_cons, hname, hnames]

end Compilation

/-! ## The order of blocks -/

/-- The blocks by section; those of one section stay in their order. -/
def Block.sort (blocks : List Block) : List Block :=
  sortBy (fun a b => a.own.group.rank ≤ b.own.group.rank) blocks

theorem Block.sort_perm (blocks : List Block) : (Block.sort blocks).Perm blocks :=
  sortBy_perm _ blocks

/-- Sorting types by section moves blocks as a whole. -/
theorem sortBy_types {hierarchy : Hierarchy} {blocks : List Block}
    (h : ∀ block ∈ blocks, Emits hierarchy block) :
    sortBy (fun a b => a.group.rank ≤ b.group.rank) (blocks.flatMap Block.types) =
      (Block.sort blocks).flatMap Block.types := by
  rw [sortBy_group_eq TypeDecl.group, Block.sort,
    sortBy_group_eq fun block : Block => block.own.group, List.flatMap_assoc]
  exact List.flatMap_congr fun group _ => filter_group_flatMap h group

/-- Blocks in the order of their definitions, sorted by section. -/
theorem pairwise_before {blocks : List Block}
    (h : blocks.Pairwise (·.own.definition < ·.own.definition)) :
    (Block.sort blocks).Pairwise Block.Before := by
  rw [Block.sort, sortBy_group_eq fun block : Block => block.own.group, List.pairwise_flatMap]
  constructor
  · intro group _
    refine (h.sublist List.filter_sublist).imp_of_mem fun {a b} ha hb hlt => Or.inr ⟨?_, hlt⟩
    have hgroupa : a.own.group = group := by simpa using (List.mem_filter.mp ha).2
    have hgroupb : b.own.group = group := by simpa using (List.mem_filter.mp hb).2
    rw [hgroupa, hgroupb]
  · have hranks : Group.all.Pairwise (·.rank < ·.rank) := by decide
    refine hranks.imp fun {first second} hlt a ha b hb => Or.inl ?_
    have hgroupa : a.own.group = first := by simpa using (List.mem_filter.mp ha).2
    have hgroupb : b.own.group = second := by simpa using (List.mem_filter.mp hb).2
    rwa [hgroupa, hgroupb]

/-- Types of blocks that are in order are in order. -/
theorem pairwise_notBehind {hierarchy : Hierarchy} {blocks : List Block}
    (hemits : ∀ block ∈ blocks, Emits hierarchy block) (h : blocks.Pairwise Block.Before) :
    (blocks.flatMap Block.types).Pairwise TypeDecl.NotBehind := by
  rw [List.pairwise_flatMap]
  constructor
  · intro block hblock
    refine List.pairwise_of_forall_mem_list fun a ha b hb => Or.inr ⟨?_, ?_⟩
    · rw [(hemits block hblock).group_eq ha, (hemits block hblock).group_eq hb]
    · have hsame : a.definition = b.definition := by
        rw [(hemits block hblock).definition_eq ha, (hemits block hblock).definition_eq hb]
      exact hsame ▸ String.le_refl _
  · refine h.imp_of_mem fun {first second} hfirst hsecond hbefore a ha b hb => ?_
    have hfirst := hemits first hfirst
    have hsecond := hemits second hsecond
    rw [TypeDecl.NotBehind, hfirst.group_eq ha, hfirst.definition_eq ha, hsecond.group_eq hb,
      hsecond.definition_eq hb]
    rcases hbefore with hlt | ⟨hgroup, hlt⟩
    · exact Or.inl hlt
    · exact Or.inr ⟨hgroup, Std.le_of_lt hlt⟩

/-! ## Headings -/

namespace Render

/-- A section under its heading; without types there is neither. -/
def sectionLines (context : Context) (group : Group) (types : List TypeDecl) : Lines :=
  if types.isEmpty then []
  else ["", "// " ++ group.heading] ++ types.flatMap fun type => "" :: declaration context type

variable {context : Context}

/-- Behind the first type of a section there is no heading until another section begins. -/
theorem sections_append_of_same {group : Group} {types : List TypeDecl}
    (htypes : ∀ type ∈ types, type.group = group) (rest : List TypeDecl) :
    sections context (some group) (types ++ rest) =
      (types.flatMap fun type => "" :: declaration context type) ++
        sections context (some group) rest := by
  induction types with
  | nil => rfl
  | cons type types ih =>
      obtain ⟨htype, hrest⟩ := List.forall_mem_cons.mp htypes
      simp [sections, htype, ih hrest]

theorem sections_append {current : Option Group} {group : Group} (hcurrent : current ≠ some group)
    {types : List TypeDecl} (htypes : ∀ type ∈ types, type.group = group)
    (rest : List TypeDecl) :
    sections context current (types ++ rest) =
      sectionLines context group types ++
        sections context (if types.isEmpty then current else some group) rest := by
  cases types with
  | nil => rfl
  | cons type types =>
      obtain ⟨htype, hrest⟩ := List.forall_mem_cons.mp htypes
      simp [sections, sectionLines, htype, hcurrent, sections_append_of_same hrest]

/-- Sections that stand one after the other are printed one after the other. -/
theorem sections_flatMap {groups : List Group} (hgroups : groups.Nodup)
    {part : Group → List TypeDecl} (hpart : ∀ group, ∀ type ∈ part group, type.group = group)
    {current : Option Group} (hcurrent : ∀ group ∈ groups, current ≠ some group) :
    sections context current (groups.flatMap part) =
      groups.flatMap fun group => sectionLines context group (part group) := by
  induction groups generalizing current with
  | nil => rfl
  | cons group groups ih =>
      obtain ⟨hgroup, hnodup⟩ := List.nodup_cons.mp hgroups
      obtain ⟨hfirst, hrest⟩ := List.forall_mem_cons.mp hcurrent
      rw [List.flatMap_cons, sections_append hfirst (hpart group), List.flatMap_cons,
        ih hnodup fun other hother => ?_]
      split
      · exact hrest other hother
      · rintro ⟨⟩
        exact hgroup hother

/-- A model is printed section by section, each under one heading. -/
theorem sections_eq (context : Context) (types : List TypeDecl) :
    sections context none (sortBy (fun a b => a.group.rank ≤ b.group.rank) types) =
      Group.all.flatMap fun group =>
        sectionLines context group (types.filter (·.group = group)) := by
  rw [sortBy_group_eq TypeDecl.group]
  refine sections_flatMap (by decide) (fun group type htype => ?_) fun group _ => by simp
  simpa using (List.mem_filter.mp htype).2

end Render

/-! ## The emitted model -/

/-- **What is emitted, and in which order.**  A model consists of one block for each definition
that is an object: its own type, and one wrapper for each synthesized case of a tagged type, in the
order of the values.  Blocks, and with them types, are sorted by section and then by definition,
and a file has one heading for each section that has types. -/
theorem Model.emission {document : Document} {model : Model}
    (h : Model.build document = .ok model) :
    ∃ hierarchy notices, Hierarchy.analyze document = .ok (hierarchy, notices) ∧
      (∃ blocks : List Block, model.types = blocks.flatMap Block.types ∧
        (blocks.map (·.own.definition)).Nodup ∧
        (∀ name, name ∈ blocks.map (·.own.definition) ↔
          ∃ node, (name, Json.object node) ∈ document.definitions) ∧
        (∀ block ∈ blocks, Emits hierarchy block) ∧
        blocks.Pairwise Block.Before) ∧
      model.types.Pairwise TypeDecl.NotBehind ∧
      ∀ context, Render.sections context none model.types =
        Group.all.flatMap fun group =>
          Render.sectionLines context group (model.types.filter (·.group = group)) := by
  obtain ⟨run, rfl⟩ := Model.build_eq_ok_iff.mp h
  obtain ⟨blocks, htypes, hnames, hemits⟩ := run.exists_blocks
  have hperm := Block.sort_perm blocks
  have hmodel : run.model.types = (Block.sort blocks).flatMap Block.types := by
    rw [Compilation.model, htypes, sortBy_types hemits]
  have hsorted : ∀ block ∈ Block.sort blocks, Emits run.analysis.hierarchy block :=
    fun block hblock => hemits block (hperm.mem_iff.mp hblock)
  have hbefore : (Block.sort blocks).Pairwise Block.Before := pairwise_before <| by
    rw [← List.pairwise_map (f := fun block : Block => block.own.definition), hnames,
      List.pairwise_map]
    exact document.sorted_pairwise
  refine ⟨run.analysis.hierarchy, run.analysis.notices,
    Hierarchy.analyze_eq_ok_iff.mpr ⟨run.analysis, rfl, rfl⟩,
    ⟨_, hmodel, ?_, fun name => ?_, hsorted, hbefore⟩, ?_, fun context => ?_⟩
  · rw [(hperm.map _).nodup_iff, hnames]
    exact document.sorted_names_nodup
  · rw [(hperm.map _).mem_iff, hnames, List.mem_map]
    constructor
    · rintro ⟨definition, hdefinition, rfl⟩
      exact ⟨definition.node, Document.mem_sorted_iff.mp hdefinition⟩
    · rintro ⟨node, hnode⟩
      exact ⟨⟨name, node⟩, Document.mem_sorted_iff.mpr hnode, rfl⟩
  · rw [hmodel]
    exact pairwise_notBehind hsorted hbefore
  · rw [Compilation.model, Render.sections_eq]
    exact List.flatMap_congr fun group _ =>
      congrArg _ (filter_sortBy_group TypeDecl.group _ group).symm

/-- A base with two wrappers, an enumeration, an alias, and a definition without a shape. -/
def parcelDocument : Document where
  definitions :=
    [("Parcel", kindBase [kindRecord "small", kindRecord "bulky"]),
      ("Grade", .object [("enum", .array [.string "first"])]),
      ("Anything", .bool true),
      ("Zone", .object [("type", .string "string")])]
  revision := none
  distinct := by decide

theorem emission_parcel :
    ∃ model, Model.build parcelDocument = .ok model ∧
      model.types.map (·.origin) =
        ["Zone", "Grade", "Parcel", "Parcel[bulky]", "Parcel[small]"] ∧
      (∃ hierarchy, ∃ blocks : List Block, model.types = blocks.flatMap Block.types ∧
        (∀ block ∈ blocks, Emits hierarchy block) ∧ blocks.Pairwise Block.Before) ∧
      model.types.Pairwise TypeDecl.NotBehind := by
  have horigins : ((Model.build parcelDocument).toOption.map fun model =>
      model.types.map (·.origin)) =
        some ["Zone", "Grade", "Parcel", "Parcel[bulky]", "Parcel[small]"] := by
    decide
  obtain ⟨model, hbuild, horigins⟩ := Fallible.exists_of_toOption_map_eq_some horigins
  obtain ⟨hierarchy, notices, -, ⟨blocks, htypes, -, -, hemits, hbefore⟩, hsorted, -⟩ :=
    Model.emission hbuild
  exact ⟨model, hbuild, horigins, ⟨hierarchy, blocks, htypes, hemits, hbefore⟩, hsorted⟩

end SchemaCompiler
