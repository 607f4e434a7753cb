import SchemaCompiler.Proofs.Hierarchy.Sums
import SchemaCompiler.Proofs.Json.Distinct
import SchemaCompiler.Proofs.Wire.Discriminator

/-!
# Implicit bases

The tag of an implicit base is the property that the first of its items suggests, but every item
gives its branch the value of its own first constant, whatever property that stands under.  An item
whose first constant stands under the tag has the text of that constant as its value.  Any other
item need not: the codec reads the value in all messages of an item exactly if the item declares,
under the tag, a constant other than null with that text (`implicit_values`).
-/

namespace SchemaCompiler.Hierarchy

open Fallible

/-! ## What an item suggests -/

/-- The first property of an item that declares a constant, with that constant. -/
inductive FirstConstant (item : Node) (property : String) (constant : Json) : Prop where
  | intro {front back : Node} {schema : Json}
      (hproperties : item.object? "properties" = some (front ++ (property, schema) :: back))
      (hfront : ∀ entry ∈ front, entry.2.get? "const" = none)
      (hconstant : schema.get? "const" = some constant) :
      FirstConstant item property constant

/-- An item suggests a property and a value: those of its first constant, or else its title for
the property `type`. -/
inductive Suggests (item : Node) : String → String → Prop where
  | constant {property : String} {constant : Json} (h : FirstConstant item property constant) :
      Suggests item property (Wire.literalText constant)
  | title {text : String} (hnone : ∀ property constant, ¬FirstConstant item property constant)
      (htitle : item.string? "title" = some text) (hnonempty : text ≠ "") :
      Suggests item "type" text

section Item

variable {item : Node} {property : String}

theorem firstConstant?_eq_some_iff {constant : Json} :
    firstConstant? item = some (property, constant) ↔ FirstConstant item property constant := by
  constructor
  · intro h
    obtain ⟨properties, hproperties, hfound⟩ := Option.bind_eq_some_iff.mp h
    obtain ⟨front, ⟨name, schema⟩, back, rfl, hentry, hfront⟩ :=
      List.findSome?_eq_some_iff.mp hfound
    obtain ⟨found, hfound, heq⟩ := Option.map_eq_some_iff.mp hentry
    cases heq
    exact ⟨hproperties, fun entry hmem => Option.map_eq_none_iff.mp (hfront entry hmem), hfound⟩
  · rintro ⟨hproperties, hfront, hconstant⟩
    refine Option.bind_eq_some_iff.mpr ⟨_, hproperties, List.findSome?_eq_some_iff.mpr
      ⟨_, _, _, rfl, ?_, fun entry hmem => ?_⟩⟩
    · exact Option.map_eq_some_iff.mpr ⟨constant, hconstant, rfl⟩
    · exact Option.map_eq_none_iff.mpr (hfront entry hmem)

theorem suggestion?_eq_some_iff {value : String} :
    suggestion? item = some (property, value) ↔ Suggests item property value := by
  unfold suggestion?
  cases hfirst : firstConstant? item with
  | some found =>
      obtain ⟨name, constant⟩ := found
      have hdeclares := firstConstant?_eq_some_iff.mp hfirst
      constructor
      · intro h
        cases h
        exact .constant hdeclares
      · rintro (hother | ⟨hnone, -, -⟩)
        · have hsame := hfirst.symm.trans (firstConstant?_eq_some_iff.mpr hother)
          cases hsame
          rfl
        · exact absurd hdeclares (hnone name constant)
  | none =>
      have hnone : ∀ property constant, ¬FirstConstant item property constant := by
        intro property constant hdeclares
        rw [firstConstant?_eq_some_iff.mpr hdeclares] at hfirst
        cases hfirst
      constructor
      · intro h
        dsimp only at h
        split at h
        · rename_i title htitle
          cases h
          obtain ⟨htitle, hnonempty⟩ := Option.filter_eq_some_iff.mp htitle
          exact .title hnone htitle (by simpa using hnonempty)
        · cases h
      · rintro (hdeclares | ⟨-, htitle, hnonempty⟩)
        · exact absurd hdeclares (hnone _ _)
        · have hfilter : (item.string? "title").filter (!·.isEmpty) = some value := by
            rw [htitle]
            simp [hnonempty]
          rw [hfilter]

/-- Where no key stands twice, the first constant is found under its property. -/
theorem FirstConstant.constantOf? {constant : Json} (h : FirstConstant item property constant)
    (hdistinct : (Json.object item).DistinctKeys) :
    constantOf? item property = some constant := by
  cases h with
  | intro hproperties hfront hconstant =>
      rename_i front back schema
      have hkeys := (Json.distinctKeys_object_iff.mp
        (Node.distinctKeys_of_object? hdistinct hproperties)).1
      have hfound : Entries.get? (front ++ (property, schema) :: back) property = some schema :=
        hkeys.get?_eq_some_iff.mpr (List.mem_append_right _ List.mem_cons_self)
      cases schema with
      | object declared =>
          refine Option.bind_eq_some_iff.mpr ⟨_, hproperties, Option.bind_eq_some_iff.mpr
            ⟨declared, ?_, hconstant⟩⟩
          rw [Node.object?, hfound]
          rfl
      | _ => cases hconstant

end Item

/-! ## Messages of an item -/

/-- A message has all constants that an item declares. -/
def Carries (message item : Node) : Prop :=
  ∀ property constant, constantOf? item property = some constant →
    Entries.get? message property = some constant

/-- The message with the constants of an item and nothing else. -/
def constantsOf (item : Node) : Node :=
  ((item.object? "properties").getD []).filterMap fun entry =>
    (constantOf? item entry.1).map (entry.1, ·)

theorem get?_filterMap_keys {properties : Node} {constant? : String → Option Json}
    {property : String} (h : property ∈ Entries.keys properties) :
    Entries.get? (properties.filterMap fun entry => (constant? entry.1).map (entry.1, ·))
      property = constant? property := by
  induction properties with
  | nil => exact absurd h List.not_mem_nil
  | cons head rest ih =>
      by_cases hname : head.1 = property
      · subst hname
        cases hconstant : constant? head.1 with
        | some constant =>
            rw [List.filterMap_cons_some (by rw [hconstant, Option.map_some]), Entries.get?_cons,
              if_pos rfl]
        | none =>
            -- a key without a constant has none further down either
            refine Entries.get?_eq_none_iff.mpr fun hmem => ?_
            obtain ⟨found, hentry, hfound⟩ := List.mem_map.mp hmem
            obtain ⟨entry, -, hdrawn⟩ := List.mem_filterMap.mp hentry
            obtain ⟨constant, hsome, rfl⟩ := Option.map_eq_some_iff.mp hdrawn
            rw [show entry.1 = head.1 from hfound, hconstant] at hsome
            cases hsome
      · have hrest : property ∈ Entries.keys rest :=
          (List.mem_cons.mp h).resolve_left (Ne.symm hname)
        cases hconstant : constant? head.1 with
        | some constant =>
            rw [List.filterMap_cons_some (by rw [hconstant, Option.map_some]), Entries.get?_cons,
              if_neg hname]
            exact ih hrest
        | none =>
            rw [List.filterMap_cons_none (by rw [hconstant, Option.map_none])]
            exact ih hrest

theorem get?_constantsOf (item : Node) (property : String) :
    Entries.get? (constantsOf item) property = constantOf? item property := by
  unfold constantsOf
  cases hproperties : item.object? "properties" with
  | none =>
      rw [constantOf?, hproperties]
      rfl
  | some properties =>
      by_cases hmem : property ∈ Entries.keys properties
      · exact get?_filterMap_keys hmem
      · have hnone : constantOf? item property = none := by
          rw [constantOf?, hproperties, Option.bind_eq_bind, Option.bind_some, Node.object?,
            Entries.get?_eq_none_iff.mpr hmem]
          rfl
        rw [hnone]
        refine Entries.get?_eq_none_iff.mpr fun hfound => hmem ?_
        obtain ⟨found, hentry, rfl⟩ := List.mem_map.mp hfound
        obtain ⟨entry, hproperty, hdrawn⟩ := List.mem_filterMap.mp hentry
        obtain ⟨constant, -, rfl⟩ := Option.map_eq_some_iff.mp hdrawn
        exact List.mem_map.mpr ⟨entry, hproperty, rfl⟩

/-- The value is read in all messages of an item exactly if the item declares it under the tag. -/
theorem readTag_carries_iff {item : Node} {base property value : String} :
    (∀ message, Carries message item →
      Wire.readTag base property (.object message) = .ok value) ↔
      ∃ constant, constantOf? item property = some constant ∧ constant ≠ .null ∧
        Wire.literalText constant = value := by
  constructor
  · intro h
    have hread := h (constantsOf item) fun property constant hconstant => by
      rw [get?_constantsOf, hconstant]
    obtain ⟨constant, hconstant, hnull, htext⟩ := Wire.readTag_eq_ok_iff.mp hread
    rw [get?_constantsOf] at hconstant
    exact ⟨constant, hconstant, hnull, htext⟩
  · rintro ⟨constant, hconstant, hnull, rfl⟩ message hcarries
    exact Wire.readTag_of_get? (hcarries property constant hconstant) hnull

/-! ## Tag and items of an implicit base -/

/-- The first of the items that suggests anything suggests the property. -/
def DecidesTag (items : List Node) (property : String) : Prop :=
  ∃ front item back value, items = front ++ item :: back ∧
    (∀ other ∈ front, ∀ property value, ¬Suggests other property value) ∧
    Suggests item property value

/-- The item that a branch comes from is the only one that suggests its value. -/
structure ItemOf (items : List Node) (branch : Branch) (item : Node) : Prop where
  suggests : ∃ property, Suggests item property branch.value
  alone : ∃ front back, items = front ++ item :: back ∧
    ∀ other ∈ front ++ back, ∀ property, ¬Suggests other property branch.value
  refName_eq : branch.refName = item.allOfRef?

theorem implicitCandidate?_eq_some_iff {item : Node} {candidate : Candidate} :
    implicitCandidate? item = some candidate ↔
      ∃ property value, Suggests item property value ∧ value ≠ "" ∧
        candidate = ⟨item.allOfRef?, value, item⟩ := by
  constructor
  · intro h
    obtain ⟨⟨property, value⟩, hsuggestion, hvalue⟩ := Option.bind_eq_some_iff.mp h
    dsimp only at hvalue
    split at hvalue
    · cases hvalue
    · rename_i hnonempty
      obtain rfl := Option.some.inj hvalue
      exact ⟨property, value, suggestion?_eq_some_iff.mp hsuggestion,
        fun heq => hnonempty (by rw [heq]; rfl), rfl⟩
  · rintro ⟨property, value, hsuggests, hnonempty, rfl⟩
    refine Option.bind_eq_some_iff.mpr ⟨_, suggestion?_eq_some_iff.mpr hsuggests, ?_⟩
    exact if_neg (by simpa using hnonempty)

theorem ImplicitForm.decidesTag {definition : Definition} {pending : Pending}
    {items : List Json} (h : ImplicitForm definition pending items) :
    DecidesTag (Node.objectItems items) pending.property := by
  obtain ⟨⟨property, value⟩, hhead, hproperty⟩ := Option.map_eq_some_iff.mp h.property_eq
  obtain ⟨rest, hsuggested⟩ := List.head?_eq_some_iff.mp hhead
  obtain ⟨front, item, back, hsplit, hfront, hfirst, -⟩ :=
    List.filterMap_eq_cons_iff.mp hsuggested
  refine ⟨front, item, back, value, hsplit, ?_, ?_⟩
  · intro other hother name text hsuggests
    have hnone := hfront other hother
    rw [suggestion?_eq_some_iff.mpr hsuggests] at hnone
    cases hnone
  · rw [← hproperty]
    exact suggestion?_eq_some_iff.mp hfirst

theorem form_of_explicitBase? {document : Document} {definition : Definition} {pending : Pending}
    (h : explicitBase? document definition = .ok (some pending)) : pending.form = .explicit := by
  cases explicitBase?_eq_iff.mp h with
  | base _ _ _ _ => rfl

theorem refName_branchOf {scope : Scope} {pending : Pending} (candidate : Candidate) :
    (branchOf scope pending candidate).refName = candidate.refName := by
  cases h : candidate.refName.filter (isPromotable scope pending) with
  | none => rw [branchOf_wrapper h]
  | some name =>
      rw [branchOf_promoted h]
      exact (Option.filter_eq_some_iff.mp h).1.symm

/-- Items that suggest one value give one candidate too many. -/
theorem suggests_alone {front back : List Node} {item other : Node} {value : String}
    (hnodup : (((front ++ item :: back).filterMap implicitCandidate?).map (·.value)).Nodup)
    {candidate : Candidate} (hcandidate : implicitCandidate? item = some candidate)
    (hvalue : candidate.value = value) (hother : other ∈ front ++ back) {property : String}
    (hsuggests : Suggests other property value) : False := by
  obtain ⟨name, text, hitem, hnonempty, rfl⟩ := implicitCandidate?_eq_some_iff.mp hcandidate
  obtain rfl : text = value := hvalue
  have hsecond : implicitCandidate? other = some ⟨other.allOfRef?, text, other⟩ :=
    implicitCandidate?_eq_some_iff.mpr ⟨property, text, hsuggests, hnonempty, rfl⟩
  have htwice {items : List Node} (hmem : other ∈ items) :
      text ∈ (items.filterMap implicitCandidate?).map (·.value) :=
    List.mem_map.mpr ⟨_, List.mem_filterMap.mpr ⟨other, hmem, hsecond⟩, rfl⟩
  rw [List.filterMap_append, List.filterMap_cons_some hcandidate, List.map_append, List.map_cons,
    List.nodup_append, List.nodup_cons] at hnodup
  obtain ⟨-, ⟨hback, -⟩, hfront⟩ := hnodup
  rcases List.mem_append.mp hother with hmem | hmem
  · exact hfront text (htwice hmem) text List.mem_cons_self rfl
  · exact hback (htwice hmem)

theorem ImplicitForm.exists_itemOf {definition : Definition} {pending : Pending}
    {items : List Json} (h : ImplicitForm definition pending items)
    (hnodup : (pending.candidates.map (·.value)).Nodup) {candidate : Candidate}
    (hcandidate : candidate ∈ pending.candidates) {branch : Branch}
    (hvalue : candidate.value = branch.value) (href : branch.refName = candidate.refName) :
    ∃ item, ItemOf (Node.objectItems items) branch item := by
  rw [h.candidates_eq] at hcandidate hnodup
  obtain ⟨item, hitem, hdrawn⟩ := List.mem_filterMap.mp hcandidate
  obtain ⟨front, back, hsplit⟩ := List.append_of_mem hitem
  rw [hsplit] at hnodup
  refine ⟨item, ?_, ⟨front, back, hsplit, fun other hother property hsuggests =>
    suggests_alone hnodup hdrawn hvalue hother hsuggests⟩, ?_⟩
  · obtain ⟨property, value, hsuggests, -, rfl⟩ := implicitCandidate?_eq_some_iff.mp hdrawn
    rw [← hvalue]
    exact ⟨property, hsuggests⟩
  · rw [href]
    exact (drawn_of_implicitCandidate? hdrawn).2

theorem Analysis.of_implicit {document : Document} (run : Analysis document) {base : Base}
    (hbase : base ∈ run.hierarchy.bases) (hform : base.form = .implicit) :
    ∃ definition items, document.get? base.definition = some definition ∧
      definition.node.array? "anyOf" = some items ∧
      DecidesTag (Node.objectItems items) base.property ∧
      ∀ branch ∈ base.branches, ∃ item, ItemOf (Node.objectItems items) branch item := by
  obtain ⟨pending, hpending, hdecided⟩ :=
    run.exists_pending_of_mem_bases (run.mem_hierarchy_bases.mp hbase)
  obtain ⟨hnodup, hfields⟩ := baseOf_eq_ok_iff.mp hdecided
  have hpendingForm : pending.form = .implicit := by
    rw [hfields] at hform
    exact hform
  have himplicit : (implicitBase? pending.definition).1 = some pending := by
    rcases run.explicit_or_implicit_of_mem_pending hpending with hexplicit | himplicit
    · rw [form_of_explicitBase? hexplicit] at hpendingForm
      cases hpendingForm
    · exact himplicit
  obtain ⟨items, hitems⟩ := of_implicitBase? himplicit
  refine ⟨pending.definition, items, ?_, hitems.items_eq, ?_, fun branch hbranch => ?_⟩
  · rw [definition_of_baseOf hdecided]
    exact Document.get?_of_mem_sorted (run.mem_sorted_of_mem_pending hpending)
  · rw [hfields]
    exact hitems.decidesTag
  · obtain ⟨candidate, hcandidate, hbranchOf⟩ := mem_branches_of_baseOf hdecided hbranch
    exact hitems.exists_itemOf hnodup hcandidate
      ((value_branchOf candidate).symm.trans (congrArg (·.value) hbranchOf))
      ((congrArg Branch.refName hbranchOf).symm.trans (refName_branchOf candidate))

/-- **Implicit bases read what stands under the tag.**  The first suggestion decides the tag, and
every branch has the text of the first constant of its item as its value.  An item whose first
constant stands under the tag declares it there.  In general, the codec reads the value in all
messages of the item exactly if the item declares, under the tag, a constant other than null with
the text of the first one. -/
theorem implicit_values {document : Document}
    (hdistinct : (Json.object document.definitions).DistinctKeys) {hierarchy : Hierarchy}
    {notices : List Notice} (hanalyze : analyze document = .ok (hierarchy, notices)) {base : Base}
    (hbase : base ∈ hierarchy.bases) (hform : base.form = .implicit) :
    ∃ definition items, document.get? base.definition = some definition ∧
      definition.node.array? "anyOf" = some items ∧
      DecidesTag (Node.objectItems items) base.property ∧
      ∀ branch ∈ base.branches, ∃ item, ItemOf (Node.objectItems items) branch item ∧
        ∀ property constant, FirstConstant item property constant →
          branch.value = Wire.literalText constant ∧
          (property = base.property → constantOf? item base.property = some constant) ∧
          ((∀ message, Carries message item →
              Wire.readTag base.typeName base.property (.object message) = .ok branch.value) ↔
            ∃ declared, constantOf? item base.property = some declared ∧ declared ≠ .null ∧
              Wire.literalText declared = Wire.literalText constant) := by
  obtain ⟨run, rfl, -⟩ := analyze_eq_ok_iff.mp hanalyze
  obtain ⟨definition, items, hdefinition, hitems, htag, hbranches⟩ := run.of_implicit hbase hform
  refine ⟨definition, items, hdefinition, hitems, htag, fun branch hbranch => ?_⟩
  obtain ⟨item, hitemOf⟩ := hbranches branch hbranch
  refine ⟨item, hitemOf, fun property constant hfirst => ?_⟩
  have hvalue : branch.value = Wire.literalText constant := by
    obtain ⟨name, hsuggests⟩ := hitemOf.suggests
    have hsame := (suggestion?_eq_some_iff.mpr hsuggests).symm.trans
      (suggestion?_eq_some_iff.mpr (.constant hfirst))
    exact (Prod.mk.inj (Option.some.inj hsame)).2
  refine ⟨hvalue, ?_, ?_⟩
  · rintro rfl
    obtain ⟨front, back, hsplit, -⟩ := hitemOf.alone
    refine hfirst.constantOf? (Node.distinctKeys_of_objectItems
      (Document.distinctKeys_of_get? hdistinct hdefinition) hitems ?_)
    rw [hsplit]
    exact List.mem_append_right _ List.mem_cons_self
  · rw [readTag_carries_iff, hvalue]

/-! ## A value that is not under the tag -/

def ackItem : Node :=
  [("allOf", .array [.object [("$ref", .string "#/$defs/Ack")]]),
    ("properties", .object [("kind", .object [("const", .string "ack")])])]

/-- The constant of the version comes before that of the kind. -/
def nackItem : Node :=
  [("allOf", .array [.object [("$ref", .string "#/$defs/Nack")]]),
    ("properties", .object
      [("version", .object [("const", .string "2")]),
        ("kind", .object [("const", .string "nack")])])]

def replyDocument : Document where
  definitions :=
    [("Ack", .object [("type", .string "object")]),
      ("Nack", .object [("type", .string "object")]),
      ("Reply", .object [("anyOf", .array [.object ackItem, .object nackItem])])]
  revision := none
  distinct := by decide

theorem distinctKeys_reply : (Json.object replyDocument.definitions).DistinctKeys := by
  simp [replyDocument, ackItem, nackItem, Json.DistinctKeys, Json.DistinctKeysMembers,
    Json.DistinctKeysAll]

theorem exists_base_reply :
    ∃ hierarchy notices, analyze replyDocument = .ok (hierarchy, notices) ∧
      ∃ base ∈ hierarchy.bases, base.form = .implicit ∧ base.property = "kind" ∧
        base.branches.map (fun branch => (branch.value, branch.refName)) =
          [("2", some "Nack"), ("ack", some "Ack")] := by
  have hshown : ((analyze replyDocument).toOption.map fun found =>
      found.1.bases.map fun base => ((base.form, base.property),
        base.branches.map fun branch => (branch.value, branch.refName))) =
      some [((.implicit, "kind"), [("2", some "Nack"), ("ack", some "Ack")])] := by
    decide
  obtain ⟨⟨hierarchy, notices⟩, hanalyze, hbases⟩ := exists_of_toOption_map_eq_some hshown
  obtain ⟨base, rest, hsplit, hbase, -⟩ := List.map_eq_cons_iff.mp hbases
  obtain ⟨htag, hbranches⟩ := Prod.mk.inj hbase
  obtain ⟨hform, hproperty⟩ := Prod.mk.inj htag
  refine ⟨hierarchy, notices, hanalyze, base, ?_, hform, hproperty, hbranches⟩
  exact hsplit ▸ List.mem_cons_self

theorem implicit_values_reply :
    ∃ hierarchy notices base, analyze replyDocument = .ok (hierarchy, notices) ∧
      base ∈ hierarchy.bases ∧ base.form = .implicit ∧
      ∀ branch ∈ base.branches, ∃ item, ∀ property constant, FirstConstant item property constant →
        branch.value = Wire.literalText constant := by
  obtain ⟨hierarchy, notices, hanalyze, base, hbase, hform, -, -⟩ := exists_base_reply
  obtain ⟨definition, items, -, -, -, hbranches⟩ :=
    implicit_values distinctKeys_reply hanalyze hbase hform
  refine ⟨hierarchy, notices, base, hanalyze, hbase, hform, fun branch hbranch => ?_⟩
  obtain ⟨item, -, hitem⟩ := hbranches branch hbranch
  exact ⟨item, fun property constant hfirst => (hitem property constant hfirst).1⟩

/-- The second item declares `nack` under the tag, but its branch has the value of another
constant, and no branch has the value that stands under the tag of its messages. -/
theorem reply_misses_tag :
    ∃ hierarchy notices, analyze replyDocument = .ok (hierarchy, notices) ∧
      ∃ base ∈ hierarchy.bases, base.form = .implicit ∧ base.property = "kind" ∧
        ∃ branch ∈ base.branches, ItemOf [ackItem, nackItem] branch nackItem ∧
          constantOf? nackItem base.property = some (.string "nack") ∧
          branch.value ≠ Wire.literalText (.string "nack") ∧
          ∀ message, Carries message nackItem →
            Wire.readTag base.typeName base.property (.object message) = .ok "nack" ∧
              "nack" ∉ base.branches.map (·.value) := by
  obtain ⟨hierarchy, notices, hanalyze, base, hbase, hform, hproperty, hbranches⟩ :=
    exists_base_reply
  obtain ⟨branch, rest, hsplit, hbranch, hrest⟩ := List.map_eq_cons_iff.mp hbranches
  obtain ⟨hvalue, href⟩ := Prod.mk.inj hbranch
  have hvalues : base.branches.map (·.value) = ["2", "ack"] := by
    have hfirst := congrArg (List.map Prod.fst) hbranches
    rw [List.map_map] at hfirst
    exact hfirst
  have hdeclared : constantOf? nackItem base.property = some (.string "nack") := by
    rw [hproperty]
    rfl
  refine ⟨hierarchy, notices, hanalyze, base, hbase, hform, hproperty, branch,
    hsplit ▸ List.mem_cons_self, ⟨⟨"version", ?_⟩, ⟨[ackItem], [], rfl, ?_⟩, href⟩, hdeclared,
    ?_, ?_⟩
  · rw [hvalue]
    exact suggestion?_eq_some_iff.mp rfl
  · intro other hother property hsuggests
    obtain rfl : other = ackItem := by simpa using hother
    have hack := suggestion?_eq_some_iff.mpr hsuggests
    have hkind : suggestion? ackItem = some ("kind", "ack") := rfl
    rw [hkind, hvalue] at hack
    exact absurd (Prod.mk.inj (Option.some.inj hack)).2 (by decide)
  · rw [hvalue]
    decide
  · intro message hcarries
    refine ⟨Wire.readTag_of_get? (hcarries _ _ hdeclared) Json.noConfusion, ?_⟩
    rw [hvalues]
    decide

end SchemaCompiler.Hierarchy
