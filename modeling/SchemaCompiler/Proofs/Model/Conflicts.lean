import SchemaCompiler.Proofs.Model.Members

/-!
# What a run over members reports

A run over members is kept account of by one receipt for each addition: the addition and the name
that it was entered under, or none where it was dropped.  The receipts say when an addition is
dropped and which name it gets otherwise, and the members and the notices of the run can be read
off them (`Accounts`).  So an addition leaves one notice where it is dropped or gets another name
than it asked for, and no notice otherwise (`addAll_accounted`).
-/

namespace SchemaCompiler

/-! ## Receipts -/

/-- What came of an addition: the name that it was entered under, or none if it was dropped. -/
structure Receipt where
  addition : Addition
  received : Option String

namespace Addition

def description : Addition → Option String
  | member _ _ description | catchAll _ description => description

/-- What a notice calls an addition that is dropped. -/
def label : Addition → String
  | member _ value _ => value
  | catchAll name _ => name

/-- An addition opens the enumeration if it adds no value of its own. -/
def opens (addition : Addition) : Bool :=
  addition.value?.isNone

end Addition

namespace Receipt

def isDropped (receipt : Receipt) : Bool :=
  receipt.received.isNone

def isRenamed (receipt : Receipt) : Bool :=
  receipt.received.any (· ≠ receipt.addition.name)

def item? (receipt : Receipt) : Option EnumMember :=
  match receipt.addition with
  | .member _ value description => receipt.received.map fun name => ⟨name, value, description⟩
  | .catchAll _ _ => none

def catchAll? (receipt : Receipt) : Option CatchAll :=
  match receipt.addition with
  | .member _ _ _ => none
  | .catchAll _ description => receipt.received.map fun name => ⟨name, description⟩

/-- The notices that an addition owes. -/
def notices (definition : String) (receipt : Receipt) : List Notice :=
  match receipt.received with
  | none => [.memberConflict definition receipt.addition.label "(dropped)"]
  | some name =>
    if name = receipt.addition.name then []
    else [.memberConflict definition receipt.addition.name name]

/-- A dropped addition owes one notice, a renamed one too, and every other none. -/
theorem length_notices (definition : String) (receipt : Receipt) :
    (receipt.notices definition).length =
      receipt.isDropped.toNat + receipt.isRenamed.toNat := by
  obtain ⟨addition, received⟩ := receipt
  cases received with
  | none => rfl
  | some name =>
      by_cases hname : name = addition.name
      · simp [notices, isDropped, isRenamed, hname]
      · simp [notices, isDropped, isRenamed, hname]

theorem code_of_mem_notices {definition : String} {receipt : Receipt} {notice : Notice}
    (h : notice ∈ receipt.notices definition) : notice.code = .memberConflict := by
  unfold notices at h
  split at h
  · rw [List.mem_singleton.mp h]
    rfl
  · split at h
    · exact absurd h List.not_mem_nil
    · rw [List.mem_singleton.mp h]
      rfl

end Receipt

namespace Members

variable {definition : String} {members : Members} {addition : Addition}

/-! ## One step -/

/-- What the members have: values, and none where the enumeration is open. -/
def keys (members : Members) : List (Option String) :=
  members.items.map (fun item => some item.value) ++ (members.catchAll.map fun _ => none).toList

/-- Members with one more, under a name of its own. -/
def enter (members : Members) (name : String) : Addition → Members
  | .member _ value description =>
    { members with items := members.items ++ [⟨name, value, description⟩] }
  | .catchAll _ description => { members with catchAll := some ⟨name, description⟩ }

theorem mem_keys_member_iff {name value : String} {description : Option String} :
    (Addition.member name value description).value? ∈ members.keys ↔
      members.items.any (·.value = value) = true := by
  cases hcatchAll : members.catchAll with
  | none => simp [Addition.value?, keys, hcatchAll]
  | some catchAll => simp [Addition.value?, keys, hcatchAll]

theorem mem_keys_catchAll_iff {name : String} {description : Option String} :
    (Addition.catchAll name description).value? ∈ members.keys ↔
      members.catchAll.isSome = true := by
  cases hcatchAll : members.catchAll with
  | none => simp [Addition.value?, keys, hcatchAll]
  | some catchAll => simp [Addition.value?, keys, hcatchAll]

/-- What the members have is dropped. -/
theorem add_of_mem_keys (h : addition.value? ∈ members.keys) :
    members.add definition addition =
      (members, Receipt.notices definition ⟨addition, none⟩) := by
  cases addition with
  | member name value description =>
      rw [mem_keys_member_iff] at h
      rw [add, push, if_pos h]
      rfl
  | catchAll name description =>
      rw [mem_keys_catchAll_iff] at h
      rw [add, openWith, if_pos h]
      rfl

/-- What the members do not have is entered, under the first free name. -/
theorem add_of_notMem_keys (h : addition.value? ∉ members.keys) :
    members.add definition addition =
      (members.enter (Naming.fresh members.names addition.name) addition,
        Receipt.notices definition
          ⟨addition, some (Naming.fresh members.names addition.name)⟩) := by
  cases addition with
  | member name value description =>
      rw [mem_keys_member_iff] at h
      rw [add, push, if_neg h]
      rfl
  | catchAll name description =>
      rw [mem_keys_catchAll_iff] at h
      rw [add, openWith, if_neg h]
      rfl

theorem mem_keys_enter_iff (name : String) (h : addition.value? ∉ members.keys)
    {key : Option String} :
    key ∈ (members.enter name addition).keys ↔ key ∈ members.keys ∨ key = addition.value? := by
  cases addition with
  | member asked value description =>
      simp only [enter, keys, List.map_append, List.map_cons, List.map_nil, List.mem_append,
        List.mem_singleton, Addition.value?, or_right_comm]
  | catchAll asked description =>
      have hnone : members.catchAll = none := by
        rw [mem_keys_catchAll_iff] at h
        simpa using h
      simp only [enter, keys, hnone, Option.map_some, Option.map_none, Option.toList_some,
        Option.toList_none, List.append_nil, List.mem_append, List.mem_singleton,
        Addition.value?]

theorem mem_names_enter_iff {name : String} (h : addition.value? ∉ members.keys)
    {other : String} :
    other ∈ (members.enter name addition).names ↔ other ∈ members.names ∨ other = name := by
  cases addition with
  | member asked value description =>
      simp only [enter, names, List.map_append, List.map_cons, List.map_nil, List.mem_append,
        List.mem_singleton, or_right_comm]
  | catchAll asked description =>
      have hnone : members.catchAll = none := by
        rw [mem_keys_catchAll_iff] at h
        simpa using h
      simp only [enter, names, hnone, Option.map_some, Option.map_none, Option.toList_some,
        Option.toList_none, List.append_nil, List.mem_append, List.mem_singleton]

/-! ## Accounts of a run -/

/-- The name that an addition gets where some names are taken: the one it asks for, or else the
first free one with a number behind it. -/
def GetsName (taken : List String) (asked name : String) : Prop :=
  (asked ∉ taken ∧ name = asked) ∨
    asked ∈ taken ∧ ∃ n, name = asked ++ toString (n + 2) ∧ name ∉ taken ∧
      ∀ m < n, asked ++ toString (m + 2) ∈ taken

/-- Receipts that account for members and notices. -/
structure Accounts (definition : String) (receipts : List Receipt) (members : Members)
    (notices : List Notice) : Prop where
  /-- What is dropped was added before, and what was added before is dropped. -/
  dropped_iff : ∀ front receipt back, receipts = front ++ receipt :: back →
    (receipt.received = none ↔ receipt.addition.value? ∈ front.map (·.addition.value?))
  received : ∀ front receipt back, receipts = front ++ receipt :: back →
    ∀ name, receipt.received = some name →
      GetsName (front.filterMap (·.received)) receipt.addition.name name
  items_eq : members.items = receipts.filterMap Receipt.item?
  catchAll_eq : members.catchAll = (receipts.find? (·.addition.opens)).bind Receipt.catchAll?
  notices_eq : notices = receipts.flatMap (Receipt.notices definition)
  mem_keys_iff : ∀ key, key ∈ members.keys ↔ key ∈ receipts.map (·.addition.value?)
  mem_names_iff : ∀ name, name ∈ members.names ↔ name ∈ receipts.filterMap (·.received)

theorem getsName_fresh (taken : List String) (asked : String) :
    GetsName taken asked (Naming.fresh taken asked) := by
  by_cases h : asked ∈ taken
  · obtain ⟨n, hname, hbefore⟩ := Naming.exists_fresh_eq_append h
    exact Or.inr ⟨h, n, hname, Naming.fresh_notMem taken asked, hbefore⟩
  · exact Or.inl ⟨h, Naming.freshBy_of_notMem h⟩

theorem GetsName.congr {taken taken' : List String} {asked name : String}
    (h : GetsName taken asked name) (htaken : ∀ other, other ∈ taken ↔ other ∈ taken') :
    GetsName taken' asked name := by
  simpa only [GetsName, htaken] using h

/-- A fact about every receipt and those before it is shown for one receipt more at the end. -/
theorem forall_splits_concat {P : List Receipt → Receipt → Prop} {receipts : List Receipt}
    {last : Receipt}
    (h : ∀ front receipt back, receipts = front ++ receipt :: back → P front receipt)
    (hlast : P receipts last) :
    ∀ front receipt back, receipts ++ [last] = front ++ receipt :: back → P front receipt := by
  intro front receipt back hsplit
  rcases List.eq_nil_or_concat back with rfl | ⟨back, other, rfl⟩
  · obtain ⟨rfl, hreceipt⟩ := List.append_inj' hsplit rfl
    cases hreceipt
    exact hlast
  · rw [List.concat_eq_append, ← List.cons_append, ← List.append_assoc] at hsplit
    exact h front receipt back (List.append_inj' hsplit rfl).1

variable {receipts : List Receipt} {notices : List Notice}

theorem find?_opens_eq_none_iff :
    receipts.find? (·.addition.opens) = none ↔ none ∉ receipts.map (·.addition.value?) := by
  simp [List.find?_eq_none, Addition.opens]

/-- A receipt without a name accounts for an addition that is dropped. -/
theorem Accounts.drop (h : Accounts definition receipts members notices)
    (hkey : addition.value? ∈ members.keys) :
    Accounts definition (receipts ++ [⟨addition, none⟩]) members
      (notices ++ Receipt.notices definition ⟨addition, none⟩) := by
  have hearlier : addition.value? ∈ receipts.map (·.addition.value?) :=
    (h.mem_keys_iff _).mp hkey
  constructor
  case dropped_iff =>
    apply forall_splits_concat h.dropped_iff
    exact iff_of_true rfl hearlier
  case received =>
    apply forall_splits_concat h.received
    intro name hname
    cases hname
  case items_eq =>
    rw [h.items_eq, List.filterMap_append]
    cases addition with
    | member | catchAll => exact (List.append_nil _).symm
  case catchAll_eq =>
    rw [h.catchAll_eq, List.find?_append]
    cases hfirst : receipts.find? (·.addition.opens) with
    | some first => rfl
    | none =>
        -- then nothing has opened the enumeration, so this addition does not either
        rw [find?_opens_eq_none_iff] at hfirst
        cases addition with
        | member => rfl
        | catchAll => exact absurd hearlier hfirst
  case notices_eq =>
    rw [h.notices_eq, List.flatMap_append, List.flatMap_singleton]
  case mem_keys_iff =>
    intro key
    rw [h.mem_keys_iff, List.map_append, List.mem_append, List.map_singleton, List.mem_singleton]
    constructor
    · exact Or.inl
    · rintro (hmem | rfl)
      · exact hmem
      · exact hearlier
  case mem_names_iff =>
    intro name
    rw [h.mem_names_iff, List.filterMap_append]
    simp

/-- A receipt with the first free name accounts for an addition that is entered. -/
theorem Accounts.enter (h : Accounts definition receipts members notices)
    (hkey : addition.value? ∉ members.keys) :
    Accounts definition
      (receipts ++ [⟨addition, some (Naming.fresh members.names addition.name)⟩])
      (members.enter (Naming.fresh members.names addition.name) addition)
      (notices ++ Receipt.notices definition
        ⟨addition, some (Naming.fresh members.names addition.name)⟩) := by
  have hnew : addition.value? ∉ receipts.map (·.addition.value?) :=
    mt (h.mem_keys_iff _).mpr hkey
  constructor
  case dropped_iff =>
    apply forall_splits_concat h.dropped_iff
    exact iff_of_false (Option.some_ne_none _) hnew
  case received =>
    apply forall_splits_concat h.received
    intro name hname
    cases hname
    exact (getsName_fresh members.names addition.name).congr h.mem_names_iff
  case items_eq =>
    rw [List.filterMap_append, ← h.items_eq]
    cases addition with
    | member => rfl
    | catchAll => exact (List.append_nil _).symm
  case catchAll_eq =>
    rw [List.find?_append]
    cases addition with
    | member =>
        show members.catchAll = _
        rw [h.catchAll_eq]
        cases receipts.find? (·.addition.opens) <;> rfl
    | catchAll =>
        have hfirst : receipts.find? (·.addition.opens) = none := by
          rw [find?_opens_eq_none_iff]
          exact hnew
        rw [hfirst]
        rfl
  case notices_eq =>
    rw [h.notices_eq, List.flatMap_append, List.flatMap_singleton]
  case mem_keys_iff =>
    intro key
    rw [mem_keys_enter_iff _ hkey, h.mem_keys_iff, List.map_append, List.mem_append,
      List.map_singleton, List.mem_singleton]
  case mem_names_iff =>
    intro name
    rw [mem_names_enter_iff hkey, h.mem_names_iff, List.filterMap_append, List.mem_append]
    simp

/-- One more addition is accounted for by one more receipt. -/
theorem Accounts.add (h : Accounts definition receipts members notices) (addition : Addition) :
    ∃ received, Accounts definition (receipts ++ [⟨addition, received⟩])
      (members.add definition addition).1 (notices ++ (members.add definition addition).2) := by
  by_cases hkey : addition.value? ∈ members.keys
  · rw [add_of_mem_keys hkey]
    exact ⟨none, h.drop hkey⟩
  · rw [add_of_notMem_keys hkey]
    exact ⟨some (Naming.fresh members.names addition.name), h.enter hkey⟩

/-! ## A whole run -/

theorem accounts_empty (definition : String) : Accounts definition [] empty [] where
  dropped_iff front receipt back hsplit := absurd hsplit (by simp)
  received front receipt back hsplit := absurd hsplit (by simp)
  items_eq := rfl
  catchAll_eq := rfl
  notices_eq := rfl
  mem_keys_iff _ := Iff.rfl
  mem_names_iff _ := Iff.rfl

/-- A run from members that are accounted for is accounted for. -/
theorem Accounts.addAll (h : Accounts definition receipts members notices)
    (additions : List Addition) :
    ∃ more : List Receipt, more.map (·.addition) = additions ∧
      Accounts definition (receipts ++ more) (members.addAll definition additions).1
        (notices ++ (members.addAll definition additions).2) := by
  induction additions generalizing members receipts notices with
  | nil => exact ⟨[], rfl, by simpa only [Members.addAll_nil, List.append_nil] using h⟩
  | cons addition rest ih =>
      obtain ⟨received, hone⟩ := h.add addition
      obtain ⟨more, hrest, hmore⟩ := ih hone
      refine ⟨⟨addition, received⟩ :: more, ?_, ?_⟩
      · rw [List.map_cons, hrest]
      · simpa only [Members.addAll_cons, List.append_assoc, List.singleton_append] using hmore

/-- There are as many notices as additions that were dropped or renamed. -/
theorem Accounts.length_notices (h : Accounts definition receipts members notices) :
    notices.length = receipts.countP Receipt.isDropped + receipts.countP Receipt.isRenamed := by
  rw [h.notices_eq]
  clear h
  induction receipts with
  | nil => rfl
  | cons receipt rest ih =>
      rw [List.flatMap_cons, List.length_append, ih, Receipt.length_notices, List.countP_cons,
        List.countP_cons]
      cases receipt.isDropped <;> cases receipt.isRenamed <;> simp <;> omega

theorem Accounts.countP_notices (h : Accounts definition receipts members notices) :
    notices.countP (·.code = .memberConflict) =
      receipts.countP Receipt.isDropped + receipts.countP Receipt.isRenamed := by
  rw [← h.length_notices, List.countP_eq_length]
  intro notice hnotice
  rw [h.notices_eq] at hnotice
  obtain ⟨receipt, -, howed⟩ := List.mem_flatMap.mp hnotice
  exact decide_eq_true (Receipt.code_of_mem_notices howed)

/-- The first addition that opens the enumeration is not dropped, so the catch-all is its own. -/
theorem Accounts.description_catchAll (h : Accounts definition receipts members notices) :
    members.catchAll.map (·.description) =
      ((receipts.map (·.addition)).find? Addition.opens).map Addition.description := by
  rw [h.catchAll_eq, List.find?_map]
  change _ = ((receipts.find? (·.addition.opens)).map (·.addition)).map Addition.description
  cases hfirst : receipts.find? (·.addition.opens) with
  | none => rfl
  | some first =>
      obtain ⟨hopens, front, back, hsplit, hfront⟩ := List.find?_eq_some_iff_append.mp hfirst
      have hvalue : first.addition.value? = none := Option.isNone_iff_eq_none.mp hopens
      have hkept : first.received ≠ none := by
        intro hdropped
        have hearlier := (h.dropped_iff front first back hsplit).mp hdropped
        obtain ⟨earlier, hmem, hsame⟩ := List.mem_map.mp hearlier
        have hclosed := hfront earlier hmem
        simp [Addition.opens, hsame, hvalue] at hclosed
      obtain ⟨name, hname⟩ := Option.ne_none_iff_exists'.mp hkept
      cases haddition : first.addition with
      | member => rw [haddition] at hvalue; cases hvalue
      | catchAll asked description =>
          simp [Receipt.catchAll?, haddition, hname, Addition.description]

/-- **Nothing is dropped or renamed in silence.**  After a run from the empty members the values
are those that were added, each once and where it came first, and the catch-all is that of the
first addition that opened the enumeration.  Each addition has a receipt, and the receipts account
for the members and for the notices; there are as many notices of a conflict as additions that were
dropped or got another name than they asked for. -/
theorem addAll_accounted (definition : String) (additions : List Addition) :
    (empty.addAll definition additions).1.values =
        (additions.filterMap Addition.value?).eraseDups ∧
      (empty.addAll definition additions).1.catchAll.map (·.description) =
        (additions.find? Addition.opens).map Addition.description ∧
      ∃ receipts : List Receipt, receipts.map (·.addition) = additions ∧
        Accounts definition receipts (empty.addAll definition additions).1
          (empty.addAll definition additions).2 ∧
        (empty.addAll definition additions).2.countP (·.code = .memberConflict) =
          receipts.countP Receipt.isDropped + receipts.countP Receipt.isRenamed := by
  obtain ⟨receipts, hadditions, haccounts⟩ := (accounts_empty definition).addAll additions
  rw [List.nil_append, List.nil_append] at haccounts
  refine ⟨values_addAll_empty definition additions, ?_, receipts, hadditions, haccounts,
    haccounts.countP_notices⟩
  rw [haccounts.description_catchAll, hadditions]

end Members

end SchemaCompiler
