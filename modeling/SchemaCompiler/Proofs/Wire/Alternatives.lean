import Mathlib.Data.List.Nodup
import SchemaCompiler.Proofs.Wire.Union

/-!
# The alternative that takes a value

`Holds` says which payloads can stand for a value, and `rank` says which kind of payload comes
first.  A union reads a value as the first payload that holds it among the kinds it declares, and
nothing else: `Reads` lists the four outcomes, and `decode` gives the one that applies
(`decode_eq_iff_reads`).  The first place of an integer is found by walking the kinds in the order
`integerOrder`, which is the order of their ranks (`integerOrder_sorted`).
-/

namespace SchemaCompiler.Wire

/-- The payload can stand for the value.  An integer token has a payload in every width whose range
it lies in, and one in floating point; any other token has only its own. -/
inductive Holds : Json → Payload → Prop where
  | string (value : String) : Holds (.string value) (.string value)
  | boolean (value : Bool) : Holds (.bool value) (.boolean value)
  | object (members : List (String × Json)) : Holds (.object members) (.object members)
  | array (items : List Json) : Holds (.array items) (.array items)
  | float (value : Float) : Holds (.number (.float value)) (.float value)
  | integer {width : IntWidth} {value : Int} (least : width.least ≤ value)
      (greatest : value ≤ width.greatest) : Holds (.number (.int value)) (.integer width value)
  | rounded (value : Int) : Holds (.number (.int value)) (.float (Number.nearestFloat value))

theorem integerAs_eq_some_iff {value : Int} {kind : AlternativeKind} {payload : Payload} :
    Union.integerAs value kind = some payload ↔
      payload.kind = kind ∧ Holds (.number (.int value)) payload := by
  constructor
  · intro h
    cases kind with
    | integer width =>
        rw [Union.integerAs] at h
        split at h
        · rename_i hrange
          cases h
          obtain ⟨hleast, hgreatest⟩ := IntWidth.holds_iff.mp hrange
          exact ⟨rfl, .integer hleast hgreatest⟩
        · cases h
    | float =>
        cases h
        exact ⟨rfl, .rounded value⟩
    | _ => cases h
  · rintro ⟨rfl, hholds⟩
    cases hholds with
    | integer hleast hgreatest =>
        exact if_pos (IntWidth.holds_iff.mpr ⟨hleast, hgreatest⟩)
    | rounded => rfl

theorem Holds.eq_of_kind_eq {value : Json} {p q : Payload} (hp : Holds value p)
    (hq : Holds value q) (hkind : p.kind = q.kind) : p = q := by
  cases hp <;> cases hq <;> cases hkind <;> rfl

/-- A token that is no integer is held in one way at most. -/
theorem Holds.eq_of_not_integer {value : Json} {p q : Payload} (hp : Holds value p)
    (hq : Holds value q) (hvalue : ∀ n, value ≠ .number (.int n)) : p = q := by
  cases hp with
  | integer => exact absurd rfl (hvalue _)
  | rounded => exact absurd rfl (hvalue _)
  | _ => cases hq; rfl

namespace Union

variable {u : Union}

theorem declares_iff {kind : AlternativeKind} :
    u.declares kind = true ↔ kind ∈ u.alternatives :=
  List.contains_iff_mem

/-! ## The order of the kinds -/

/-- The place of a kind: 32 bits with a sign, 64 bits with a sign, floating point, and then the
others as they are declared. -/
def rank (u : Union) : AlternativeKind → Nat
  | .integer .int32 => 0
  | .integer .int64 => 1
  | .float => 2
  | kind => 3 + u.alternatives.idxOf kind

@[simp] theorem rank_int32 (u : Union) : u.rank (.integer .int32) = 0 := rfl

@[simp] theorem rank_int64 (u : Union) : u.rank (.integer .int64) = 1 := rfl

@[simp] theorem rank_float (u : Union) : u.rank .float = 2 := rfl

theorem rank_of_not_preferred {kind : AlternativeKind} (h : kind ∉ preferred) :
    u.rank kind = 3 + u.alternatives.idxOf kind := by
  unfold rank
  split
  · exact absurd (by decide) h
  · exact absurd (by decide) h
  · exact absurd (by decide) h
  · rfl

theorem rank_le_two_of_preferred {kind : AlternativeKind} (h : kind ∈ preferred) :
    u.rank kind ≤ 2 := by
  simp only [preferred, List.mem_cons, List.not_mem_nil, or_false] at h
  rcases h with rfl | rfl | rfl <;> simp

theorem mem_integerOrder_iff {kind : AlternativeKind} :
    kind ∈ u.integerOrder ↔ kind ∈ u.alternatives := by
  unfold integerOrder
  rw [List.mem_append, List.mem_filter, List.mem_filter]
  constructor
  · rintro (⟨-, hdeclared⟩ | ⟨hdeclared, -⟩)
    · rwa [declares_iff] at hdeclared
    · exact hdeclared
  · intro h
    by_cases hpreferred : kind ∈ preferred
    · exact Or.inl ⟨hpreferred, by rwa [declares_iff]⟩
    · exact Or.inr ⟨h, by simpa using hpreferred⟩

theorem idxOf_pairwise {kinds : List AlternativeKind} (h : kinds.Nodup) :
    kinds.Pairwise fun a b => kinds.idxOf a < kinds.idxOf b := by
  rw [List.pairwise_iff_getElem]
  intro i j hi hj hij
  rw [h.idxOf_getElem, h.idxOf_getElem]
  exact hij

theorem integerOrder_sorted (h : u.alternatives.Nodup) :
    u.integerOrder.Pairwise fun a b => u.rank a < u.rank b := by
  unfold integerOrder
  rw [List.pairwise_append]
  refine ⟨?_, ?_, ?_⟩
  · have hpreferred : preferred.Pairwise fun a b => u.rank a < u.rank b := by
      simp [preferred]
    exact hpreferred.sublist List.filter_sublist
  · refine ((idxOf_pairwise h).sublist List.filter_sublist).imp_of_mem ?_
    intro a b ha hb hlt
    have hothers {kind : AlternativeKind}
        (hkind : kind ∈ u.alternatives.filter (!preferred.contains ·)) : kind ∉ preferred := by
      simpa using (List.mem_filter.mp hkind).2
    rw [rank_of_not_preferred (hothers ha), rank_of_not_preferred (hothers hb)]
    omega
  · intro a ha b hb
    have hsmall : u.rank a ≤ 2 := rank_le_two_of_preferred (List.mem_filter.mp ha).1
    have hlarge : b ∉ preferred := by simpa using (List.mem_filter.mp hb).2
    rw [rank_of_not_preferred hlarge]
    omega

/-! ## The payload that is chosen -/

/-- The payload is of a declared kind, holds the value, and no declared kind that can hold the
value comes before its own. -/
structure Takes (u : Union) (value : Json) (payload : Payload) : Prop where
  declared : payload.kind ∈ u.alternatives
  holds : Holds value payload
  first : ∀ other, other.kind ∈ u.alternatives → Holds value other →
    u.rank payload.kind ≤ u.rank other.kind

theorem takes_of_findSome? (h : u.alternatives.Nodup) {value : Int} {payload : Payload}
    (hfound : u.integerOrder.findSome? (integerAs value) = some payload) :
    u.Takes (.number (.int value)) payload := by
  obtain ⟨before, kind, after, horder, hkind, hbefore⟩ := List.findSome?_eq_some_iff.mp hfound
  obtain ⟨rfl, hholds⟩ := integerAs_eq_some_iff.mp hkind
  refine ⟨mem_integerOrder_iff.mp (by simp [horder]), hholds, fun other hother hheld => ?_⟩
  have hmem : other.kind ∈ before ++ payload.kind :: after :=
    horder ▸ mem_integerOrder_iff.mpr hother
  rcases List.mem_append.mp hmem with hother | hother
  · -- the kinds before have turned the value away
    have hnone := hbefore other.kind hother
    rw [integerAs_eq_some_iff.mpr ⟨rfl, hheld⟩] at hnone
    cases hnone
  · rcases List.mem_cons.mp hother with heq | hother
    · exact Nat.le_of_eq (congrArg u.rank heq.symm)
    · have hsorted := integerOrder_sorted h
      rw [horder, List.pairwise_append, List.pairwise_cons] at hsorted
      exact Nat.le_of_lt (hsorted.2.1.1 other.kind hother)

/-- A token that is no integer goes to its own kind. -/
theorem exists_own_payload {value : Json} (hnull : value ≠ .null)
    (hvalue : ∀ n, value ≠ .number (.int n)) :
    ∃ own, (∀ payload, Holds value payload ↔ payload = own) ∧
      u.choose value = if u.declares own.kind then some own else none := by
  have hown {own : Payload} (hholds : Holds value own) (payload : Payload) :
      Holds value payload ↔ payload = own := by
    constructor
    · intro hpayload
      exact hpayload.eq_of_not_integer hholds hvalue
    · rintro rfl
      exact hholds
  cases value with
  | null => exact absurd rfl hnull
  | bool value => exact ⟨_, hown (.boolean value), rfl⟩
  | number number =>
      cases number with
      | int value => exact absurd rfl (hvalue value)
      | float value => exact ⟨_, hown (.float value), rfl⟩
  | string value => exact ⟨_, hown (.string value), rfl⟩
  | array items => exact ⟨_, hown (.array items), rfl⟩
  | object members => exact ⟨_, hown (.object members), rfl⟩

/-- What is chosen takes the value. -/
theorem takes_of_choose (h : u.alternatives.Nodup) {value : Json} {payload : Payload}
    (hchosen : u.choose value = some payload) : u.Takes value payload := by
  by_cases hinteger : ∃ n, value = .number (.int n)
  · obtain ⟨n, rfl⟩ := hinteger
    exact takes_of_findSome? h hchosen
  · have hnull : value ≠ .null := by
      rintro rfl
      cases hchosen
    obtain ⟨own, hholds, hchoose⟩ := exists_own_payload (u := u) hnull (not_exists.mp hinteger)
    rw [hchoose] at hchosen
    split at hchosen
    · rename_i hdeclared
      rw [declares_iff] at hdeclared
      cases hchosen
      refine ⟨hdeclared, (hholds _).mpr rfl, fun other _ hother => ?_⟩
      exact Nat.le_of_eq (by rw [(hholds other).mp hother])
    · cases hchosen

/-- Where nothing is chosen, no declared kind can hold the value. -/
theorem not_holds_of_choose_eq_none {value : Json} (hchosen : u.choose value = none)
    {payload : Payload} (hdeclared : payload.kind ∈ u.alternatives) : ¬Holds value payload := by
  intro hheld
  by_cases hinteger : ∃ n, value = .number (.int n)
  · obtain ⟨n, rfl⟩ := hinteger
    have hkind := List.findSome?_eq_none_iff.mp hchosen payload.kind
      (mem_integerOrder_iff.mpr hdeclared)
    rw [integerAs_eq_some_iff.mpr ⟨rfl, hheld⟩] at hkind
    cases hkind
  · have hnull : value ≠ .null := by
      rintro rfl
      cases hheld
    obtain ⟨own, hholds, hchoose⟩ := exists_own_payload (u := u) hnull (not_exists.mp hinteger)
    obtain rfl : payload = own := (hholds payload).mp hheld
    rw [← declares_iff] at hdeclared
    rw [hchoose, if_pos hdeclared] at hchosen
    cases hchosen

/-- A value is read as soon as some declared kind can hold it. -/
theorem exists_choose_eq_some {value : Json} {payload : Payload}
    (hdeclared : payload.kind ∈ u.alternatives) (hholds : Holds value payload) :
    ∃ taken, u.choose value = some taken := by
  cases hchosen : u.choose value with
  | none => exact absurd hholds (not_holds_of_choose_eq_none hchosen hdeclared)
  | some taken => exact ⟨taken, rfl⟩

theorem eq_of_rank_eq {a b : AlternativeKind} (ha : a ∈ u.alternatives)
    (hrank : u.rank a = u.rank b) : a = b := by
  by_cases hpa : a ∈ preferred
  · by_cases hpb : b ∈ preferred
    · simp only [preferred, List.mem_cons, List.not_mem_nil, or_false] at hpa hpb
      rcases hpa with rfl | rfl | rfl <;> rcases hpb with rfl | rfl | rfl <;> simp_all
    · have hsmall := rank_le_two_of_preferred (u := u) hpa
      rw [hrank, rank_of_not_preferred hpb] at hsmall
      omega
  · by_cases hpb : b ∈ preferred
    · have hsmall := rank_le_two_of_preferred (u := u) hpb
      rw [← hrank, rank_of_not_preferred hpa] at hsmall
      omega
    · rw [rank_of_not_preferred hpa, rank_of_not_preferred hpb] at hrank
      exact (List.idxOf_inj ha).mp (Nat.add_left_cancel hrank)

theorem Takes.unique {value : Json} {p q : Payload} (hp : u.Takes value p)
    (hq : u.Takes value q) : p = q := by
  have hrank := Nat.le_antisymm (hp.first q hq.declared hq.holds) (hq.first p hp.declared hp.holds)
  exact hp.holds.eq_of_kind_eq hq.holds (eq_of_rank_eq hp.declared hrank)

/-! ## Reading -/

/-- What a union makes of a value. -/
inductive Reads (u : Union) : Json → Except CodecError (Option Payload) → Prop where
  | null (h : u.nullable = true) : Reads u .null (.ok none)
  | nullRefused (h : u.nullable = false) : Reads u .null (.error (.nullRefused u.name))
  | taken {value : Json} {payload : Payload} (h : u.Takes value payload) :
      Reads u value (.ok (some payload))
  | refused {value : Json} (hnull : value ≠ .null)
      (h : ∀ payload, payload.kind ∈ u.alternatives → ¬Holds value payload) :
      Reads u value (.error (.noAlternative u.name value.kind))

theorem decode_of_ne_null {value : Json} (hnull : value ≠ .null) :
    u.decode value =
      match u.choose value with
      | some payload => .ok (some payload)
      | none => .error (.noAlternative u.name value.kind) := by
  cases value with
  | null => exact absurd rfl hnull
  | _ => rfl

theorem reads_decode (h : u.alternatives.Nodup) (value : Json) :
    u.Reads value (u.decode value) := by
  by_cases hnull : value = .null
  · subst hnull
    rw [decode]
    split
    · rename_i hnullable
      exact .null hnullable
    · rename_i hnullable
      exact .nullRefused (Bool.eq_false_iff.mpr hnullable)
  · rw [decode_of_ne_null hnull]
    split
    · rename_i payload hchosen
      exact .taken (takes_of_choose h hchosen)
    · rename_i hchosen
      exact .refused hnull fun payload hdeclared => not_holds_of_choose_eq_none hchosen hdeclared

theorem Reads.unique {value : Json} {a b : Except CodecError (Option Payload)}
    (ha : u.Reads value a) (hb : u.Reads value b) : a = b := by
  cases ha with
  | null hnullable =>
      cases hb with
      | null => rfl
      | nullRefused hrefused => exact absurd hnullable (Bool.eq_false_iff.mp hrefused)
      | taken htakes => cases htakes.holds
      | refused hnull => exact absurd rfl hnull
  | nullRefused hrefused =>
      cases hb with
      | null hnullable => exact absurd hnullable (Bool.eq_false_iff.mp hrefused)
      | nullRefused => rfl
      | taken htakes => cases htakes.holds
      | refused hnull => exact absurd rfl hnull
  | taken htakes =>
      cases hb with
      | null => cases htakes.holds
      | nullRefused => cases htakes.holds
      | taken htakes' => rw [htakes.unique htakes']
      | refused _ hnone => exact absurd htakes.holds (hnone _ htakes.declared)
  | refused hnull hnone =>
      cases hb with
      | null => exact absurd rfl hnull
      | nullRefused => exact absurd rfl hnull
      | taken htakes => exact absurd htakes.holds (hnone _ htakes.declared)
      | refused => rfl

theorem decode_eq_iff_reads (h : u.alternatives.Nodup) {value : Json}
    {result : Except CodecError (Option Payload)} :
    u.decode value = result ↔ u.Reads value result := by
  constructor
  · rintro rfl
    exact reads_decode h value
  · intro hreads
    exact (reads_decode h value).unique hreads

/-! ## Writing -/

theorem encode_eq_iff {value : Json} {payload : Option Payload}
    (h : u.Reads value (.ok payload)) :
    encode payload = value ↔
      ¬∃ n, value = .number (.int n) ∧ payload = some (.float (Number.nearestFloat n)) := by
  cases h with
  | null =>
      refine iff_of_true rfl ?_
      rintro ⟨n, hvalue, -⟩
      cases hvalue
  | taken htakes =>
      cases htakes.holds with
      | rounded n =>
          refine iff_of_false (fun heq => ?_) (not_not_intro ⟨n, rfl, rfl⟩)
          cases heq
      | _ =>
          refine iff_of_true rfl ?_
          rintro ⟨n, hvalue, hpayload⟩
          cases hvalue <;> cases hpayload

/-- **A union reads a value as its first declared alternative that can hold it**, and refuses it
otherwise with the reason.  What it has read it reads again from what it writes, and it writes the
value it has read, except for an integer that it holds in floating point. -/
theorem reads_first_alternative (h : u.alternatives.Nodup) (value : Json) :
    (∀ result, u.decode value = result ↔ u.Reads value result) ∧
      ∀ payload, u.decode value = .ok payload →
        u.decode (encode payload) = .ok payload ∧
          (encode payload = value ↔
            ¬∃ n, value = .number (.int n) ∧
              payload = some (.float (Number.nearestFloat n))) := by
  refine ⟨fun result => decode_eq_iff_reads h, fun payload hdecode => ⟨decode_encode hdecode, ?_⟩⟩
  exact encode_eq_iff ((decode_eq_iff_reads h).mp hdecode)

/-- The unsigned kind is declared first, but integers try the signed one before it. -/
def unsignedFirst : Union :=
  ⟨"UnsignedFirst", [.integer .uint64, .integer .int64], false⟩

/-- One more than the signed kind can hold goes to the unsigned one. -/
theorem reads_first_alternative_past_int64 :
    unsignedFirst.alternatives.Nodup ∧
      unsignedFirst.Reads (.number (.int 9223372036854775808))
        (.ok (some (.integer .uint64 9223372036854775808))) ∧
      encode (some (.integer .uint64 9223372036854775808)) =
        .number (.int 9223372036854775808) := by
  have hdistinct : unsignedFirst.alternatives.Nodup := by decide
  have hdecode : unsignedFirst.decode (.number (.int 9223372036854775808)) =
      .ok (some (.integer .uint64 9223372036854775808)) := rfl
  obtain ⟨hreads, hwrites⟩ :=
    reads_first_alternative hdistinct (.number (.int 9223372036854775808))
  refine ⟨hdistinct, (hreads _).mp hdecode, (hwrites _ hdecode).2.mpr ?_⟩
  rintro ⟨n, -, hpayload⟩
  cases hpayload

end Union

end SchemaCompiler.Wire
