import SchemaCompiler.Proofs.Json.Template

/-!
# Defaults of dynamic types

The default of a field of dynamic values is kept whatever it is, and its JSON text is handed to the
macro for such values.  That is an expression for the default exactly if its strings need no other
escapes than those of the language and its integers are of 32 bits (`dynamic_defaults`).
-/

namespace SchemaCompiler.Render

open Source

variable {default : Json}

/-- The text is that of an expression that denotes the value and nothing else. -/
def IsExpressionFor (text : String) (default : Json) : Prop :=
  ∃ template, Template.read? text = some template ∧
    ∀ value, Denotes template value ↔ value = default

theorem read?_literal (hrange : ∀ number ∈ default.numbers, number.InRange) :
    Template.read? (literal .dynamic default) = default.template? := by
  have htext : (literal .dynamic default).toList =
      "serde_json::json!(".toList ++ (default.text.toList ++ [')']) := by
    rw [literal]
    simp
  have hread := Json.readsAsTemplate_text default hrange (default.text.toList ++ [')']).length [')']
    (by simp) (closes_cons (by decide) [])
  rw [Template.read?, htext, after?_append, Option.bind_some, hread]
  cases default.template? <;> rfl

theorem isExpressionFor_iff (hrange : ∀ number ∈ default.numbers, number.InRange)
    (hkeys : default.DistinctKeys) :
    IsExpressionFor (literal .dynamic default) default ↔
      (∀ text ∈ default.texts, Json.isSharedText text = true) ∧ default.IntegersFit := by
  rw [IsExpressionFor, read?_literal hrange, ← Json.template?_isSome_iff hrange,
    Option.isSome_iff_exists]
  constructor
  · rintro ⟨template, htemplate, hdenotes⟩
    exact ⟨⟨template, htemplate⟩,
      (Json.denotes_template?_iff hrange hkeys htemplate).mp ((hdenotes default).mpr rfl)⟩
  · rintro ⟨⟨template, htemplate⟩, hfits⟩
    have hdefault := (Json.denotes_template?_iff hrange hkeys htemplate).mpr hfits
    refine ⟨template, htemplate, fun value => ⟨fun h => h.unique hdefault, ?_⟩⟩
    rintro rfl
    exact hdefault

theorem mem_declaration_of_defaulted (context : Context) {type : TypeDecl} {field : Field}
    (hfield : field ∈ type.fields) (hpresence : field.presence = .defaulted default) :
    step ++ literal field.descriptor default ∈ declaration context type := by
  refine (defaultItem_infix_declaration context hfield).subset ?_
  rw [defaultItem, hpresence]
  exact List.mem_cons_of_mem _ (List.mem_cons_of_mem _ List.mem_cons_self)

/-- **The default of a field of dynamic values.**  Its literal is a line of the source.  It can be
read exactly if no string or key in the default holds a control character other than a tab, a line
feed and a carriage return; and it is an expression for the default exactly if, besides, no integer
in it is beyond 32 bits. -/
theorem dynamic_defaults (context : Context) {type : TypeDecl} {field : Field}
    (hfield : field ∈ type.fields) (hdescriptor : field.descriptor = .dynamic)
    (hpresence : field.presence = .defaulted default)
    (hrange : ∀ number ∈ default.numbers, number.InRange) (hkeys : default.DistinctKeys) :
    step ++ literal .dynamic default ∈ declaration context type ∧
      ((Template.read? (literal .dynamic default)).isSome = true ↔
        ∀ text ∈ default.texts, Json.isSharedText text = true) ∧
      (IsExpressionFor (literal .dynamic default) default ↔
        (∀ text ∈ default.texts, Json.isSharedText text = true) ∧ default.IntegersFit) := by
  refine ⟨hdescriptor ▸ mem_declaration_of_defaulted context hfield hpresence, ?_,
    isExpressionFor_iff hrange hkeys⟩
  rw [read?_literal hrange]
  exact Json.template?_isSome_iff hrange

/-- A field of dynamic values. -/
def mark (default : Json) : Field :=
  ⟨"mark", "Mark", false, .dynamic, .defaulted default, false, none, none⟩

def marked (default : Json) : TypeDecl :=
  .ofDefinition "Note" none (.record [mark default])

theorem mark_mem_fields (default : Json) : mark default ∈ (marked default).fields :=
  List.mem_singleton_self _

/-- A list in an object, with a line feed in a string and the least of the 32-bit integers. -/
theorem dynamic_defaults_marked :
    let default : Json :=
      .object [("lines", .array [.string "first\nsecond", .number (.int (-2147483648))])]
    ((∀ number ∈ default.numbers, number.InRange) ∧ default.DistinctKeys) ∧
      step ++ literal .dynamic default ∈
        declaration ⟨.standard, Profile.standard⟩ (marked default) ∧
      IsExpressionFor (literal .dynamic default) default := by
  intro default
  have hrange : ∀ number ∈ default.numbers, number.InRange := by
    intro number hnumber
    obtain rfl : number = .int (-2147483648) := List.mem_singleton.mp hnumber
    exact .inl rfl
  have hkeys : default.DistinctKeys := by
    rw [Json.distinctKeys_object_iff, List.forall_mem_singleton, Json.distinctKeys_array_iff]
    exact ⟨List.nodup_singleton _, by simp [Json.DistinctKeys]⟩
  obtain ⟨hmem, -, hexpression⟩ := dynamic_defaults ⟨.standard, Profile.standard⟩
    (mark_mem_fields default) rfl rfl hrange hkeys
  refine ⟨⟨hrange, hkeys⟩, hmem, hexpression.mpr ⟨by decide, ?_⟩⟩
  intro number hnumber i hi
  obtain rfl : number = .int (-2147483648) := List.mem_singleton.mp hnumber
  obtain rfl := Number.int.inj hi
  rfl

/-! ## Defaults whose literals are no expressions for them -/

/-- A backspace is written behind an escape that the language does not have, and an integer of 33
bits as one that its type does not hold. -/
theorem literal_misses_default :
    (step ++ "serde_json::json!(\"\\b\")" ∈
        declaration ⟨.standard, Profile.standard⟩ (marked (.string "\x08")) ∧
      Template.read? "serde_json::json!(\"\\b\")" = none) ∧
    (step ++ "serde_json::json!(3000000000)" ∈
        declaration ⟨.standard, Profile.standard⟩ (marked (.number (.int 3000000000))) ∧
      ¬IsExpressionFor "serde_json::json!(3000000000)" (.number (.int 3000000000))) := by
  have hbell : literal .dynamic (.string "\x08") = "serde_json::json!(\"\\b\")" := by cbv
  have hlarge : literal .dynamic (.number (.int 3000000000)) = "serde_json::json!(3000000000)" := by
    -- The kernel computes the digits; unfolding them step by step does not end.
    rw [literal, Json.text_number]
    decide +kernel
  have hmem (default : Json) : step ++ literal .dynamic default ∈
      declaration ⟨.standard, Profile.standard⟩ (marked default) :=
    mem_declaration_of_defaulted _ (mark_mem_fields default) rfl
  have hrange : ∀ number ∈ (Json.number (.int 3000000000)).numbers, number.InRange := by
    intro number hnumber
    obtain rfl : number = .int 3000000000 := List.mem_singleton.mp hnumber
    exact .inl (by decide)
  rw [← hbell, ← hlarge]
  refine ⟨⟨hmem _, by rw [hbell]; decide +kernel⟩, hmem _, fun h => ?_⟩
  have hfits := ((isExpressionFor_iff hrange trivial).mp h).2
  exact absurd (hfits (.int 3000000000) (List.mem_singleton_self _) 3000000000 rfl) (by decide)

end SchemaCompiler.Render
