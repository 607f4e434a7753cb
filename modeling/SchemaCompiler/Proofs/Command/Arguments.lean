import SchemaCompiler.Command.Arguments

/-!
# The same command line as a check

A command line that does not check becomes one that does if `--check` is put in front
(`Arguments.read?_cons_check`); task and options stay the same.
-/

namespace SchemaCompiler.Command

namespace Options

def checking (options : Options) : Options :=
  { options with check := true }

variable {options : Options} {name : OptionName} {value : String}

theorem add?_checking :
    options.checking.add? name value = (options.add? name value).map checking := by
  rw [add?, add?]
  by_cases h : ((options.get? name).isSome || value.isEmpty && !name.acceptsEmpty) = true
  · rw [if_pos h, if_pos (show ((options.checking.get? name).isSome || _) = true from h)]
    rfl
  · rw [if_neg h, if_neg (show ¬((options.checking.get? name).isSome || _) = true from h)]
    rfl

theorem check_of_add? {added : Options} (h : options.add? name value = some added) :
    added.check = options.check := by
  rw [add?] at h
  split at h
  · cases h
  · exact Option.some.inj h ▸ rfl

end Options

def Arguments.checking (arguments : Arguments) : Arguments :=
  { arguments with options := arguments.options.checking }

variable {options behind : Options} {args : List String} {rest : Option (String × List String)}

/-- No option takes a check back. -/
theorem check_of_readOptions (h : readOptions options args = some (behind, rest))
    (hcheck : options.check = true) : behind.check = true := by
  fun_induction readOptions options args with
  | case1 options =>
      cases h
      exact hcheck
  | case2 options text args htext ih =>
      obtain ⟨added, hadded, hrest⟩ := Option.bind_eq_some_iff.mp h
      simp [Options.addCheck?, hcheck] at hadded
  | case3 options text args name value htext ih =>
      obtain ⟨added, hadded, hrest⟩ := Option.bind_eq_some_iff.mp h
      exact ih added hrest ((Options.check_of_add? hadded).trans hcheck)
  | case4 options text name htext value args hvalue ih =>
      obtain ⟨added, hadded, hrest⟩ := Option.bind_eq_some_iff.mp h
      exact ih added hrest ((Options.check_of_add? hadded).trans hcheck)
  | case7 options text args word htext =>
      cases h
      exact hcheck
  | case5 | case6 | case8 => cases h

/-- Options read behind a check are the same. -/
theorem readOptions_checking (h : readOptions options args = some (behind, rest))
    (hcheck : behind.check = false) :
    readOptions options.checking args = some (behind.checking, rest) := by
  fun_induction readOptions options args with
  | case1 options =>
      cases h
      rfl
  | case2 options text args htext ih =>
      -- a check would be left
      obtain ⟨added, hadded, hrest⟩ := Option.bind_eq_some_iff.mp h
      rw [Options.addCheck?] at hadded
      split at hadded
      · cases hadded
      · rw [check_of_readOptions hrest (Option.some.inj hadded ▸ rfl)] at hcheck
        cases hcheck
  | case3 options text args name value htext ih =>
      obtain ⟨added, hadded, hrest⟩ := Option.bind_eq_some_iff.mp h
      simp only [readOptions, htext, Options.add?_checking, hadded]
      exact ih added hrest
  | case4 options text name htext value args hvalue ih =>
      obtain ⟨added, hadded, hrest⟩ := Option.bind_eq_some_iff.mp h
      simp only [readOptions, htext, hvalue, Options.add?_checking, hadded]
      exact ih added hrest
  | case7 options text args word htext =>
      cases h
      simp only [readOptions, htext]
  | case5 | case6 | case8 => cases h

theorem Arguments.read?_cons_check {arguments : Arguments}
    (h : Arguments.read? args = some arguments) (hcheck : arguments.options.check = false) :
    Arguments.read? ("--check" :: args) = some arguments.checking := by
  have hfront : readOptions .empty ("--check" :: args) = readOptions Options.empty.checking args :=
    rfl
  rw [Arguments.read?] at h ⊢
  obtain ⟨⟨before, words⟩, hbefore, h⟩ := Option.bind_eq_some_iff.mp h
  obtain ⟨⟨word, rest⟩, hwords, h⟩ := Option.bind_eq_some_iff.mp h
  obtain ⟨task, htask, h⟩ := Option.bind_eq_some_iff.mp h
  obtain ⟨⟨behind, last⟩, hbehind, h⟩ := Option.bind_eq_some_iff.mp h
  cases last with
  | some _ => cases h
  | none =>
      obtain rfl := Option.some.inj h
      have hchecks : before.check = false ∧ behind.check = false := by
        simpa [Options.overlay] using hcheck
      rw [hfront, readOptions_checking hbefore hchecks.1]
      refine Option.bind_eq_some_iff.mpr ⟨_, rfl, Option.bind_eq_some_iff.mpr ⟨_, hwords, ?_⟩⟩
      refine Option.bind_eq_some_iff.mpr ⟨task, htask, ?_⟩
      exact Option.bind_eq_some_iff.mpr ⟨_, hbehind, rfl⟩

end SchemaCompiler.Command
