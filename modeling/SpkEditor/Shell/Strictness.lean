import SpkEditor.Shell.Approval

/-!
# Stricter settings

Settings are stricter that deny and confirm more and allow less. Under them a decision of `from_input`
never gets laxer, whatever the call. There is one exception by design: a pattern that is to be confirmed
takes the place of a default that denies.
-/

namespace SpkEditor.Shell

def ToolPermissionDecision.strictness : ToolPermissionDecision → Nat
  | .allow => 0
  | .confirm => 1
  | .deny _ => 2

def ToolPermissionMode.strictness : ToolPermissionMode → Nat
  | .allow => 0
  | .confirm => 1
  | .deny => 2

namespace ToolPermissions

variable (p : ToolPermissions) (toolName : String)

def rulesOf : ToolRules := (p.tools toolName).getD {}

def defaultOf : ToolPermissionMode := (p.rulesOf toolName).default.getD p.default

/-- **Stricter settings** for a tool. -/
structure Stricter (p' : ToolPermissions) : Prop where
  deny : (p.rulesOf toolName).alwaysDeny ⊆ (p'.rulesOf toolName).alwaysDeny
  confirm : (p.rulesOf toolName).alwaysConfirm ⊆ (p'.rulesOf toolName).alwaysConfirm
  allow : (p'.rulesOf toolName).alwaysAllow ⊆ (p.rulesOf toolName).alwaysAllow
  invalid : (p.rulesOf toolName).invalidPatterns ≠ [] → (p'.rulesOf toolName).invalidPatterns ≠ []
  default : (p.defaultOf toolName).strictness ≤ (p'.defaultOf toolName).strictness
  /-- Nothing more is to be confirmed that was denied by default. -/
  overridden : p.defaultOf toolName = .deny →
    (p'.rulesOf toolName).alwaysConfirm ⊆ (p.rulesOf toolName).alwaysConfirm

end ToolPermissions

variable {P : Parser} {hardcoded : List Char → Bool} {toolName : String} {inputs commands : List (List Char)}
  {shellKind : ShellKind} {allowEnabled : Bool} {p p' : ToolPermissions}

/-! ## How strict a decision is -/

/-- How strict the patterns and the default are with some commands. -/
def strictnessOf (commands : List (List Char)) (allowEnabled : Bool) (rules : ToolRules)
    (mode : ToolPermissionMode) : Nat :=
  if commands.any (matchesAny rules.alwaysDeny) then 2
  else if commands.any (matchesAny rules.alwaysConfirm) then 1
  else if allowEnabled && commands.all (matchesAny rules.alwaysAllow) && !commands.isEmpty then 0
  else mode.strictness

theorem strictness_checkCommands (rules : ToolRules) (globalDefault : ToolPermissionMode) :
    (checkCommands commands rules toolName allowEnabled globalDefault).strictness =
      strictnessOf commands allowEnabled rules (rules.default.getD globalDefault) := by
  rw [checkCommands, checkLoop_eq, strictnessOf]
  by_cases hd : commands.any (matchesAny rules.alwaysDeny)
  · simp [hd, ToolPermissionDecision.strictness]
  · rw [if_neg hd, if_neg hd]
    dsimp only
    rw [Bool.false_or, Bool.true_and, Bool.false_or]
    split_ifs
    · rfl
    · rfl
    · cases rules.default.getD globalDefault <;> rfl

theorem strictnessOf_le_two (rules : ToolRules) (mode : ToolPermissionMode) :
    strictnessOf commands allowEnabled rules mode ≤ 2 := by
  unfold strictnessOf
  cases mode <;> simp only [ToolPermissionMode.strictness] <;> split_ifs <;> decide

/-- Without rules, nothing but the default counts. -/
theorem strictnessOf_none (mode : ToolPermissionMode) : strictnessOf commands allowEnabled {} mode = mode.strictness := by
  have hnever : ∀ c, matchesAny [] c = false := fun _ => rfl
  unfold strictnessOf
  cases commands <;> simp [hnever]

theorem strictness_checkRules : ∃ (commands : List (List Char)) (allowEnabled : Bool),
    ∀ (rules : ToolRules) (globalDefault : ToolPermissionMode),
      (checkRules P toolName inputs rules globalDefault shellKind).strictness =
        strictnessOf commands allowEnabled rules (rules.default.getD globalDefault) := by
  have hk : shellKind.supportsPosixChaining = true := by cases shellKind <;> rfl
  unfold checkRules
  by_cases ht : toolName = terminalName
  · refine ⟨(expandInputs P inputs).1, !(expandInputs P inputs).2, fun rules globalDefault => ?_⟩
    rw [if_pos ht, if_pos hk]
    exact strictness_checkCommands rules globalDefault
  · refine ⟨inputs, true, fun rules globalDefault => ?_⟩
    rw [if_neg ht]
    exact strictness_checkCommands rules globalDefault

theorem allowsAll_eq : allowsAll toolName p = ((p.rulesOf toolName).alwaysDeny.isEmpty &&
    (p.rulesOf toolName).alwaysConfirm.isEmpty && p.defaultOf toolName == .allow) := by
  unfold allowsAll ToolPermissions.defaultOf ToolPermissions.rulesOf
  cases p.tools toolName <;> rfl

/-- What a decision depends on beside the settings. -/
theorem strictness_fromInput : ∃ (barred unresolved allowEnabled : Bool) (commands : List (List Char)),
    ∀ p : ToolPermissions, (fromInput P hardcoded toolName inputs p shellKind).strictness =
      if barred ∨ (p.rulesOf toolName).invalidPatterns ≠ [] ∨ (unresolved && !allowsAll toolName p) then 2
      else strictnessOf commands allowEnabled (p.rulesOf toolName) (p.defaultOf toolName) := by
  obtain ⟨commands, allowEnabled, hrules⟩ := @strictness_checkRules P toolName inputs shellKind
  refine ⟨(checkHardcodedSecurityRules P hardcoded toolName inputs shellKind).isSome,
    toolName = terminalName && inputs.any (fun input => validateTerminalCommand P input != .Safe),
    allowEnabled, commands, fun p => ?_⟩
  unfold fromInput
  rw [Bool.and_right_comm]
  generalize ((decide (toolName = terminalName) &&
    inputs.any fun input => validateTerminalCommand P input != .Safe) && !allowsAll toolName p) = stop
  cases hh : checkHardcodedSecurityRules P hardcoded toolName inputs shellKind with
  | some denial =>
    -- the hardcoded rules come before the settings
    unfold checkHardcodedSecurityRules at hh
    split at hh
    · cases hh
    split at hh
    · cases hh
      simp [ToolPermissionDecision.strictness]
    · cases hh
  | none =>
    unfold ToolPermissions.defaultOf ToolPermissions.rulesOf
    cases p.tools toolName with
    | none =>
      rw [Option.getD_none, strictnessOf_none]
      cases stop
      · cases p.default <;> simp [ToolPermissionDecision.strictness, ToolPermissionMode.strictness]
      · simp [ToolPermissionDecision.strictness]
    | some rules =>
      rw [Option.bind_some, Option.getD_some, checkInvalidPatterns]
      by_cases hinvalid : rules.invalidPatterns = []
      · cases stop
        · simpa [hinvalid] using hrules rules p.default
        · simp [hinvalid, ToolPermissionDecision.strictness]
      · simp [hinvalid, ToolPermissionDecision.strictness]

/-! ## Stricter settings, stricter decisions -/

theorem matchesAny_mono {patterns patterns' : List (List Char → Bool)} (h : patterns ⊆ patterns') {c : List Char}
    (hc : matchesAny patterns c = true) : matchesAny patterns' c = true := by
  unfold matchesAny at *
  rw [List.any_eq_true] at *
  obtain ⟨pattern, hmem, hmatch⟩ := hc
  exact ⟨pattern, h hmem, hmatch⟩

theorem any_matchesAny_mono {patterns patterns' : List (List Char → Bool)} (h : patterns ⊆ patterns')
    (hany : commands.any (matchesAny patterns) = true) : commands.any (matchesAny patterns') = true := by
  rw [List.any_eq_true] at *
  obtain ⟨c, hmem, hc⟩ := hany
  exact ⟨c, hmem, matchesAny_mono h hc⟩

theorem ToolPermissions.Stricter.allowsAll (h : p.Stricter toolName p') (hall : allowsAll toolName p' = true) :
    allowsAll toolName p = true := by
  rw [allowsAll_eq] at *
  simp only [Bool.and_eq_true, List.isEmpty_iff, beq_iff_eq] at *
  obtain ⟨⟨hdeny, hconfirm⟩, hdefault⟩ := hall
  have hle := h.default
  refine ⟨⟨List.subset_nil.mp (hdeny ▸ h.deny), List.subset_nil.mp (hconfirm ▸ h.confirm)⟩, ?_⟩
  rw [hdefault] at hle
  cases hmode : p.defaultOf toolName <;> simp_all [ToolPermissionMode.strictness]

theorem ToolPermissions.Stricter.strictnessOf_le (h : p.Stricter toolName p') :
    strictnessOf commands allowEnabled (p.rulesOf toolName) (p.defaultOf toolName) ≤
      strictnessOf commands allowEnabled (p'.rulesOf toolName) (p'.defaultOf toolName) := by
  have hdeny := @any_matchesAny_mono commands _ _ h.deny
  have hconfirm := @any_matchesAny_mono commands _ _ h.confirm
  have hallow : commands.all (matchesAny (p'.rulesOf toolName).alwaysAllow) = true →
      commands.all (matchesAny (p.rulesOf toolName).alwaysAllow) = true := by
    simp only [List.all_eq_true]
    exact fun hall c hc => matchesAny_mono h.allow (hall c hc)
  have hover := fun hmode => @any_matchesAny_mono commands _ _ (h.overridden hmode)
  have hle := h.default
  unfold strictnessOf
  cases hmode : p.defaultOf toolName <;> cases hmode' : p'.defaultOf toolName <;>
    simp only [hmode, hmode', ToolPermissionMode.strictness] at * <;> grind

/-- **Stricter settings never make a decision laxer.** -/
theorem fromInput_mono (h : p.Stricter toolName p') :
    (fromInput P hardcoded toolName inputs p shellKind).strictness ≤
      (fromInput P hardcoded toolName inputs p' shellKind).strictness := by
  obtain ⟨barred, unresolved, allowEnabled, commands, heq⟩ :=
    @strictness_fromInput P hardcoded toolName inputs shellKind
  rw [heq, heq]
  split
  · rename_i hstop
    -- what stops a call does so under stricter settings too
    rw [if_pos]
    refine hstop.imp_right (.imp h.invalid fun hu => ?_)
    rw [Bool.and_eq_true, Bool.not_eq_true'] at *
    exact ⟨hu.1, Bool.eq_false_iff.mpr fun hall => Bool.eq_false_iff.mp hu.2 (h.allowsAll hall)⟩
  · split
    · exact strictnessOf_le_two _ _
    · exact h.strictnessOf_le

theorem fromInput_mono_denying :
    (fromInput echoParser (fun _ => false) "fetch" [['u']]
      ⟨.confirm, fun _ => some { default := some .allow }⟩ .posix).strictness ≤
    (fromInput echoParser (fun _ => false) "fetch" [['u']] (denying fun _ => true) .posix).strictness :=
  fromInput_mono ⟨nofun, nofun, nofun, nofun, le_refl _, nofun⟩

end SpkEditor.Shell
