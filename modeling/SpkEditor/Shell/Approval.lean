import SpkEditor.Shell.Permissions

/-!
# What an approval means

The terminal runs a command without asking if `from_input` allows it. It should then hold that
nothing in the command is substituted, and that the rules of the user let every simple command and
every redirect to a file pass. The validator and the extractor both pass over the word behind
`>&`, and the rules see only the whole input where the extractor gives up; here is exactly when
the approval still means what it should.
-/

namespace SpkEditor.Shell

open Option

section

variable (P : Parser)

def Part.Plain : Part → Prop
  | .word w => P.plain w
  | .duplication _ _ w => P.plain w
  | .processSubstitution | .arithmetic => False
  | .command _ _ _ | .redirect _ _ => True

/-- Behind `>&` this is a descriptor, a descriptor to be moved, or the order to close one. -/
def namesDescriptor (target : List Char) : Bool :=
  target.all Char.isDigit || (target.getLast? == some '-' && target.dropLast.all Char.isDigit)

/-- `>&` without a descriptor, or with the one of the standard output, opens the file that its
target names. -/
def duplicationOpens (fd : Option Nat) (kind : IoFileRedirectKind) (target : Word) : Bool :=
  kind == .duplicateOutput && (fd == none || fd == some 1) &&
    (normalizeWord P target).any fun name => !namesDescriptor name

/-- The text of a duplication that opens a file other than `/dev/null`. -/
def duplicationText (fd : Option Nat) (kind : IoFileRedirectKind) (target : Word) :
    Option (List Char) :=
  if duplicationOpens P fd kind target then
    (normalizeTarget P (fdText fd ++ kind.operator) target).join
  else none

/-- What the rules should be asked about: a simple command as its normalised words, a redirect
that opens a file other than `/dev/null` as its operator and its target. -/
def Part.text : Part → Option (List Char)
  | .command front wordOrName suffix => some (joinWords (commandWords P front wordOrName suffix))
  | .redirect operator target => (normalizeTarget P operator target).join
  | .duplication fd kind target => duplicationText P fd kind target
  | .word _ | .processSubstitution | .arithmetic => none

def terminalRules (permissions : ToolPermissions) : ToolRules :=
  (permissions.tools terminalName).getD {}

/-- The mode for what no pattern matches. -/
def effectiveDefault (permissions : ToolPermissions) : ToolPermissionMode :=
  (terminalRules permissions).default.getD permissions.default

/-- What an approval of a program should mean. -/
structure Approved (permissions : ToolPermissions) (program : Program) : Prop where
  plain : ∀ p ∈ program.parts, p.Plain P
  passes : ∀ p ∈ program.parts, ∀ text, p.text P = some text →
    matchesAny (terminalRules permissions).alwaysDeny text = false ∧
      matchesAny (terminalRules permissions).alwaysConfirm text = false
  allowed : (∀ p ∈ program.parts, ∀ text, p.text P = some text →
      matchesAny (terminalRules permissions).alwaysAllow text = true) ∨
    effectiveDefault permissions = .allow

variable (hardcoded : List Char → Bool)

/-- An input that is allowed is a program that deserves it, whatever the rules are, as long as
they do not allow everything. -/
def ApprovalSound (shellKind : ShellKind) (input : List Char) : Prop :=
  ∀ permissions : ToolPermissions, allowsAll terminalName permissions = false →
    fromInput P hardcoded terminalName [input] permissions shellKind = .allow →
    ∃ program, P.parseProgram input = some program ∧ Approved P permissions program

/-- Nothing of the program escapes the rules. Where the extractor gives up they see the input as
a whole; else no simple command has the empty text, and what a duplication opens is named by some
other redirect or command too. -/
def Covered (input : List Char) (program : Program) : Prop :=
  (∀ fd kind target, Part.duplication fd kind target ∈ program.parts → P.plain target = true) ∧
    match extractCommands P input with
    | none => ∀ p ∈ program.parts, ∀ text, p.text P = some text → text = input
    | some _ =>
      (∀ front wordOrName suffix, Part.command front wordOrName suffix ∈ program.parts →
        joinWords (commandWords P front wordOrName suffix) ≠ []) ∧
      ∀ fd kind target, Part.duplication fd kind target ∈ program.parts →
        ∀ text, duplicationText P fd kind target = some text →
          ∃ p ∈ program.parts, p.checked P = some text

/-- The rules are never asked, because the input is denied before, or nothing escapes them. -/
def ApprovalCondition (shellKind : ShellKind) (input : List Char) : Prop :=
  checkHardcodedSecurityRules P hardcoded terminalName [input] shellKind ≠ none ∨
    validateTerminalCommand P input ≠ .Safe ∨
    ∀ program, P.parseProgram input = some program → Covered P input program

end

theorem checkLoop_eq (rules : ToolRules) : ∀ (commands : List (List Char)) (a b c : Bool),
    checkLoop rules commands (a, b, c) =
      if commands.any (matchesAny rules.alwaysDeny) then none
      else some (a || commands.any (matchesAny rules.alwaysConfirm),
        b && commands.all (matchesAny rules.alwaysAllow), c || !commands.isEmpty)
  | [], a, b, c => by simp [checkLoop]
  | command :: commands, a, b, c => by
      rw [checkLoop]
      by_cases h : matchesAny rules.alwaysDeny command
      · simp [h]
      · rw [if_neg h, checkLoop_eq rules commands]
        simp [h, Bool.or_assoc, Bool.and_assoc]

section

variable {commands : List (List Char)} {rules : ToolRules} {toolName : String} {allowEnabled : Bool}
  {globalDefault : ToolPermissionMode}

theorem checkCommands_allow (h : checkCommands commands rules toolName allowEnabled globalDefault = .allow) :
    (∀ c ∈ commands, matchesAny rules.alwaysDeny c = false ∧
      matchesAny rules.alwaysConfirm c = false) ∧
      ((allowEnabled = true ∧ ∀ c ∈ commands, matchesAny rules.alwaysAllow c = true) ∨
        rules.default.getD globalDefault = .allow) := by
  rw [checkCommands, checkLoop_eq] at h
  by_cases hd : commands.any (matchesAny rules.alwaysDeny)
  · simp [hd] at h
  · by_cases hc : commands.any (matchesAny rules.alwaysConfirm)
    · simp [hd, hc] at h
    · constructor
      · intro c hmem
        simp only [List.any_eq_true, not_exists, not_and, Bool.not_eq_true] at hd hc
        exact ⟨hd c hmem, hc c hmem⟩
      · by_cases ha : allowEnabled && commands.all (matchesAny rules.alwaysAllow) &&
            !commands.isEmpty
        · simp only [Bool.and_eq_true, List.all_eq_true] at ha
          exact .inl ha.1
        · simp only [hd, hc, Bool.false_or, Bool.true_and] at h
          cases hm : rules.default.getD globalDefault <;> simp_all

theorem checkCommands_default (hd : ∀ c ∈ commands, matchesAny rules.alwaysDeny c = false)
    (hc : rules.alwaysConfirm = []) (ha : rules.default.getD globalDefault = .allow) :
    checkCommands commands rules toolName allowEnabled globalDefault = .allow := by
  have hd' : commands.any (matchesAny rules.alwaysDeny) = false := by
    simpa [List.any_eq_false] using hd
  have hc' : commands.any (matchesAny rules.alwaysConfirm) = false := by
    simp [hc, matchesAny]
  rw [checkCommands, checkLoop_eq]
  simp [hd', hc', ha]

end

section

variable {P : Parser} {hardcoded : List Char → Bool} {shellKind : ShellKind} {input : List Char}

def askedTexts (P : Parser) (input : List Char) : List (List Char) :=
  (extractCommands P input).getD [input]

theorem checkRules_terminal (rules : ToolRules) (globalDefault : ToolPermissionMode) :
    checkRules P terminalName [input] rules globalDefault shellKind =
      checkCommands (askedTexts P input) rules terminalName (extractCommands P input).isSome
        globalDefault := by
  have hk : shellKind.supportsPosixChaining = true := by cases shellKind <;> rfl
  rw [checkRules, if_pos rfl, if_pos hk]
  cases h : extractCommands P input <;> simp [expandInputs, askedTexts, h]

theorem fromInput_allow {permissions : ToolPermissions}
    (hp : allowsAll terminalName permissions = false)
    (h : fromInput P hardcoded terminalName [input] permissions shellKind = .allow) :
    checkHardcodedSecurityRules P hardcoded terminalName [input] shellKind = none ∧
      validateTerminalCommand P input = .Safe ∧
      ∃ rules, permissions.tools terminalName = some rules ∧
        checkCommands (askedTexts P input) rules terminalName (extractCommands P input).isSome
          permissions.default = .allow := by
  unfold fromInput at h
  cases hh : checkHardcodedSecurityRules P hardcoded terminalName [input] shellKind with
  | some denial =>
    -- the built-in rules only ever deny
    rw [hh] at h
    unfold checkHardcodedSecurityRules at hh
    split at hh
    · cases hh
    · split at hh
      · simp only [Option.some.injEq] at hh
        subst hh
        cases h
      · cases hh
  | none =>
    rw [hh] at h
    refine ⟨rfl, ?_⟩
    cases hv : validateTerminalCommand P input with
    | Safe =>
      refine ⟨rfl, ?_⟩
      cases ht : permissions.tools terminalName with
      | none =>
        -- without rules the default is not to allow
        have hd : permissions.default ≠ .allow := by
          simpa [allowsAll, ht] using hp
        cases hm : permissions.default <;> simp_all
      | some rules =>
        refine ⟨rules, rfl, ?_⟩
        cases hi : checkInvalidPatterns terminalName rules with
        | some error => simp [ht, hi] at h
        | none =>
          rw [← checkRules_terminal]
          simpa [ht, hi, hv] using h
    | Unsafe =>
      cases hi : (permissions.tools terminalName).bind (checkInvalidPatterns terminalName) <;>
        simp [hi, hp, hv] at h
    | Unsupported =>
      cases hi : (permissions.tools terminalName).bind (checkInvalidPatterns terminalName) <;>
        simp [hi, hp, hv] at h

/-- Rules that deny what one pattern matches and allow everything else. -/
def denying (pattern : List Char → Bool) : ToolPermissions where
  default := .confirm
  tools := fun _ => some { default := some .allow, alwaysDeny := [pattern] }

theorem fromInput_denying (pattern : List Char → Bool)
    (hh : checkHardcodedSecurityRules P hardcoded terminalName [input] shellKind = none)
    (hv : validateTerminalCommand P input = .Safe)
    (hd : ∀ c ∈ askedTexts P input, pattern c = false) :
    fromInput P hardcoded terminalName [input] (denying pattern) shellKind = .allow := by
  unfold fromInput
  rw [hh]
  simp only [denying, bind_some, checkInvalidPatterns, List.isEmpty_nil, if_true]
  rw [if_neg (by simp [hv]), checkRules_terminal]
  exact checkCommands_default (by simpa [matchesAny] using hd) rfl rfl

theorem validateTerminalCommand_safe (h : validateTerminalCommand P input = .Safe) :
    ∃ program, P.parseProgram input = some program ∧ ∀ p ∈ program.parts, p.Safe P := by
  unfold validateTerminalCommand at h
  cases hp : P.parseProgram input with
  | none => simp [hp] at h
  | some program =>
    rw [hp] at h
    exact ⟨program, rfl, (programValidation_safe P program).mp h⟩

theorem text_of_checked {p : Part} {text : List Char} (h : p.checked P = some text) :
    p.text P = some text ∧ text ≠ [] := by
  cases p with
  | command front wordOrName suffix =>
    simp only [Part.checked] at h
    split at h
    · cases h
    · next hne =>
      simp only [Option.some.injEq] at h
      subst h
      exact ⟨rfl, hne⟩
  | redirect operator target =>
    refine ⟨h, ?_⟩
    simp only [Part.checked, normalizeTarget, join_eq_some_iff, map_eq_some_iff] at h
    obtain ⟨name, -, h⟩ := h
    split at h
    · cases h
    · simp only [Option.some.injEq] at h
      subst h
      simp
  | word w => cases h
  | duplication fd kind target => cases h
  | processSubstitution => cases h
  | arithmetic => cases h

theorem covered_iff {program : Program} (hp : P.parseProgram input = some program)
    (hs : ∀ p ∈ program.parts, p.Safe P) :
    Covered P input program ↔ (∀ p ∈ program.parts, p.Plain P) ∧
      ∀ p ∈ program.parts, ∀ text, p.text P = some text → text ∈ askedTexts P input := by
  have hplain : (∀ p ∈ program.parts, p.Plain P) ↔
      ∀ fd kind target, Part.duplication fd kind target ∈ program.parts →
        P.plain target = true := by
    refine ⟨fun h fd kind target hm => h _ hm, fun h p hm => ?_⟩
    cases p with
    | duplication fd kind target => exact h fd kind target hm
    | word w => exact hs _ hm
    | command front wordOrName suffix => trivial
    | redirect operator target => trivial
    | processSubstitution => exact hs _ hm
    | arithmetic => exact hs _ hm
  rw [Covered, hplain]
  refine and_congr_right fun _ => ?_
  cases he : extractCommands P input with
  | none => simp [askedTexts, he]
  | some cs =>
    have hcs : askedTexts P input = checkedTexts P program.parts := by
      rw [askedTexts, he, getD_some, extractCommands_checked hp hs he]
    have hmem (text : List Char) : text ∈ askedTexts P input ↔
        ∃ p ∈ program.parts, p.checked P = some text := by
      rw [hcs, checkedTexts, List.mem_filterMap]
    constructor
    · rintro ⟨hne, hdup⟩ p hm text ht
      rw [hmem]
      cases p with
      | command front wordOrName suffix =>
        refine ⟨_, hm, ?_⟩
        rw [Part.checked, if_neg (hne front wordOrName suffix hm)]
        exact ht
      | redirect operator target => exact ⟨_, hm, ht⟩
      | duplication fd kind target => exact hdup fd kind target hm text ht
      | word w => cases ht
      | processSubstitution => cases ht
      | arithmetic => cases ht
    · intro h
      refine ⟨fun front wordOrName suffix hm hnil => ?_, fun fd kind target hm text ht => ?_⟩
      · obtain ⟨p, -, hc⟩ := (hmem []).mp (h _ hm [] (congrArg some hnil))
        exact (text_of_checked hc).2 rfl
      · exact (hmem text).mp (h _ hm text ht)

/-- An approval means what it should if and only if the input is denied whatever the rules are,
or nothing in it escapes them. -/
theorem approval_sound_iff (P : Parser) (hardcoded : List Char → Bool) (shellKind : ShellKind)
    (input : List Char) :
    ApprovalSound P hardcoded shellKind input ↔
      ApprovalCondition P hardcoded shellKind input := by
  constructor
  · intro h
    by_contra hcon
    simp only [ApprovalCondition, not_or, Classical.not_not] at hcon
    obtain ⟨hh, hv, hcov⟩ := hcon
    obtain ⟨program, hp, hs⟩ := validateTerminalCommand_safe hv
    refine hcov fun program' hp' => ?_
    obtain rfl : program = program' := some.inj (hp.symm.trans hp')
    -- the rules can single out a text that they are not asked about
    have hprobe (pattern : List Char → Bool) (hd : ∀ c ∈ askedTexts P input, pattern c = false) :
        Approved P (denying pattern) program := by
      obtain ⟨program', hp', happ⟩ := h (denying pattern) rfl (fromInput_denying pattern hh hv hd)
      rwa [some.inj (hp.symm.trans hp')]
    rw [covered_iff hp hs]
    refine ⟨(hprobe (fun _ => false) fun _ _ => rfl).plain, fun p hm text ht => ?_⟩
    by_contra hna
    have happ := hprobe (· == text) fun c hc => by
      simp only [beq_eq_false_iff_ne]
      exact fun heq => hna (heq ▸ hc)
    have := (happ.passes p hm text ht).1
    simp [terminalRules, denying, matchesAny] at this
  · intro h permissions hall hallow
    obtain ⟨hh, hv, rules, hrules, hcheck⟩ := fromInput_allow hall hallow
    obtain ⟨program, hp, hs⟩ := validateTerminalCommand_safe hv
    have hcov := (h.resolve_left (not_not.mpr hh)).resolve_left (not_not.mpr hv) program hp
    obtain ⟨hplain, hasked⟩ := (covered_iff hp hs).mp hcov
    obtain ⟨hpass, hallowed⟩ := checkCommands_allow hcheck
    have hr : terminalRules permissions = rules := by simp [terminalRules, hrules]
    refine ⟨program, hp, hplain, fun p hm text ht => ?_, ?_⟩
    · rw [hr]
      exact hpass text (hasked p hm text ht)
    · rw [hr, effectiveDefault, hr]
      exact hallowed.imp_left fun ha p hm text ht => ha.2 text (hasked p hm text ht)

end

/-! `>&` with a command substitution. -/

/-- The one word `name`, as a simple command with these items behind it. -/
def commandProgram (name : List Char) (suffix : List Item) : Program :=
  ⟨[.mk [.mk (.mk [.simple (.mk [] (some ⟨name⟩) suffix)]) []]]⟩

/-- The parser on `echo >&$(id)` and on what it consists of. -/
def echoParser : Parser where
  parseProgram := fun text =>
    if text = "echo >&$(id)".toList then
      some (commandProgram "echo".toList
        [.ioRedirect (.file none .duplicateOutput (.duplicate ⟨"$(id)".toList⟩))])
    else if text = "id".toList then some (commandProgram "id".toList [])
    else none
  parseWord := fun text =>
    if text = "$(id)".toList then some [(.commandSubstitution "id".toList, 0, 5)]
    else some [(.text text, 0, byteLen text)]

/-- The user allows `echo`, and nothing else without being asked. -/
def echoPermissions : ToolPermissions where
  default := .confirm
  tools := fun _ => some { alwaysAllow := ["echo".toList.isPrefixOf] }

/-- `id` runs without being asked about. -/
theorem approval_unsound :
    fromInput echoParser (fun _ => false) terminalName ["echo >&$(id)".toList] echoPermissions
      .posix = .allow ∧
    ¬ ApprovalSound echoParser (fun _ => false) .posix "echo >&$(id)".toList := by
  have hallow : fromInput echoParser (fun _ => false) terminalName ["echo >&$(id)".toList]
      echoPermissions .posix = .allow := by decide +kernel
  refine ⟨hallow, fun h => ?_⟩
  obtain ⟨program, hp, happ⟩ := h echoPermissions rfl hallow
  obtain rfl : _ = program := some.inj hp
  have := happ.plain (.duplication none .duplicateOutput ⟨"$(id)".toList⟩) (by
    simp [Program.parts, commandProgram, CompoundList.parts, andOrListParts, AndOrList.parts,
      Pipeline.parts, commandParts, Command.parts, SimpleCommand.parts, itemParts, Item.parts,
      IoRedirect.parts, IoFileRedirectTarget.parts])
  exact absurd this (show ¬ echoParser.plain ⟨"$(id)".toList⟩ = true by decide +kernel)

end SpkEditor.Shell
