import SpkEditor.Shell.ExtractProof

/-!
# Tool permissions

`ToolPermissionDecision::from_input`: whether a tool call is allowed, denied, or put to the user.
A pattern of the settings is what it matches.
-/

namespace SpkEditor.Shell

inductive ShellKind where
  | posix
  | csh
  | tcsh
  | rc
  | fish
  | powerShell
  | pwsh
  | nushell
  | cmd
  | xonsh
  | elvish

/-- `ShellKind` as a text. -/
def ShellKind.display : ShellKind → String
  | .posix => "sh"
  | .csh => "csh"
  | .tcsh => "tcsh"
  | .rc => "rc"
  | .fish => "fish"
  | .powerShell => "powershell"
  | .pwsh => "pwsh"
  | .nushell => "nu"
  | .cmd => "cmd"
  | .xonsh => "xonsh"
  | .elvish => "elvish"

/-- `supports_posix_chaining`: every kind that there is. -/
def ShellKind.supportsPosixChaining : ShellKind → Bool
  | .posix | .fish | .powerShell | .pwsh | .cmd | .xonsh | .csh | .tcsh | .nushell | .elvish
  | .rc => true

inductive ToolPermissionMode where
  | allow
  | deny
  | confirm
  deriving DecidableEq

/-- The rules of a tool. The patterns that failed to compile are kept as they were written. -/
structure ToolRules where
  default : Option ToolPermissionMode := none
  alwaysAllow : List (List Char → Bool) := []
  alwaysDeny : List (List Char → Bool) := []
  alwaysConfirm : List (List Char → Bool) := []
  invalidPatterns : List (List Char) := []

structure ToolPermissions where
  default : ToolPermissionMode
  tools : String → Option ToolRules

inductive ToolPermissionDecision where
  | allow
  | deny (message : String)
  | confirm
  deriving DecidableEq

/-- `TerminalTool::NAME`. -/
def terminalName : String := "terminal"

def hardcodedSecurityDenialMessage : String :=
  "Blocked by built-in security rule. This operation is considered too " ++
    "harmful to be allowed, and cannot be overridden by settings."

def invalidTerminalCommandMessage : String :=
  "The terminal command could not be approved because terminal does not " ++
    "allow shell substitutions or interpolations in permission-protected commands. " ++
    "Forbidden examples include $VAR, " ++
    "$\x7bVAR\x7d, $(...), backticks, $((...)), <(...), and >(...). " ++
    "Resolve those values before calling terminal, or ask " ++
    "the user for the literal value to use."

def matchesAny (patterns : List (List Char → Bool)) (command : List Char) : Bool :=
  patterns.any fun pattern => pattern command

/-- `is_unconditional_allow_all`. -/
def isUnconditionalAllowAll (rules : ToolRules) (globalDefault : ToolPermissionMode) : Bool :=
  rules.alwaysDeny.isEmpty && rules.alwaysConfirm.isEmpty &&
    rules.default.getD globalDefault == .allow

/-- `check_invalid_patterns`. -/
def checkInvalidPatterns (toolName : String) (rules : ToolRules) : Option String :=
  if rules.invalidPatterns.isEmpty then none
  else
    let count := rules.invalidPatterns.length
    let patternWord := if count = 1 then "pattern" else "patterns"
    some ("The " ++ toolName ++ " tool cannot run because " ++ toString count ++ " regex " ++
      patternWord ++ " failed to compile. " ++
      "Please fix the invalid patterns in your tool_permissions settings.")

/-- The loop of `check_commands`: whether a command asked for a confirmation, whether all were
allowed, whether there was any. `none` is the return at a denied command. -/
def checkLoop (rules : ToolRules) : List (List Char) → Bool × Bool × Bool →
    Option (Bool × Bool × Bool)
  | [], flags => some flags
  | command :: commands, (anyMatchedConfirm, allMatchedAllow, _) =>
    if matchesAny rules.alwaysDeny command then none
    else checkLoop rules commands
      (anyMatchedConfirm || matchesAny rules.alwaysConfirm command,
        allMatchedAllow && matchesAny rules.alwaysAllow command, true)

/-- `check_commands`. -/
def checkCommands (commands : List (List Char)) (rules : ToolRules) (toolName : String)
    (allowEnabled : Bool) (globalDefault : ToolPermissionMode) : ToolPermissionDecision :=
  match checkLoop rules commands (false, true, false) with
  | none => .deny ("Command blocked by security rule for " ++ toolName ++ " tool")
  | some (anyMatchedConfirm, allMatchedAllow, hadAnyCommands) =>
    if anyMatchedConfirm then .confirm
    else if allowEnabled && allMatchedAllow && hadAnyCommands then .allow
    else
      match rules.default.getD globalDefault with
      | .deny => .deny (toolName ++ " tool is disabled")
      | .allow => .allow
      | .confirm => .confirm

section

variable (P : Parser)

-- `matches_hardcoded_patterns`
variable (hardcoded : List Char → Bool)

/-- `check_hardcoded_security_rules`. -/
def checkHardcodedSecurityRules (toolName : String) (inputs : List (List Char))
    (shellKind : ShellKind) : Option ToolPermissionDecision :=
  if toolName ≠ terminalName then none
  else if inputs.any fun input => hardcoded input ||
      (shellKind.supportsPosixChaining &&
        (extractCommands P input).any fun commands => commands.any hardcoded) then
    some (.deny hardcodedSecurityDenialMessage)
  else none

/-- The commands of all inputs, and whether one of them could not be taken apart. -/
def expandInputs : List (List Char) → List (List Char) × Bool
  | [] => ([], false)
  | input :: inputs =>
    match extractCommands P input with
    | some commands => (commands ++ (expandInputs inputs).1, (expandInputs inputs).2)
    | none => (input :: (expandInputs inputs).1, true)

def checkRules (toolName : String) (inputs : List (List Char)) (rules : ToolRules)
    (globalDefault : ToolPermissionMode) (shellKind : ShellKind) : ToolPermissionDecision :=
  if toolName = terminalName then
    if shellKind.supportsPosixChaining then
      let (allCommands, anyParseFailed) := expandInputs P inputs
      checkCommands allCommands rules toolName (!anyParseFailed) globalDefault
    else if !rules.alwaysAllow.isEmpty then
      .deny ("The " ++ shellKind.display ++ " shell does not support \"always allow\" patterns " ++
        "for the terminal tool because Zed cannot parse its command chaining syntax. Please " ++
        "remove the always_allow patterns from your tool_permissions settings, or switch " ++
        "to a POSIX-conforming shell.")
    else checkCommands inputs rules toolName false globalDefault
  else checkCommands inputs rules toolName true globalDefault

/-- Everything is allowed: the terminal commands are not looked at. -/
def allowsAll (toolName : String) (permissions : ToolPermissions) : Bool :=
  match permissions.tools toolName with
  | none => permissions.default == .allow
  | some rules => isUnconditionalAllowAll rules permissions.default

/-- `ToolPermissionDecision::from_input`. -/
def fromInput (toolName : String) (inputs : List (List Char)) (permissions : ToolPermissions)
    (shellKind : ShellKind) : ToolPermissionDecision :=
  match checkHardcodedSecurityRules P hardcoded toolName inputs shellKind with
  | some denial => denial
  | none =>
    match (permissions.tools toolName).bind (checkInvalidPatterns toolName) with
    | some error => .deny error
    | none =>
      if toolName = terminalName && !allowsAll toolName permissions &&
          inputs.any (fun input => validateTerminalCommand P input != .Safe) then
        .deny invalidTerminalCommandMessage
      else
        match permissions.tools toolName with
        | none =>
          match permissions.default with
          | .allow => .allow
          | .deny => .deny "Blocked by global default: deny"
          | .confirm => .confirm
        | some rules => checkRules P toolName inputs rules permissions.default shellKind

end

end SpkEditor.Shell
