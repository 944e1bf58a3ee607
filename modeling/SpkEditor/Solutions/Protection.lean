import SpkEditor.Solutions.Config

/-!
# Branch protection of the MCP tools

`editor_mcp/src/tier_guard.rs` checks a call before it gets to the tool: first the tier, then, for
the tools of `git_ui/src/handlers_mcp.rs` that are registered with an extractor, the policy of
`solutions/src/branch_protection.rs` on the branch of the payload. The tool itself resolves the
repository once more; nothing happens in between.

The crate `globset` is a parameter.
-/

namespace SpkEditor.Protection

open Solutions

/-- Of `globset`: the patterns that compile, and what a set of them matches, if it can be built. -/
structure Globset where
  Glob : Type
  new : List Char → Option Glob
  build : List Glob → Option (List Char → Bool)

structure BranchProtectionMember where
  /-- `protected`. -/
  patterns : List (List Char) := []
  noForcePush : Bool := false
  noForceReset : Bool := false
  noDropCommit : Bool := false

structure BranchProtectionSettings where
  defaultProtected : List (List Char)
  members : List Char → Option BranchProtectionMember

structure ActiveSnapshot where
  settings : BranchProtectionSettings
  solution : Option Solution

inductive Decision where
  | allowed
  | requiresConfirmation (reason : List Char)
  | forbidden (reason : List Char)

/-- The text of `format!` with the branch in quotes. -/
def quoted (front : String) (branch : List Char) (back : String) : List Char :=
  front.toList ++ '\'' :: branch ++ '\'' :: back.toList

def decide (isProtected : Bool) (member : BranchProtectionMember) (op : String)
    (branch : List Char) : Decision :=
  match op with
  | "push" | "fetch" | "pull" => .allowed
  | "force_push" | "push_force" =>
    if !isProtected then
      .requiresConfirmation (quoted "force-push to " branch " rewrites remote history")
    else if member.noForcePush then
      .forbidden (quoted "force-push to protected branch " branch " is forbidden")
    else
      .requiresConfirmation
        (quoted "" branch " is protected — confirm force-push by typing the branch name")
  | "reset" | "reset_hard" =>
    if !isProtected then .allowed
    else if member.noForceReset || member.noForcePush then
      .forbidden (quoted "hard reset of protected branch " branch " is forbidden")
    else
      .requiresConfirmation (quoted "" branch " is protected — confirm reset by typing the branch name")
  | "drop" | "drop_commit" =>
    if !isProtected then .allowed
    else if member.noDropCommit then
      .forbidden (quoted "dropping a commit on protected branch " branch " is forbidden")
    else
      .requiresConfirmation (quoted "" branch " is protected — confirm drop by typing the branch name")
  | "delete_branch" | "delete_branch_force" =>
    if isProtected then .forbidden (quoted "deleting protected branch " branch " is forbidden")
    else .allowed
  | "commit" | "merge" | "cherry_pick" | "revert" | "rebase" | "rebase_interactive"
  | "linear_rebase" | "squash" | "fixup" | "move_commit" | "edit_commit_message" | "reword"
  | "rename_branch" =>
    if isProtected then
      .requiresConfirmation (quoted "" branch " is protected — confirm by typing the branch name")
    else .allowed
  | op =>
    if isProtected then
      .requiresConfirmation
        (quoted "" branch " is protected — confirm '" ++ op.toList ++ "' by typing the branch name".toList)
    else .allowed

section

variable (globset : Globset)

def isProtected (patterns : List (List Char)) (branch : List Char) : Bool :=
  let globs := patterns.filterMap globset.new
  if globs.isEmpty then false
  else
    match globset.build globs with
    | some isMatch => isMatch branch
    | none => false

def pathLen (p : Path) : Nat := (p.map fun component => component.length + 1).sum

/-- The member with the longest path that the repository is in, the last one of these. -/
def resolveMember (solution : Option Solution) (repoPath : Path) : Option SolutionMember := do
  let solution ← solution
  (solution.members.filter fun m => m.localPath.isPrefixOf repoPath).foldl
    (fun best m => match best with
      | some b => if pathLen b.localPath ≤ pathLen m.localPath then some m else some b
      | none => some m) none

def checkWithSnapshot (snapshot : ActiveSnapshot) (repoPath : Path) (branch : List Char)
    (op : String) : Decision :=
  let memberRules :=
    ((resolveMember snapshot.solution repoPath).bind fun m =>
      snapshot.settings.members m.catalogId).getD {}
  decide (isProtected globset snapshot.settings.defaultProtected branch ||
    isProtected globset memberRules.patterns branch) memberRules op branch

end

inductive ToolTier where
  | readOnly
  | write
  | destructive

def ToolTier.rank : ToolTier → Nat
  | .readOnly => 0
  | .write => 1
  | .destructive => 2

def ToolTier.debug : ToolTier → String
  | .readOnly => "ReadOnly"
  | .write => "Write"
  | .destructive => "Destructive"

def ToolTier.permits (tier caller : ToolTier) : Bool := tier.rank ≤ caller.rank

/-- The payloads of the tools that are registered with an extractor. -/
inductive Input where
  | deleteBranch (name : List Char) (force : Bool) (repoId : Option Nat)
  | renameBranch (old : List Char) (repoId : Option Nat)
  | merge (targetBranch : List Char) (repoId : Option Nat)
  | rebase (targetBranch : List Char) (confirmed : Bool) (repoId : Option Nat)

def Input.name : Input → String
  | .deleteBranch .. => "editor.git.delete_branch"
  | .renameBranch .. => "editor.git.rename_branch"
  | .merge .. => "editor.git.merge"
  | .rebase .. => "editor.git.rebase"

def Input.tier : Input → ToolTier
  | .deleteBranch .. | .rebase .. => .destructive
  | .renameBranch .. | .merge .. => .write

structure BranchProtectionHint where
  repoPath : Option Path
  repoId : Option Nat
  branch : List Char
  opName : String
  confirmed : Bool

/-- What the extractors have in common. -/
def hintFor (branch : List Char) (repoId : Option Nat) (opName : String) (confirmed : Bool) :
    Option BranchProtectionHint :=
  if Cut.trim branch = [] then none else some ⟨none, repoId, branch, opName, confirmed⟩

def Input.extractor : Input → Option BranchProtectionHint
  | .deleteBranch name force repoId =>
    hintFor name repoId (if force then "delete_branch_force" else "delete_branch") false
  | .renameBranch old repoId => hintFor old repoId "rename_branch" false
  | .merge targetBranch repoId => hintFor targetBranch repoId "merge" false
  | .rebase targetBranch confirmed repoId => hintFor targetBranch repoId "rebase" confirmed

structure Workspace where
  /-- The work directories of its repositories, by their ids. -/
  repositories : Nat → Option Path
  activeRepository : Option Path

structure Window where
  workspaces : List Workspace
  isActive : Bool

/-- The windows, in the order in which they are gone through. -/
abbrev App := List Window

def resolveRepoPathById (repoId : Nat) (app : App) : Option Path :=
  app.findSome? fun window => window.workspaces.findSome? (·.repositories repoId)

/-- The repository that the tool operates on. Without one it returns an error. -/
def resolveWorkDirectory (repoId : Option Nat) (app : App) : Option Path :=
  match repoId with
  | some id => resolveRepoPathById id app
  | none =>
    app.findSome? fun window =>
      if window.isActive then window.workspaces.findSome? (·.activeRepository) else none

def resolveTarget (hint : BranchProtectionHint) (app : App) : Option Path :=
  match hint.repoPath, hint.repoId with
  | some path, _ => some path
  | none, some id => resolveRepoPathById id app
  | none, none => none

def applyBranchProtectionDecision (toolName : String) (confirmed : Bool) :
    Decision → Except (List Char) Unit
  | .allowed => .ok ()
  | .forbidden reason => .error ("tool ".toList ++ toolName.toList ++
      " refused by branch protection: ".toList ++ reason ++ " [code=-32402]".toList)
  | .requiresConfirmation reason =>
    if confirmed then .ok ()
    else .error ("tool ".toList ++ toolName.toList ++ " requires confirmation: ".toList ++ reason ++
      "; re-call with `confirmed: true` [code=-32402]".toList)

/-- `TierGuardTool::run` up to the call of the inner tool, which is made if there is no error. -/
def run (globset : Globset) (snapshot : ActiveSnapshot) (app : App) (allowedTier : ToolTier)
    (input : Input) : Except (List Char) Unit :=
  if !input.tier.permits allowedTier then
    .error ("tool ".toList ++ input.name.toList ++ " requires ".toList ++ input.tier.debug.toList ++
      " capability (caller has ".toList ++ allowedTier.debug.toList ++ ") [code=-32401]".toList)
  else
    match input.extractor with
    | none => .ok ()
    | some hint =>
      match resolveTarget hint app with
      | none => .ok ()
      | some repoPath =>
        applyBranchProtectionDecision input.name hint.confirmed
          (checkWithSnapshot globset snapshot repoPath hint.branch hint.opName)

/-! ## What is to hold -/

/-- The decision lets a call pass. -/
def Decision.Passes (confirmed : Bool) : Decision → Prop
  | .allowed => True
  | .requiresConfirmation _ => confirmed = true
  | .forbidden _ => False

/-- The inner tool is called only if the policy lets the call pass on the repository that the tool
operates on. -/
def Enforced (globset : Globset) (snapshot : ActiveSnapshot) (app : App) (allowedTier : ToolTier)
    (input : Input) (hint : BranchProtectionHint) : Prop :=
  run globset snapshot app allowedTier input = .ok () →
    ∀ repoPath, resolveWorkDirectory hint.repoId app = some repoPath →
      (checkWithSnapshot globset snapshot repoPath hint.branch hint.opName).Passes hint.confirmed

/-- There is a pattern for the branch. Its name is one, but for the characters to be escaped. -/
def Globset.CanProtect (globset : Globset) (branch : List Char) : Prop :=
  ∃ pattern glob isMatch, globset.new pattern = some glob ∧
    globset.build [glob] = some isMatch ∧ isMatch branch = true

variable {globset : Globset} {app : App} {allowedTier : ToolTier} {input : Input}
  {hint : BranchProtectionHint}

theorem hintFor_eq {branch : List Char} {repoId : Option Nat} {opName : String} {confirmed : Bool}
    (h : hintFor branch repoId opName confirmed = some hint) :
    hint = ⟨none, repoId, branch, opName, confirmed⟩ := by
  unfold hintFor at h
  split at h
  · cases h
  · exact (Option.some.inj h).symm

/-- No extractor gives a path. An unprotected branch passes; of a protected one, a confirmed call
passes, and no other. -/
theorem extractor_spec (h : input.extractor = some hint) : hint.repoPath = none ∧
    (hint.confirmed = true → ∀ p m, (decide p m hint.opName hint.branch).Passes hint.confirmed) ∧
    (hint.confirmed = false → ∀ m, ¬ (decide true m hint.opName hint.branch).Passes false) := by
  cases input with
  | deleteBranch name force repoId =>
    rw [hintFor_eq h]
    cases force <;> exact ⟨rfl, nofun, fun _ _ => id⟩
  | renameBranch old repoId =>
    rw [hintFor_eq h]
    exact ⟨rfl, nofun, fun _ _ => nofun⟩
  | merge targetBranch repoId =>
    rw [hintFor_eq h]
    exact ⟨rfl, nofun, fun _ _ => nofun⟩
  | rebase targetBranch confirmed repoId =>
    rw [hintFor_eq h]
    refine ⟨rfl, fun hc p m => ?_, fun _ _ => nofun⟩
    cases p with
    | true => exact hc
    | false => trivial

theorem passes_of_apply {toolName : String} {confirmed : Bool} {decision : Decision}
    (h : applyBranchProtectionDecision toolName confirmed decision = .ok ()) :
    decision.Passes confirmed := by
  cases decision with
  | allowed => trivial
  | requiresConfirmation reason =>
    cases confirmed with
    | true => rfl
    | false => cases h
  | forbidden reason => cases h

theorem passes_of_run {snapshot : ActiveSnapshot} (hhint : input.extractor = some hint)
    {id : Nat} (hid : hint.repoId = some id) :
    Enforced globset snapshot app allowedTier input hint := by
  intro hrun repoPath hrepo
  unfold run resolveTarget at hrun
  split at hrun
  · cases hrun
  · rw [hid] at hrepo
    rw [hhint] at hrun
    dsimp only at hrun
    rw [(extractor_spec hhint).1, hid] at hrun
    dsimp only at hrun
    rw [show resolveRepoPathById id app = some repoPath from hrepo] at hrun
    exact passes_of_apply hrun

/-- **The policy is enforced** under every snapshot exactly if the payload names the repository, or
the call is refused or gets to none, or it is confirmed. -/
theorem protection_enforced_iff (hhint : input.extractor = some hint)
    (hglob : globset.CanProtect hint.branch) :
    (∀ snapshot, Enforced globset snapshot app allowedTier input hint) ↔
      hint.repoId ≠ none ∨ input.tier.permits allowedTier = false ∨
        resolveWorkDirectory none app = none ∨ hint.confirmed = true := by
  obtain ⟨hpath, hconfirmed, hrefused⟩ := extractor_spec hhint
  constructor
  · intro h
    by_contra hnot
    simp only [not_or, not_not, Bool.not_eq_false, Bool.not_eq_true] at hnot
    obtain ⟨hid, hpermits, hactive, hc⟩ := hnot
    obtain ⟨repoPath, hrepo⟩ := Option.ne_none_iff_exists'.mp hactive
    obtain ⟨pattern, glob, isMatch, hnew, hbuild, hmatch⟩ := hglob
    -- the policy protects the branch, but there is no target to check
    have hrun : run globset ⟨⟨[pattern], fun _ => none⟩, none⟩ app allowedTier input = .ok () := by
      unfold run resolveTarget
      rw [hpermits, hhint]
      dsimp only
      rw [hpath, hid]
      rfl
    have hpass := h _ hrun repoPath (by rw [hid, hrepo])
    have hprotected : isProtected globset [pattern] hint.branch = true := by
      simp [isProtected, hnew, hbuild, hmatch]
    unfold checkWithSnapshot at hpass
    dsimp only at hpass
    rw [hprotected, Bool.true_or, hc] at hpass
    exact hrefused hc _ hpass
  · intro h snapshot
    cases hid : hint.repoId with
    | some id => exact passes_of_run hhint hid
    | none =>
      intro hrun repoPath hrepo
      rcases h with h | hpermits | hactive | hc
      · exact absurd hid h
      · unfold run at hrun
        rw [hpermits] at hrun
        cases hrun
      · rw [hid, hactive] at hrepo
        cases hrepo
      · exact hconfirmed hc _ _

/-- The patterns that have no special character. -/
def literals : Globset where
  Glob := List Char
  new pattern := if pattern.all Char.isAlphanum then some pattern else none
  build globs := some globs.contains

def oneRepository : App := [⟨[⟨fun id => if id = 1 then some [[1]] else none, some [[1]]⟩], true⟩]

theorem main_protected : literals.CanProtect "main".toList :=
  ⟨"main".toList, "main".toList, _, rfl, rfl, rfl⟩

/-- With its id, the repository is checked. -/
theorem protection_enforced_by_id :
    Enforced literals ⟨⟨["main".toList], fun _ => none⟩, none⟩ oneRepository .destructive
      (.deleteBranch "main".toList true (some 1))
      ⟨none, some 1, "main".toList, "delete_branch_force", false⟩ :=
  (protection_enforced_iff rfl main_protected).mpr (.inl (Option.some_ne_none 1)) _

/-- Without it, a branch is deleted that the policy protects. -/
theorem protection_bypassed :
    ¬ Enforced literals ⟨⟨["main".toList], fun _ => none⟩, none⟩ oneRepository .destructive
      (.deleteBranch "main".toList true none)
      ⟨none, none, "main".toList, "delete_branch_force", false⟩ :=
  fun h => h rfl [[1]] rfl

end SpkEditor.Protection
