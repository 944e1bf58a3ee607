import SpkEditor.Git.Backup
import Mathlib.Algebra.Order.Ring.Nat

/-!
# Committing a whole solution

`solution_git/src/commit.rs`: one commit in every repository of a solution that has staged
changes. The orchestrator narrows the plan to those members, keeps a backup ref for each,
runs their pre-commit hooks, commits one after the other, and takes back what it committed
when one commit fails.

Every git command can fail, so a run is determined by what each command answers: that is
`GitSteps`. A command that fails changes nothing in its repository.
-/

namespace SpkEditor.SolutionCommit

open List

variable {plan : List MemberPlan} {dir : String}

structure MemberPlan where
  memberId : String
  workDir : String

inductive CommitStatus where
  | committed
  | skipped
  | preCommitFailed
  | rolledBack
  | partiallyFailed

structure MemberCommitResult where
  memberId : String
  status : CommitStatus
  error : Option String
  backupRef : Option String

structure CommitAllOutcome where
  memberResults : List MemberCommitResult
  rollbackErrors : List String

/-- What each command answers, by the work dir it runs in. -/
structure GitSteps where
  hasStagedChanges : String → Except String Bool
  currentBranch : String → Except String String
  /-- `git::backup::create`, with the second it was made in. -/
  backupCreate : String → Except String Nat
  runPreCommitHookIfPresent : String → Except String Unit
  gitCommit : String → Except String Unit
  gitResetSoft : String → Except String Unit
  interpretTrailers : String → String → Except String String

/-- The repositories: the commits HEAD has behind it, newest first, what the backup refs
point at, and the commits made so far. -/
structure Repos where
  head : String → List String
  backup : String → String → Option (List String)
  /-- Where each commit was made, in order; a reset does not undo this. -/
  made : List String

def opName : String := "solution_commit"

/-- `BackupRef::ref_name` of the backup a member gets. -/
def backupRefName (branch : String) (now : Nat) : String :=
  String.ofList (Backup.BackupRef.refName ⟨branch.toList, opName.toList, now, []⟩)

/-- `git update-ref` on a backup ref. -/
def Repos.saveBackup (r : Repos) (dir name : String) : Repos :=
  { r with
    backup := Function.update r.backup dir
      (Function.update (r.backup dir) name (some (r.head dir))) }

/-- `git commit`. -/
def Repos.commit (r : Repos) (dir message : String) : Repos :=
  { r with
    head := Function.update r.head dir (message :: r.head dir)
    made := r.made ++ [dir] }

/-- `git reset --soft`. -/
def Repos.reset (r : Repos) (dir name : String) : Repos :=
  { r with head := Function.update r.head dir ((r.backup dir name).getD (r.head dir)) }

section

variable (r : Repos)

theorem Repos.saveBackup_of_ne {dir' : String} (name : String) (h : dir' ≠ dir) :
    (r.saveBackup dir name).backup dir' = r.backup dir' :=
  Function.update_of_ne h ..

@[simp] theorem Repos.saveBackup_self (dir name : String) :
    (r.saveBackup dir name).backup dir name = some (r.head dir) := by
  simp [Repos.saveBackup]

@[simp] theorem Repos.commit_self (dir message : String) :
    (r.commit dir message).head dir = message :: r.head dir :=
  Function.update_self ..

theorem Repos.commit_of_ne {dir' : String} (message : String) (h : dir' ≠ dir) :
    (r.commit dir message).head dir' = r.head dir' :=
  Function.update_of_ne h ..

theorem Repos.reset_self {name : String} {history : List String}
    (h : r.backup dir name = some history) : (r.reset dir name).head dir = history := by
  simp [Repos.reset, h]

theorem Repos.reset_of_ne {dir' : String} (name : String) (h : dir' ≠ dir) :
    (r.reset dir name).head dir' = r.head dir' :=
  Function.update_of_ne h ..

end

/-! ## The stages -/

variable (g : GitSteps)

/-- Stage 1: the results of the members left out, and the members that go on. -/
def narrow : List MemberPlan → List MemberCommitResult × List (MemberPlan × String)
  | [] => ([], [])
  | member :: plan =>
    let (results, active) := narrow plan
    match g.hasStagedChanges member.workDir with
    | .ok false =>
      (⟨member.memberId, .skipped, some "no staged changes", none⟩ :: results, active)
    | .ok true =>
      match g.currentBranch member.workDir with
      | .ok branch => (results, (member, branch) :: active)
      | .error err =>
        -- the member is left out, and the others go on without it
        (⟨member.memberId, .preCommitFailed, some ("resolving branch: " ++ err), none⟩ ::
          results, active)
    | .error err =>
      (⟨member.memberId, .preCommitFailed, some ("checking staged changes: " ++ err), none⟩ ::
        results, active)

/-- The members that go on to the later stages. -/
def active (plan : List MemberPlan) : List (MemberPlan × String) := (narrow g plan).2

/-- Stage 2: a backup ref for every active member, or the member it failed for. -/
def backUpAll : List (MemberPlan × String) → Repos →
    Except (MemberPlan × String × Repos) (List (Option String) × Repos)
  | [], r => .ok ([], r)
  | (member, branch) :: active, r =>
    match g.backupCreate member.workDir with
    | .error err => .error (member, err, r)
    | .ok now =>
      let name := backupRefName branch now
      (backUpAll active (r.saveBackup member.workDir name)).map fun p => (some name :: p.1, p.2)

/-- The results of a run that failed to back `member` up. The members it marks aborted are
those behind as many as there are results already. -/
def abortBackup (results : List MemberCommitResult) (active : List (MemberPlan × String))
    (member : MemberPlan) (err : String) : List MemberCommitResult :=
  let results := results ++
    [⟨member.memberId, .preCommitFailed, some ("creating backup ref: " ++ err), none⟩]
  results ++ ((active.drop results.length).filter fun other =>
      other.1.memberId ≠ member.memberId).map fun other =>
    ⟨other.1.memberId, .preCommitFailed,
      some "aborted because backup-ref creation failed for an earlier member", none⟩

/-- Stage 3: the members whose hook fails. -/
def hookFailures (active : List (MemberPlan × String)) : List MemberCommitResult :=
  active.filterMap fun (member, _) =>
    match g.runPreCommitHookIfPresent member.workDir with
    | .ok _ => none
    | .error err =>
      some ⟨member.memberId, .preCommitFailed, some ("pre-commit hook: " ++ err), none⟩

/-- Notes the backup in the first failure of the member. -/
def noteBackup (id : String) (backupRef : Option String) :
    List MemberCommitResult → List MemberCommitResult
  | [] => []
  | f :: failures =>
    if f.memberId = id then { f with backupRef } :: failures
    else f :: noteBackup id backupRef failures

/-- The results of a run in which a hook failed: those that passed, then those that did
not. -/
def abortHooks (results failures : List MemberCommitResult)
    (active : List ((MemberPlan × String) × Option String)) : List MemberCommitResult :=
  let p := active.foldl (fun (acc : List MemberCommitResult × List MemberCommitResult) a =>
    if acc.2.any (·.memberId = a.1.1.memberId) then
      (acc.1, noteBackup a.1.1.memberId a.2 acc.2)
    else
      (acc.1 ++ [⟨a.1.1.memberId, .preCommitFailed,
        some "aborted because another member's pre-commit checks failed", a.2⟩], acc.2))
    (results, failures)
  p.1 ++ p.2

def finalMessage (message solutionName : String) (addSolutionTrailer : Bool) : String :=
  if addSolutionTrailer then
    match g.interpretTrailers message solutionName with
    | .ok m => m
    | .error _ =>
      let s := if message.toList.getLast? = some '\n' then message else message ++ "\n"
      s ++ "\nX-Spke-Solution: " ++ solutionName ++ "\n"
  else message

/-- Stage 4: the members committed, and the one that failed. -/
def commitAll (message : String) : List ((MemberPlan × String) × Option String) → Repos →
    List (MemberPlan × Option String) × Option (String × String × Option String) × Repos
  | [], r => ([], none, r)
  | ((member, _), backupRef) :: active, r =>
    match g.gitCommit member.workDir with
    | .error err => ([], some (member.memberId, err, backupRef), r)
    | .ok _ =>
      let p := commitAll message active (r.commit member.workDir message)
      ((member, backupRef) :: p.1, p.2)

def rollBack (acc : CommitAllOutcome × Repos) (a : MemberPlan × Option String) :
    CommitAllOutcome × Repos :=
  let (member, backupRef) := a
  let (out, r) := acc
  match backupRef with
  | none =>
    (⟨out.memberResults ++ [⟨member.memberId, .partiallyFailed, none, backupRef⟩],
      out.rollbackErrors ++ [member.memberId ++ ": " ++ "missing backup ref"]⟩, r)
  | some name =>
    match g.gitResetSoft member.workDir with
    | .ok _ =>
      (⟨out.memberResults ++ [⟨member.memberId, .rolledBack, none, backupRef⟩],
        out.rollbackErrors⟩, r.reset member.workDir name)
    | .error err =>
      (⟨out.memberResults ++ [⟨member.memberId, .partiallyFailed, none, backupRef⟩],
        out.rollbackErrors ++ [member.memberId ++ ": " ++ err]⟩, r)

def finishFailed (results : List MemberCommitResult)
    (active : List ((MemberPlan × String) × Option String))
    (committed : List (MemberPlan × Option String)) (failure : String × String × Option String)
    (r : Repos) : CommitAllOutcome × Repos :=
  let (out, r) := committed.foldl (rollBack g) (⟨results, []⟩, r)
  let (failedId, err, failedBackup) := failure
  (⟨out.memberResults ++ [⟨failedId, .preCommitFailed, some err, failedBackup⟩] ++
      (active.drop (committed.length + 1)).map fun a =>
        ⟨a.1.1.memberId, .skipped, some "not attempted (an earlier member failed)", a.2⟩,
    out.rollbackErrors⟩, r)

def commitStage (message : String) (results : List MemberCommitResult)
    (active : List ((MemberPlan × String) × Option String)) (r : Repos) :
    CommitAllOutcome × Repos :=
  let (committed, failure, r) := commitAll g message active r
  match failure with
  | some failure => finishFailed g results active committed failure r
  | none =>
    (⟨results ++ committed.map fun a => ⟨a.1.memberId, .committed, none, a.2⟩, []⟩, r)

/-- `run_orchestration`. -/
def runOrchestration (plan : List MemberPlan) (message solutionName : String)
    (addSolutionTrailer runPreCommitChecks : Bool) (r : Repos) : CommitAllOutcome × Repos :=
  let results := (narrow g plan).1
  if active g plan = [] then (⟨results, []⟩, r)
  else
    match backUpAll g (active g plan) r with
    | .error (member, err, r) => (⟨abortBackup results (active g plan) member err, []⟩, r)
    | .ok (backups, r) =>
      if runPreCommitChecks ∧ hookFailures g (active g plan) ≠ [] then
        (⟨abortHooks results (hookFailures g (active g plan)) ((active g plan).zip backups), []⟩, r)
      else
        commitStage g (finalMessage g message solutionName addSolutionTrailer) results
          ((active g plan).zip backups) r

/-! ## All or nothing -/

def Advanced (r t : Repos) (m : MemberPlan) : Prop :=
  ∃ message, t.head m.workDir = message :: r.head m.workDir

def Reported (out : CommitAllOutcome) (m : MemberPlan) : Prop :=
  ∃ err, m.memberId ++ ": " ++ err ∈ out.rollbackErrors

/-- The member cannot say whether it takes part, or on which branch. -/
def FailsNarrowing (m : MemberPlan) : Prop :=
  (∃ err, g.hasStagedChanges m.workDir = .error err) ∨
    (g.hasStagedChanges m.workDir = .ok true ∧ ∃ err, g.currentBranch m.workDir = .error err)

def FailsCheck (runPreCommitChecks : Bool) (m : MemberPlan) : Prop :=
  FailsNarrowing g m ∨ (g.hasStagedChanges m.workDir = .ok true ∧
      ((∃ err, g.backupCreate m.workDir = .error err) ∨
        (runPreCommitChecks ∧ ∃ err, g.runPreCommitHookIfPresent m.workDir = .error err)))

/-- **All or nothing**: whoever is left with a commit shares it with every member that has
staged changes, or is reported; and a member that fails a check prevents all commits. -/
structure AllOrNothing (plan : List MemberPlan) (runPreCommitChecks : Bool) (r : Repos)
    (out : CommitAllOutcome) (t : Repos) : Prop where
  together : ∀ m ∈ plan, Advanced r t m →
    (∀ m' ∈ plan, g.hasStagedChanges m'.workDir = .ok true → Advanced r t m') ∨ Reported out m
  prevented : (∃ m ∈ plan, FailsCheck g runPreCommitChecks m) → t.made = r.made

/-- No commit is made: nobody takes part, a backup or a hook fails, or the first commit
does. -/
def CommitsNothing (plan : List MemberPlan) (runPreCommitChecks : Bool) : Prop :=
  (∃ a ∈ active g plan, ∃ err, g.backupCreate a.1.workDir = .error err) ∨ (runPreCommitChecks ∧
      ∃ a ∈ active g plan, ∃ err, g.runPreCommitHookIfPresent a.1.workDir = .error err) ∨
    ∀ a ∈ (active g plan).head?, ∃ err, g.gitCommit a.1.workDir = .error err

variable {g}

/-! ### Narrowing -/

theorem mem_active {m : MemberPlan} {branch : String} : (m, branch) ∈ active g plan ↔
      m ∈ plan ∧ g.hasStagedChanges m.workDir = .ok true ∧
        g.currentBranch m.workDir = .ok branch := by
  rw [active]
  induction plan with
  | nil => simp [narrow]
  | cons p plan ih =>
    -- a member that narrowing leaves out meets no condition of the right side
    have left : ¬ (g.hasStagedChanges p.workDir = .ok true ∧
        g.currentBranch p.workDir = .ok branch) →
        (m ∈ plan ∧ g.hasStagedChanges m.workDir = .ok true ∧
            g.currentBranch m.workDir = .ok branch ↔
          m ∈ p :: plan ∧ g.hasStagedChanges m.workDir = .ok true ∧
            g.currentBranch m.workDir = .ok branch) := by
      intro hout
      constructor
      · exact fun h => ⟨mem_cons_of_mem _ h.1, h.2⟩
      · rintro ⟨hm, h⟩
        rcases List.mem_cons.mp hm with rfl | hm
        · exact absurd h hout
        · exact ⟨hm, h⟩
    rw [narrow]
    rcases hs : g.hasStagedChanges p.workDir with err | staged
    · exact ih.trans (left (by simp [hs]))
    · cases staged with
      | false => exact ih.trans (left (by simp [hs]))
      | true =>
        rcases hb : g.currentBranch p.workDir with err | b
        · exact ih.trans (left (by simp [hb]))
        · simp only [ih, mem_cons, Prod.mk.injEq]
          constructor
          · rintro (⟨rfl, rfl⟩ | h)
            · exact ⟨.inl rfl, hs, hb⟩
            · exact ⟨.inr h.1, h.2⟩
          · rintro ⟨rfl | hm, h⟩
            · rw [hb] at h
              exact .inl ⟨rfl, (Except.ok.inj h.2).symm⟩
            · exact .inr ⟨hm, h⟩

theorem active_sublist (plan : List MemberPlan) : ((active g plan).map Prod.fst).Sublist plan := by
  rw [active]
  induction plan with
  | nil => simp [narrow]
  | cons p plan ih =>
    rw [narrow]
    rcases g.hasStagedChanges p.workDir with err | staged
    · exact ih.cons p
    · cases staged with
      | false => exact ih.cons p
      | true =>
        rcases g.currentBranch p.workDir with err | b
        · exact ih.cons p
        · exact ih.cons_cons p

theorem exists_mem_active {m : MemberPlan} (hm : m ∈ plan)
    (hs : g.hasStagedChanges m.workDir = .ok true) (hf : ¬ FailsNarrowing g m) :
    ∃ branch, (m, branch) ∈ active g plan := by
  rcases hb : g.currentBranch m.workDir with err | branch
  · exact absurd (.inr ⟨hs, err, hb⟩) hf
  · exact ⟨branch, mem_active.mpr ⟨hm, hs, hb⟩⟩

/-! ### Backing up -/

/-- A failed backup leaves every HEAD alone, and is the first one that fails. -/
theorem backUpAll_error {as : List (MemberPlan × String)} {r : Repos}
    {e : MemberPlan × String × Repos} (h : backUpAll g as r = .error e) :
    e.2.2.head = r.head ∧ e.2.2.made = r.made ∧
      ∃ before a after, as = before ++ a :: after ∧ a.1 = e.1 ∧
        (∃ err, g.backupCreate e.1.workDir = .error err) ∧
        ∀ b ∈ before, ¬ ∃ err, g.backupCreate b.1.workDir = .error err := by
  induction as generalizing r with
  | nil => simp [backUpAll] at h
  | cons a as ih =>
    obtain ⟨m, branch⟩ := a
    rw [backUpAll] at h
    rcases hb : g.backupCreate m.workDir with err | now
    · rw [hb] at h
      obtain rfl := (Except.error.inj h).symm
      exact ⟨rfl, rfl, [], (m, branch), as, rfl, rfl, ⟨err, hb⟩, by simp⟩
    · rw [hb] at h
      dsimp only at h
      rcases hrest : backUpAll g as (r.saveBackup m.workDir (backupRefName branch now)) with
        e' | p
      · rw [hrest] at h
        obtain rfl := (Except.error.inj h).symm
        obtain ⟨hh, hmade, before, a, after, rfl, ha, hfails, hbefore⟩ := ih hrest
        refine ⟨hh, hmade, (m, branch) :: before, a, after, rfl, ha, hfails, ?_⟩
        exact List.forall_mem_cons.mpr ⟨by simp [hb], hbefore⟩
      · rw [hrest] at h
        simp [Except.map] at h

/-- A name that holds the history of a HEAD keeps it: a backup of the same name is one of the
same HEAD. -/
theorem Repos.saveBackup_keeps (r : Repos) {name : String} (dir' name' : String)
    (h : r.backup dir name = some (r.head dir)) :
    (r.saveBackup dir' name').backup dir name = some (r.head dir) := by
  by_cases hd : dir = dir'
  · subst hd
    by_cases hn : name = name'
    · subst hn
      exact r.saveBackup_self ..
    · simpa [Repos.saveBackup, Function.update_of_ne hn] using h
  · rw [r.saveBackup_of_ne _ hd]
    exact h

/-- The backups of one run hold the histories from before it. -/
theorem backUpAll_ok {as : List (MemberPlan × String)} {r t : Repos}
    {backups : List (Option String)} (h : backUpAll g as r = .ok (backups, t)) :
    t.head = r.head ∧ t.made = r.made ∧ backups.length = as.length ∧
      (∀ dir name, r.backup dir name = some (r.head dir) → t.backup dir name = some (r.head dir)) ∧
      (∀ a ∈ as.zip backups, ∃ name, a.2 = some name ∧
        t.backup a.1.1.workDir name = some (r.head a.1.1.workDir)) ∧
      ∀ a ∈ as, ∃ now, g.backupCreate a.1.workDir = .ok now := by
  induction as generalizing r backups with
  | nil =>
    obtain ⟨rfl, rfl⟩ : [] = backups ∧ r = t := by simpa [backUpAll] using h
    simp
  | cons a as ih =>
    obtain ⟨m, branch⟩ := a
    rw [backUpAll] at h
    rcases hb : g.backupCreate m.workDir with err | now
    · rw [hb] at h
      simp at h
    · rw [hb] at h
      dsimp only at h
      rcases hrest : backUpAll g as (r.saveBackup m.workDir (backupRefName branch now)) with
        e | ⟨bs, u⟩
      · rw [hrest] at h
        simp [Except.map] at h
      · rw [hrest] at h
        obtain ⟨rfl, rfl⟩ : some (backupRefName branch now) :: bs = backups ∧ u = t := by
          simpa [Except.map] using h
        obtain ⟨hh, hmade, hl, hkeeps, hz, hok⟩ := ih hrest
        refine ⟨hh, hmade, by simp [hl], ?_, ?_, ?_⟩
        · intro dir name hname
          exact hkeeps dir name (r.saveBackup_keeps _ _ hname)
        · intro a ha
          rcases List.mem_cons.mp ha with rfl | ha
          · exact ⟨_, rfl, hkeeps _ _ (r.saveBackup_self ..)⟩
          · exact hz a ha
        · intro a ha
          rcases List.mem_cons.mp ha with rfl | ha
          · exact ⟨now, hb⟩
          · exact hok a ha

/-! ### Committing -/

/-- What the commit stage does: it commits a beginning `done` of the list, each member on top
of those before it in its repository, and stops at the first member that fails. -/
structure Commits (g : GitSteps) (message : String)
    (as : List ((MemberPlan × String) × Option String)) (r : Repos)
    (done rest : List ((MemberPlan × String) × Option String)) : Prop where
  split : as = done ++ rest
  committed : (commitAll g message as r).1 = done.map fun a => (a.1.1, a.2)
  ok : ∀ a ∈ done, ∃ u, g.gitCommit a.1.1.workDir = .ok u
  head : ∀ dir, (commitAll g message as r).2.2.head dir =
    List.replicate ((done.map fun a => a.1.1.workDir).count dir) message ++ r.head dir
  backup : (commitAll g message as r).2.2.backup = r.backup
  made : (commitAll g message as r).2.2.made = r.made ++ done.map fun a => a.1.1.workDir
  failure : (commitAll g message as r).2.1 = none ↔ rest = []
  failed : ∀ failure, (commitAll g message as r).2.1 = some failure →
    ∃ a rest', rest = a :: rest' ∧ failure.1 = a.1.1.memberId
  stopped : ∀ a ∈ rest.head?, ∃ err, g.gitCommit a.1.1.workDir = .error err

theorem commitAll_spec (message : String) (as : List ((MemberPlan × String) × Option String))
    (r : Repos) : ∃ done rest, Commits g message as r done rest := by
  induction as generalizing r with
  | nil => exact ⟨[], [], by constructor <;> simp [commitAll]⟩
  | cons a as ih =>
    obtain ⟨⟨m, branch⟩, backup⟩ := a
    rcases hc : g.gitCommit m.workDir with err | u
    · exact ⟨[], ((m, branch), backup) :: as, by constructor <;> simp [commitAll, hc]⟩
    · obtain ⟨done, rest, h⟩ := ih (r.commit m.workDir message)
      have heq : commitAll g message (((m, branch), backup) :: as) r =
          ((m, backup) :: (commitAll g message as (r.commit m.workDir message)).1,
            (commitAll g message as (r.commit m.workDir message)).2) := by
        rw [commitAll, hc]
      refine ⟨((m, branch), backup) :: done, rest, ?_⟩
      constructor
      · rw [h.split]
        rfl
      · rw [heq, h.committed]
        rfl
      · exact List.forall_mem_cons.mpr ⟨⟨u, hc⟩, h.ok⟩
      · intro dir
        rw [heq, h.head dir, map_cons, count_cons]
        by_cases hd : m.workDir = dir
        · subst hd
          simp [replicate_succ']
        · rw [r.commit_of_ne _ fun he => hd he.symm, if_neg (by simpa using hd), add_zero]
      · rw [heq]
        exact h.backup
      · rw [heq]
        exact h.made.trans (by simp [Repos.commit])
      · rw [heq]
        exact h.failure
      · rw [heq]
        exact h.failed
      · exact h.stopped

/-! ### Rolling back -/

theorem rollBack_made (acc : CommitAllOutcome × Repos) (a : MemberPlan × Option String) :
    (rollBack g acc a).2.made = acc.2.made ∧ (rollBack g acc a).2.backup = acc.2.backup := by
  obtain ⟨m, backup⟩ := a
  rw [rollBack.eq_def]
  cases backup with
  | none => exact ⟨rfl, rfl⟩
  | some name =>
    dsimp only
    cases g.gitResetSoft m.workDir <;> exact ⟨rfl, rfl⟩

theorem rollBack_of_ne {acc : CommitAllOutcome × Repos} {a : MemberPlan × Option String}
    (h : dir ≠ a.1.workDir) : (rollBack g acc a).2.head dir = acc.2.head dir := by
  obtain ⟨m, backup⟩ := a
  rw [rollBack.eq_def]
  cases backup with
  | none => rfl
  | some name =>
    dsimp only
    cases g.gitResetSoft m.workDir with
    | error err => rfl
    | ok u => exact acc.2.reset_of_ne _ h

theorem rollBack_mono (acc : CommitAllOutcome × Repos) (a : MemberPlan × Option String) :
    ∀ e ∈ acc.1.rollbackErrors, e ∈ (rollBack g acc a).1.rollbackErrors := by
  intro e he
  obtain ⟨m, backup⟩ := a
  rw [rollBack.eq_def]
  cases backup with
  | none => exact mem_append_left _ he
  | some name =>
    dsimp only
    cases g.gitResetSoft m.workDir with
    | error err => exact mem_append_left _ he
    | ok u => exact he

theorem rollBack_self {acc : CommitAllOutcome × Repos} {m : MemberPlan} {backup : Option String}
    {history : List String}
    (h : ∃ name, backup = some name ∧ acc.2.backup m.workDir name = some history) :
    (rollBack g acc (m, backup)).2.head m.workDir = history ∨
      Reported (rollBack g acc (m, backup)).1 m := by
  obtain ⟨name, rfl, hb⟩ := h
  rw [rollBack.eq_def]
  dsimp only
  cases g.gitResetSoft m.workDir with
  | error err => exact .inr ⟨err, by simp⟩
  | ok u => exact .inl (acc.2.reset_self hb)

theorem rollBack_keeps {acc : CommitAllOutcome × Repos} {a : MemberPlan × Option String}
    {history : List String}
    (hb : a.1.workDir = dir → ∃ name, a.2 = some name ∧ acc.2.backup dir name = some history)
    (h : acc.2.head dir = history) : (rollBack g acc a).2.head dir = history := by
  by_cases hdir : dir = a.1.workDir
  · subst hdir
    obtain ⟨name, hn, hname⟩ := hb rfl
    obtain ⟨m, backup⟩ := a
    obtain rfl : backup = some name := hn
    rw [rollBack.eq_def]
    dsimp only
    cases g.gitResetSoft m.workDir with
    | error err => exact h
    | ok u => exact acc.2.reset_self hname
  · rw [rollBack_of_ne hdir, h]

/-- **Every committed member is put back to its backup, or reported.** -/
theorem foldl_rollBack {cs : List (MemberPlan × Option String)} {acc : CommitAllOutcome × Repos}
    {before : Repos}
    (hb : ∀ a ∈ cs, ∃ name, a.2 = some name ∧
      acc.2.backup a.1.workDir name = some (before.head a.1.workDir)) :
    (cs.foldl (rollBack g) acc).2.made = acc.2.made ∧ (∀ dir, dir ∉ cs.map (fun a => a.1.workDir) →
        (cs.foldl (rollBack g) acc).2.head dir = acc.2.head dir) ∧
      (∀ dir, acc.2.head dir = before.head dir →
        (cs.foldl (rollBack g) acc).2.head dir = before.head dir) ∧
      (∀ e ∈ acc.1.rollbackErrors, e ∈ (cs.foldl (rollBack g) acc).1.rollbackErrors) ∧
      ∀ a ∈ cs, (cs.foldl (rollBack g) acc).2.head a.1.workDir = before.head a.1.workDir ∨
        Reported (cs.foldl (rollBack g) acc).1 a.1 := by
  induction cs generalizing acc with
  | nil => simp
  | cons c cs ih =>
    obtain ⟨hmade, hbackup⟩ := rollBack_made (g := g) acc c
    obtain ⟨hmade', hframe, hkeeps, hmono, hcs⟩ := @ih (rollBack g acc c) (by
      intro a ha
      rw [hbackup]
      exact hb a (mem_cons_of_mem _ ha))
    have hc := hb c (mem_cons_self ..)
    rw [foldl_cons]
    refine ⟨hmade'.trans hmade, ?_, ?_, fun e he => hmono e (rollBack_mono acc c e he), ?_⟩
    · intro dir hdir
      obtain ⟨hne, hdir⟩ := not_or.mp (mt List.mem_cons.mpr hdir)
      rw [hframe dir hdir, rollBack_of_ne hne]
    · intro dir hdir
      exact hkeeps dir (rollBack_keeps (fun hd => hd ▸ hc) hdir)
    · intro a ha
      rcases List.mem_cons.mp ha with rfl | ha
      · rcases rollBack_self (g := g) hc with h | ⟨err, h⟩
        · exact .inl (hkeeps _ h)
        · exact .inr ⟨err, hmono _ h⟩
      · exact hcs a ha

section

variable {message : String} {results : List MemberCommitResult} {r : Repos}
  {as done rest : List ((MemberPlan × String) × Option String)}

section

variable (h : Commits g message as r done rest)
include h

theorem Commits.frame (hdir : dir ∉ done.map fun a => a.1.1.workDir) :
    (commitAll g message as r).2.2.head dir = r.head dir := by
  rw [h.head, List.count_eq_zero.mpr hdir]
  rfl

theorem Commits.stage_eq (hr : rest = []) :
    (commitStage g message results as r).2 = (commitAll g message as r).2.2 := by
  simp only [commitStage, h.failure.mpr hr]

theorem Commits.stage_failed (results : List MemberCommitResult) (hr : rest ≠ [])
    (hb : ∀ a ∈ as, ∃ name, a.2 = some name ∧
      r.backup a.1.1.workDir name = some (r.head a.1.1.workDir)) :
    (commitStage g message results as r).2.made = r.made ++ done.map (fun a => a.1.1.workDir) ∧
      ∀ dir, (commitStage g message results as r).2.head dir = r.head dir ∨
        ∃ a ∈ done, a.1.1.workDir = dir ∧
          Reported (commitStage g message results as r).1 a.1.1 := by
  obtain ⟨failure, hf⟩ := Option.ne_none_iff_exists'.mp (mt h.failure.mp hr)
  have hdirs : ((done.map fun a => (a.1.1, a.2)).map fun a => a.1.workDir) =
      done.map fun a => a.1.1.workDir := by
    simp
  obtain ⟨hmade, hframe, -, -, hcs⟩ := @foldl_rollBack g (done.map fun a => (a.1.1, a.2))
    (⟨results, []⟩, (commitAll g message as r).2.2) r
    (by
      intro c hc
      obtain ⟨b, hbm, rfl⟩ := List.mem_map.mp hc
      rw [h.backup]
      exact hb b (h.split ▸ mem_append_left _ hbm))
  simp only [commitStage, hf, h.committed, finishFailed]
  refine ⟨hmade.trans h.made, ?_⟩
  intro dir
  by_cases hdir : dir ∈ done.map fun a => a.1.1.workDir
  · obtain ⟨a, ha, rfl⟩ := List.mem_map.mp hdir
    rcases hcs (a.1.1, a.2) (List.mem_map.mpr ⟨a, ha, rfl⟩) with hc | hc
    · exact .inl hc
    · exact .inr ⟨a, ha, rfl, hc⟩
  · exact .inl ((hframe dir (by rw [hdirs]; exact hdir)).trans (h.frame hdir))

end

/-- What the commit stage leaves behind: nothing where the first commit fails; else every
member is committed, or each is put back to where it was or reported. -/
theorem commitStage_spec (hd : (as.map fun a => a.1.1.workDir).Nodup)
    (hb : ∀ a ∈ as, ∃ name, a.2 = some name ∧
      r.backup a.1.1.workDir name = some (r.head a.1.1.workDir)) :
    ((∀ a ∈ as.head?, ∃ err, g.gitCommit a.1.1.workDir = .error err) ∧
        (commitStage g message results as r).2.head = r.head ∧
        (commitStage g message results as r).2.made = r.made) ∨
      ((¬ ∀ a ∈ as.head?, ∃ err, g.gitCommit a.1.1.workDir = .error err) ∧
        (commitStage g message results as r).2.made ≠ r.made ∧
        ((∀ a ∈ as, (commitStage g message results as r).2.head a.1.1.workDir =
            message :: r.head a.1.1.workDir) ∨
          ∀ dir, (commitStage g message results as r).2.head dir = r.head dir ∨
            ∃ a ∈ as, a.1.1.workDir = dir ∧
              Reported (commitStage g message results as r).1 a.1.1)) := by
  obtain ⟨done, rest, h⟩ := commitAll_spec (g := g) message as r
  have hmade : (commitStage g message results as r).2.made =
      r.made ++ done.map fun a => a.1.1.workDir := by
    by_cases hr : rest = []
    · rw [h.stage_eq hr, h.made]
    · exact (h.stage_failed results hr hb).1
  cases hdone : done with
  | nil =>
    subst hdone
    refine .inl ⟨by rw [h.split]; exact h.stopped, ?_, by simpa using hmade⟩
    funext dir
    by_cases hr : rest = []
    · rw [h.stage_eq hr]
      exact h.frame (by simp)
    · rcases (h.stage_failed results hr hb).2 dir with hdir | ⟨a, ha, -⟩
      · exact hdir
      · simp at ha
  | cons a done' =>
    right
    refine ⟨?_, ?_, ?_⟩
    · intro hfirst
      obtain ⟨err, he⟩ := hfirst a (by rw [h.split, hdone]; rfl)
      obtain ⟨u, hu⟩ := h.ok a (by rw [hdone]; exact mem_cons_self ..)
      rw [he] at hu
      simp at hu
    · rw [hmade, hdone]
      simp
    · by_cases hr : rest = []
      · left
        intro b hbm
        have hdone' : as = done := by simpa [hr] using h.split
        have hmem : b.1.1.workDir ∈ done.map fun a => a.1.1.workDir :=
          List.mem_map.mpr ⟨b, hdone' ▸ hbm, rfl⟩
        rw [h.stage_eq hr, h.head, count_eq_one_of_mem (hdone' ▸ hd) hmem]
        rfl
      · right
        intro dir
        rcases (h.stage_failed results hr hb).2 dir with hdir | ⟨b, hbm, hb'⟩
        · exact .inl hdir
        · exact .inr ⟨b, h.split ▸ mem_append_left _ hbm, hb'⟩

end

theorem hookFailures_ne_nil {as : List (MemberPlan × String)} : hookFailures g as ≠ [] ↔
      ∃ a ∈ as, ∃ err, g.runPreCommitHookIfPresent a.1.workDir = .error err := by
  rw [Ne, eq_nil_iff_forall_not_mem, not_forall]
  constructor
  · rintro ⟨res, h⟩
    obtain ⟨⟨m, branch⟩, ha, hf⟩ := List.mem_filterMap.mp (not_not.mp h)
    refine ⟨(m, branch), ha, ?_⟩
    rcases hh : g.runPreCommitHookIfPresent m.workDir with err | u
    · exact ⟨err, rfl⟩
    · simp [hh] at hf
  · rintro ⟨⟨m, branch⟩, ha, err, hh⟩
    refine ⟨⟨m.memberId, .preCommitFailed, some ("pre-commit hook: " ++ err), none⟩, ?_⟩
    exact not_not.mpr (List.mem_filterMap.mpr ⟨(m, branch), ha, by simp only [hh]⟩)

theorem active_nodup (hd : (plan.map MemberPlan.workDir).Nodup) :
    ((active g plan).map fun a => a.1.workDir).Nodup := by
  have := (active_sublist (g := g) plan).map MemberPlan.workDir
  rw [List.map_map] at this
  exact hd.sublist this

/-- Once the backups are made and the hooks have passed, it is up to the first commit. -/
theorem commitsNothing_iff {checks : Bool}
    {backups : List (Option String)} (hactive : active g plan ≠ [])
    (hlen : backups.length = (active g plan).length)
    (hok : ∀ a ∈ active g plan, ∃ now, g.backupCreate a.1.workDir = .ok now)
    (hhook : ¬ (checks = true ∧ hookFailures g (active g plan) ≠ [])) :
    CommitsNothing g plan checks ↔ ∀ a ∈ ((active g plan).zip backups).head?,
        ∃ err, g.gitCommit a.1.1.workDir = .error err := by
  have hbackup : ¬ ∃ a ∈ active g plan, ∃ err, g.backupCreate a.1.workDir = .error err := by
    rintro ⟨a, ha, err, he⟩
    obtain ⟨now, hn⟩ := hok a ha
    rw [he] at hn
    simp at hn
  have hhook' : ¬ (checks = true ∧ ∃ a ∈ active g plan, ∃ err,
      g.runPreCommitHookIfPresent a.1.workDir = .error err) := fun hc =>
    hhook ⟨hc.1, hookFailures_ne_nil.mpr hc.2⟩
  rw [CommitsNothing, or_iff_right hbackup, or_iff_right hhook']
  cases hl : active g plan with
  | nil => exact absurd hl hactive
  | cons a as =>
    cases hbs : backups with
    | nil =>
      rw [hl, hbs] at hlen
      simp at hlen
    | cons b bs => simp

/-- **What a run leaves behind**: nothing at all, or commits that everybody who takes part
shares, or commits that are taken back or reported. -/
theorem runOrchestration_cases {message solutionName : String}
    {trailer checks : Bool} {r : Repos} {out : CommitAllOutcome} {t : Repos}
    (hd : (plan.map MemberPlan.workDir).Nodup)
    (h : runOrchestration g plan message solutionName trailer checks r = (out, t)) :
    (CommitsNothing g plan checks ∧ t.head = r.head ∧ t.made = r.made) ∨
      (¬ CommitsNothing g plan checks ∧ t.made ≠ r.made ∧ ((∀ a ∈ active g plan, Advanced r t a.1) ∨
          ∀ m ∈ plan, Advanced r t m → Reported out m)) := by
  simp only [runOrchestration] at h
  by_cases hactive : active g plan = []
  · rw [if_pos hactive] at h
    cases h
    exact .inl ⟨.inr (.inr (by simp [hactive])), rfl, rfl⟩
  rw [if_neg hactive] at h
  rcases hbk : backUpAll g (active g plan) r with e | ⟨backups, r₂⟩
  · rw [hbk] at h
    cases h
    obtain ⟨hhead, hmade, before, a, after, hsplit, ha, ⟨err, he⟩, -⟩ := backUpAll_error hbk
    exact .inl ⟨.inl ⟨a, by rw [hsplit]; simp, err, ha ▸ he⟩, hhead, hmade⟩
  rw [hbk] at h
  dsimp only at h
  obtain ⟨hhead, hmade, hlen, -, hbackup, hbok⟩ := backUpAll_ok hbk
  by_cases hhook : checks = true ∧ hookFailures g (active g plan) ≠ []
  · rw [if_pos hhook] at h
    cases h
    exact .inl ⟨.inr (.inl ⟨hhook.1, hookFailures_ne_nil.mp hhook.2⟩), hhead, hmade⟩
  rw [if_neg hhook] at h
  -- the commit stage runs, on the active members with their backups
  have hzip : (((active g plan).zip backups).map fun a => a.1.1.workDir) =
      (active g plan).map fun a => a.1.workDir := by
    have hfst : ((active g plan).zip backups).map Prod.fst = active g plan :=
      map_fst_zip (by omega)
    rw [← congrArg (List.map fun a => a.1.workDir) hfst, List.map_map]
    rfl
  have hfirst := commitsNothing_iff hactive hlen hbok hhook
  have hspec := @commitStage_spec g (finalMessage g message solutionName trailer)
    (narrow g plan).1 r₂ ((active g plan).zip backups) (by rw [hzip]; exact active_nodup hd) (by
      intro a ha
      rw [hhead]
      exact hbackup a ha)
  have hcs : commitStage g (finalMessage g message solutionName trailer) (narrow g plan).1
      ((active g plan).zip backups) r₂ = (out, t) := h
  rw [hcs] at hspec
  rw [hfirst, ← hhead, ← hmade]
  rcases hspec with hnothing | ⟨hne, hm, hrest⟩
  · exact .inl hnothing
  · refine .inr ⟨hne, hm, ?_⟩
    rcases hrest with hall | hback
    · left
      intro a ha
      have : a ∈ ((active g plan).zip backups).map Prod.fst := by
        rw [map_fst_zip (by omega)]
        exact ha
      obtain ⟨b, hb, rfl⟩ := List.mem_map.mp this
      exact ⟨_, by rw [hall b hb, hhead]⟩
    · right
      rintro m hmem ⟨text, hadv⟩
      rcases hback m.workDir with hsame | ⟨a, ha, hdir, hrep⟩
      · rw [← hhead, hsame] at hadv
        exact absurd hadv.symm (cons_ne_self _ _)
      · -- different members work in different repositories
        have ham : a.1.1 ∈ plan := by
          have : a.1 ∈ active g plan := (of_mem_zip ha).1
          exact (mem_active.mp this).1
        rw [← inj_on_of_nodup_map hd ham hmem hdir]
        exact hrep

/-- **A solution is committed all or nothing exactly when** no member fails narrowing, or no
commit is made. -/
theorem all_or_nothing_iff {plan : List MemberPlan} {message solutionName : String}
    {trailer checks : Bool} {r : Repos} {out : CommitAllOutcome} {t : Repos}
    (hd : (plan.map MemberPlan.workDir).Nodup)
    (h : runOrchestration g plan message solutionName trailer checks r = (out, t)) :
    AllOrNothing g plan checks r out t ↔
      (∀ m ∈ plan, ¬ FailsNarrowing g m) ∨ CommitsNothing g plan checks := by
  rcases runOrchestration_cases hd h with ⟨hnothing, hhead, hmade⟩ | ⟨hcommits, hmade, hrest⟩
  · refine iff_of_true ⟨?_, fun _ => hmade⟩ (.inr hnothing)
    rintro m - ⟨text, hadv⟩
    rw [hhead] at hadv
    exact absurd hadv.symm (cons_ne_self _ _)
  · rw [or_iff_left hcommits]
    constructor
    · intro hall m hm hf
      exact hmade (hall.prevented ⟨m, hm, .inl hf⟩)
    · intro hnarrow
      constructor
      · intro m hm hadv
        rcases hrest with hactive | hback
        · left
          intro m' hm' hs
          obtain ⟨branch, ha⟩ := exists_mem_active hm' hs (hnarrow m' hm')
          exact hactive _ ha
        · exact .inr (hback m hm hadv)
      · -- a member past narrowing is active, so its failure would have stopped the run
        rintro ⟨m, hm, hf | ⟨hs, hf⟩⟩
        · exact absurd hf (hnarrow m hm)
        · obtain ⟨branch, ha⟩ := exists_mem_active hm hs (hnarrow m hm)
          refine absurd ?_ hcommits
          rcases hf with hf | ⟨hc, hf⟩
          · exact .inl ⟨_, ha, hf⟩
          · exact .inr (.inl ⟨hc, _, ha, hf⟩)

/-- Two members with staged changes. -/
def samplePlan : List MemberPlan := [⟨"app", "/work/app"⟩, ⟨"lib", "/work/lib"⟩]

/-- Everything works, except that some members may be on no branch. -/
def sampleSteps (detached : String → Bool) : GitSteps where
  hasStagedChanges _ := .ok true
  currentBranch dir :=
    if detached dir then .error (dir ++ " is in detached HEAD; commit_all requires a branch")
    else .ok "main"
  backupCreate _ := .ok 1700000000
  runPreCommitHookIfPresent _ := .ok ()
  gitCommit _ := .ok ()
  gitResetSoft _ := .ok ()
  interpretTrailers message _ := .ok message

/-- Repositories with one commit each. -/
def sampleRepos : Repos := ⟨fun _ => ["init"], fun _ _ => none, []⟩

def sampleRun (detached : String → Bool) : CommitAllOutcome × Repos :=
  runOrchestration (sampleSteps detached) samplePlan "fix" "work" false true sampleRepos

theorem all_or_nothing_both_on_branch :
    AllOrNothing (sampleSteps fun _ => false) samplePlan true sampleRepos
      (sampleRun fun _ => false).1 (sampleRun fun _ => false).2 := by
  refine (all_or_nothing_iff (by decide) rfl).mpr (.inl ?_)
  rintro m - (⟨err, h⟩ | ⟨-, err, h⟩)
  · simp [sampleSteps] at h
  · simp [sampleSteps] at h

/-- `app` is in detached HEAD: it is reported as failed, and `lib` is committed without
it. -/
theorem all_or_nothing_fails_detached : (samplePlan.map MemberPlan.workDir).Nodup ∧
      ¬ AllOrNothing (sampleSteps (· = "/work/app")) samplePlan true sampleRepos
        (sampleRun (· = "/work/app")).1 (sampleRun (· = "/work/app")).2 := by
  refine ⟨by decide, fun h => ?_⟩
  have hmade : (sampleRun (· = "/work/app")).2.made = ["/work/lib"] := by rfl
  have := h.prevented ⟨⟨"app", "/work/app"⟩, mem_cons_self .., .inl (.inr ⟨rfl, _, rfl⟩)⟩
  rw [hmade] at this
  simp [sampleRepos] at this

end SpkEditor.SolutionCommit
