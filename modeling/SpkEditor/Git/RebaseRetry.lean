import SpkEditor.Git.RebaseUndo

/-!
# Running a failed command again

`retry_exec` runs the command that `extract_last_exec_command` has taken from the todo list
before git ran: that of the *last* step with a command. Git stops at the first command that
fails. So the right command is run only if the line at which git has stopped carries the same
command as the last one of the list.
-/

namespace SpkEditor.Rebase

open Cut

/-! ## What is to hold -/

/-- The `n`-th line of the todo list runs the command. -/
def ExecLine (todo : RebaseTodo) (helperCmd : Text) (n : Nat) (command : Text) : Prop :=
  ((todo.serializeWithHelper helperCmd).splitOn '\n')[n]? = some ("exec ".toList ++ command)

/-- Git has stopped because the command of the `n`-th line failed. -/
structure StoppedAt (w : World) (todo : RebaseTodo) (helperCmd : Text) (n : Nat)
    (command : Text) : Prop where
  line : ExecLine todo helperCmd n command
  state : ∃ h stderr, w.handle = some h ∧
    h.state = .pausedForExecFailure ("exec ".toList ++ command) stderr

/-- A retry: the handle is told to run what failed, whatever the shell and git answer. -/
def World.retry (w : World) (answers : CallAnswers) : World := w.call ⟨.retryExec, answers⟩

/-- **The retry runs the command of the line, and no other.** -/
def RetriesFailed (w : World) (answers : CallAnswers) (command : Text) : Prop :=
  (w.retry answers).shellRuns = w.shellRuns ++ [command]

def LastCommand (todo : RebaseTodo) (helperCmd command : Text) : Prop :=
  ∃ before step after, todo.steps = before ++ step :: after ∧
    step.execCommand helperCmd = some command ∧ ∀ later ∈ after, later.execCommand helperCmd = none

/-! ## The command that is kept -/

theorem extractLastExecCommand_iff (todo : RebaseTodo) (helperCmd command : Text) :
    extractLastExecCommand todo helperCmd = some command ↔ LastCommand todo helperCmd command := by
  rw [extractLastExecCommand, List.findSome?_eq_some_iff, LastCommand]
  constructor
  · rintro ⟨after, step, before, hsteps, hstep, hafter⟩
    refine ⟨before.reverse, step, after.reverse, ?_, hstep, by simpa using hafter⟩
    rw [← List.reverse_reverse todo.steps, hsteps]
    simp
  · rintro ⟨before, step, after, hsteps, hstep, hafter⟩
    refine ⟨after.reverse, step, before.reverse, ?_, hstep, by simpa using hafter⟩
    rw [hsteps]
    simp

theorem call_lastExecCommand {w : World} {h' : RebaseHandle} (c : Call)
    (hh' : (w.call c).handle = some h') :
    ∃ h, w.handle = some h ∧ h'.lastExecCommand = h.lastExecCommand := by
  rw [World.call.eq_def] at hh'
  rcases hh : w.handle with _ | h
  · rw [hh] at hh'
    rw [hh] at hh'
    simp at hh'
  rw [hh] at hh'
  refine ⟨h, rfl, ?_⟩
  have hsame : ∀ w' : World, w'.handle = some h → w'.handle = some h' →
      h'.lastExecCommand = h.lastExecCommand := by
    intro w' h1 h2
    obtain rfl := Option.some.inj (h1.symm.trans h2)
    rfl
  have hcont : ∀ w' : World, w'.handle = some h →
      (runContinuation c.answers h w').handle = some h' →
        h'.lastExecCommand = h.lastExecCommand := by
    intro w' h1 h2
    rw [runContinuation.eq_def] at h2
    split at h2
    · exact hsame w' h1 h2
    · split at h2
      · exact hsame w' h1 h2
      · rw [← Option.some.inj h2]
  rcases hk : c.kind with _ | _ | _ | _ <;> rw [hk] at hh'
  · exact hcont w hh hh'
  · exact hcont w hh hh'
  · dsimp only at hh'
    rw [retryExec.eq_def] at hh'
    split at hh'
    · exact hsame w hh hh'
    · dsimp only at hh'
      split at hh'
      · exact hsame w hh hh'
      · split at hh'
        · exact hcont { w with shellRuns := w.shellRuns ++ [_] } hh hh'
        · rw [← Option.some.inj hh']
  · dsimp only at hh'
    rw [abort.eq_def] at hh'
    split at hh'
    · exact hsame w hh hh'
    · split at hh' <;> rw [← Option.some.inj hh']

section

variable {env : StartAnswers} {todo : RebaseTodo}

theorem start_lastExecCommand {h : RebaseHandle}
    {helperPath : Text} (hpath : env.currentExePath = .ok helperPath)
    (hh : (runRebaseWithOpName env todo).handle = some h) :
    h.lastExecCommand = extractLastExecCommand todo (helperCommand helperPath) := by
  rw [runRebaseWithOpName] at hh
  rcases hp : prepare env with err | ⟨branch, sha⟩
  · rw [hp] at hh
    simp at hh
  rw [hp] at hh
  by_cases hdr : ∃ output, Drives env todo output
  · obtain ⟨output, hdr⟩ := hdr
    have hdrive := drive_of_drives hdr hpath
    rw [hdrive] at hh
    rcases hstate : analyseState env.view output with err | state
    · rw [hstate] at hh
      simp [Except.map] at hh
    · rw [hstate] at hh
      simp only [Except.map, Option.some.injEq] at hh
      rw [← hh]
  · obtain ⟨err, herr⟩ := drive_error hdr
    rw [herr] at hh
    simp at hh

theorem calls_lastExecCommand {helperPath : Text}
    (hpath : env.currentExePath = .ok helperPath) (cs : List Call) {h : RebaseHandle}
    (hh : ((runRebaseWithOpName env todo).calls cs).handle = some h) :
    h.lastExecCommand = extractLastExecCommand todo (helperCommand helperPath) := by
  induction cs using List.reverseRecOn generalizing h with
  | nil => exact start_lastExecCommand hpath hh
  | append_singleton cs c ih =>
    rw [World.calls_snoc] at hh
    obtain ⟨h₀, hh₀, hsame⟩ := call_lastExecCommand c hh
    rw [hsame]
    exact ih hh₀

end

/-! ## Retrying -/

theorem runContinuation_shellRuns (answers : CallAnswers) (h : RebaseHandle) (w : World) :
    (runContinuation answers h w).shellRuns = w.shellRuns := by
  rw [runContinuation.eq_def]
  split
  · rfl
  · split <;> rfl

theorem retry_shellRuns {w : World} {h : RebaseHandle} (hh : w.handle = some h)
    (answers : CallAnswers) :
    (w.retry answers).shellRuns = w.shellRuns ++ h.lastExecCommand.toList := by
  rw [World.retry, World.call.eq_def, hh]
  dsimp only
  rw [retryExec.eq_def]
  rcases h.lastExecCommand with _ | cmd
  · simp
  · dsimp only
    split
    · rfl
    · split
      · exact runContinuation_shellRuns ..
      · rfl

/-- **The retry runs what failed exactly if** the failed line carries the last command of the
todo list. -/
theorem retries_failed_iff {env : StartAnswers} {todo : RebaseTodo} {helperPath : Text}
    {cs : List Call} {n : Nat} {command : Text} (hpath : env.currentExePath = .ok helperPath)
    (hstop : StoppedAt ((runRebaseWithOpName env todo).calls cs) todo
      (helperCommand helperPath) n command) (answers : CallAnswers) :
    RetriesFailed ((runRebaseWithOpName env todo).calls cs) answers command ↔
      LastCommand todo (helperCommand helperPath) command := by
  obtain ⟨h, stderr, hh, -⟩ := hstop.state
  rw [RetriesFailed, retry_shellRuns hh, List.append_cancel_left_eq,
    calls_lastExecCommand hpath cs hh, ← extractLastExecCommand_iff]
  cases extractLastExecCommand todo (helperCommand helperPath) <;> simp

/-- Two commits get new messages. -/
def twoRewords : RebaseTodo :=
  ⟨[.reword "aaaa".toList "one".toList, .reword "bbbb".toList "two".toList],
    [("one".toList, "First".toList), ("two".toList, "Second".toList)]⟩

def sampleHelper : Text := helperCommand "/usr/bin/spk".toList

def failedView (done : List Text) : RepoView :=
  { restView with
    rebaseMerge := true
    doneFile := some (done.flatMap fun line => line ++ ['\n']) }

/-- Git stops at a line because its command fails. -/
def failedStart (done : List Text) : StartAnswers :=
  sampleStart (failedView done) ⟨false, some 1, [], "warning: execution failed".toList⟩

def rewordLines : List Text :=
  ["pick aaaa".toList, "exec ".toList ++ rewordCommand sampleHelper "one".toList,
    "pick bbbb".toList, "exec ".toList ++ rewordCommand sampleHelper "two".toList]

theorem stoppedAt_second :
    StoppedAt ((runRebaseWithOpName (failedStart rewordLines) twoRewords).calls []) twoRewords
      sampleHelper 3 (rewordCommand sampleHelper "two".toList) := by
  constructor
  · rw [ExecLine]
    decide +kernel
  · exact ⟨_, _, rfl, rfl⟩

theorem stoppedAt_first :
    StoppedAt ((runRebaseWithOpName (failedStart (rewordLines.take 2)) twoRewords).calls [])
      twoRewords sampleHelper 1 (rewordCommand sampleHelper "one".toList) := by
  constructor
  · rw [ExecLine]
    decide +kernel
  · exact ⟨_, _, rfl, rfl⟩

/-- The second reword fails, and is the one that is run again. -/
theorem retries_failed_second :
    RetriesFailed ((runRebaseWithOpName (failedStart rewordLines) twoRewords).calls [])
      ⟨.ok fine, fun _ => .ok fine, restView, sampleRegistry⟩
      (rewordCommand sampleHelper "two".toList) := by
  refine (retries_failed_iff rfl stoppedAt_second _).mpr ?_
  exact ⟨[.reword "aaaa".toList "one".toList], .reword "bbbb".toList "two".toList, [], rfl, rfl,
    by simp⟩

/-- The first reword fails, and the retry sets the message of the second. -/
theorem retries_other_first :
    StoppedAt ((runRebaseWithOpName (failedStart (rewordLines.take 2)) twoRewords).calls [])
        twoRewords sampleHelper 1 (rewordCommand sampleHelper "one".toList) ∧
      ¬ ∀ answers, RetriesFailed
        ((runRebaseWithOpName (failedStart (rewordLines.take 2)) twoRewords).calls []) answers
          (rewordCommand sampleHelper "one".toList) := by
  refine ⟨stoppedAt_first, fun h => ?_⟩
  have hrun := h ⟨.ok fine, fun _ => .ok fine, restView, sampleRegistry⟩
  rw [RetriesFailed] at hrun
  exact absurd hrun (by decide +kernel)

end SpkEditor.Rebase
