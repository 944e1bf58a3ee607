import SpkEditor.Git.Rebase

/-!
# The undo row of a rebase

The row is recorded before git runs, and three places settle it: the first run when git is done
or has failed at once, a continuation when git is done, and an abort that succeeds. Everything
else leaves it as it is: an error on the way from the recorded row to the first state, a
continuation that ends in failure, an abort that git refuses, a tip that cannot be read.

So the rows are settled in a run exactly if none of these happens while the row is open.
-/

namespace SpkEditor.Rebase

open Cut Option

variable {env : StartAnswers} {view : RepoView} {todo : RebaseTodo} {output : Output}

/-! ## What is to hold -/

/-- The last call ended with an error, or the rebase is over. -/
def Finished (w : World) : Prop :=
  (∃ err, w.result = .error err) ∨ ∃ h, w.handle = some h ∧
      (h.state = .completed ∨ h.state = .aborted ∨ ∃ message, h.state = .failed message)

def Done (row : Option UndoRow) : Prop := ∀ r, row = some r → r.Settled

/-- **A finished rebase has settled its row.** -/
def RowSettled (w : World) : Prop := Finished w → Done w.row

/-- The two calls that settle a row succeed. -/
def RegistryAnswers.Works (answers : RegistryAnswers) : Prop :=
  answers.complete = .ok () ∧ answers.markFailed = .ok ()

def NoRebaseDir (view : RepoView) : Prop := view.rebaseMerge = false ∧ view.rebaseApply = false

/-- The repository can be read, and its status where a rebase is under way. -/
def Analysable (view : RepoView) : Prop :=
  view.dotGitDir = .ok () ∧ (¬ NoRebaseDir view → ∃ output, view.status = .ok output)

def TipReadable (view : RepoView) (output : Output) (registry : RegistryAnswers) : Prop :=
  NoRebaseDir view → output.success → ∃ tip, registry.readBranchTip = .ok tip

/-- All goes well up to the row. -/
def Recorded (env : StartAnswers) : Prop :=
  env.rebaseAlreadyInProgress = .ok false ∧ env.lock = .ok () ∧
    ∃ branch sha id, env.currentBranch = .ok branch ∧ env.backupCreate branch = .ok sha ∧
      env.record branch sha = .ok id

/-- Every step from the row to the first state succeeds. -/
def Drives (env : StartAnswers) (todo : RebaseTodo) (output : Output) : Prop :=
  env.createSessionDir = .ok () ∧ env.createMessagesDir = .ok () ∧
    (∀ message ∈ todo.messages, env.writeMessage message = .ok ()) ∧
    ∃ helperPath, env.currentExePath = .ok helperPath ∧
      env.writeTodo (todo.serializeWithHelper (helperCommand helperPath)) = .ok () ∧
      env.runGit (todo.serializeWithHelper (helperCommand helperPath)) = .ok output ∧
      Analysable env.view

def StartMeets (env : StartAnswers) (todo : RebaseTodo) : Prop :=
  Recorded env → ∃ output, Drives env todo output ∧ TipReadable env.view output env.registry

/-- Git can be run and read, and the rebase does not end in failure. -/
def ContinuationMeets (answers : CallAnswers) : Prop :=
  ∃ output, answers.runGit = .ok output ∧ Analysable answers.view ∧
    (NoRebaseDir answers.view → output.success) ∧ TipReadable answers.view output answers.registry

/-- There is a command to run again, and it succeeds this time. -/
def RetryMeets (answers : CallAnswers) (h : RebaseHandle) : Prop :=
  ∃ cmd output, h.lastExecCommand = some cmd ∧ answers.runShell cmd = .ok output ∧ output.success

def CallMeets (w : World) (c : Call) : Prop :=
  Done w.row ∨ ∃ h, w.handle = some h ∧
    match c.kind with
    | .continue_ | .skip => ContinuationMeets c.answers
    | .retryExec => RetryMeets c.answers h ∧ ContinuationMeets c.answers
    | .abort => ∃ output, c.answers.runGit = .ok output ∧ output.success

/-! ## Reading the state back -/

theorem not_noRebaseDir_iff :
    (!view.rebaseMerge && !view.rebaseApply) = false ↔ ¬ NoRebaseDir view := by
  rw [NoRebaseDir]
  cases view.rebaseMerge <;> cases view.rebaseApply <;> simp

theorem noRebaseDir_iff : (!view.rebaseMerge && !view.rebaseApply) = true ↔ NoRebaseDir view := by
  rw [NoRebaseDir]
  cases view.rebaseMerge <;> cases view.rebaseApply <;> simp

/-- Without a rebase directory git is done, one way or the other. -/
theorem analyseState_done (ha : Analysable view) (hn : NoRebaseDir view) :
    if output.success then analyseState view output = .ok .completed
    else ∃ message, analyseState view output = .ok (.failed message) := by
  obtain ⟨hu, -⟩ := ha
  rw [analyseState, hu]
  rw [if_pos (noRebaseDir_iff.mpr hn)]
  split
  · rfl
  · exact ⟨_, rfl⟩

theorem analyseState_paused (ha : Analysable view) (hn : ¬ NoRebaseDir view) :
    ∃ state, analyseState view output = .ok state ∧ state ≠ .completed ∧ state ≠ .aborted ∧
      ∀ message, state ≠ .failed message := by
  obtain ⟨hu, hstatus⟩ := ha
  obtain ⟨status, hs⟩ := hstatus hn
  rw [analyseState, hu]
  rw [if_neg (by rw [not_noRebaseDir_iff.mpr hn]; simp), listConflictedPaths, hs]
  simp only [Except.map]
  split
  · rename_i h
    simp at h
  · exact ⟨_, rfl, by simp, by simp, by simp⟩
  · split
    · exact ⟨_, rfl, by simp, by simp, by simp⟩
    · split
      · exact ⟨_, rfl, by simp, by simp, by simp⟩
      · exact ⟨_, rfl, by simp, by simp, by simp⟩

theorem analyseState_error (ha : ¬ Analysable view) :
    ∃ err, analyseState view output = .error err := by
  rw [analyseState]
  rcases hu : view.dotGitDir with err | u
  · exact ⟨err, rfl⟩
  · dsimp only
    have hn : ¬ NoRebaseDir view := fun hn => ha ⟨hu, fun h => absurd hn h⟩
    rw [if_neg (by rw [not_noRebaseDir_iff.mpr hn]; simp), listConflictedPaths]
    rcases hs : view.status with err | status
    · exact ⟨err, rfl⟩
    · exact absurd ⟨hu, fun _ => ⟨status, hs⟩⟩ ha

/-! ## Settling -/

section

variable {answers : RegistryAnswers} {row : Option UndoRow}

theorem complete_done (hw : answers.Works) (after : Text) (row : Option UndoRow) :
    Done (complete answers after row) := by
  obtain ⟨hu, -⟩ := hw
  rw [complete, hu]
  intro r hr
  obtain ⟨r', -, rfl⟩ := Option.map_eq_some_iff.mp hr
  exact .inl rfl

theorem markFailed_done (hw : answers.Works) (row : Option UndoRow) :
    Done (markFailed answers row) := by
  obtain ⟨-, hu⟩ := hw
  rw [markFailed, hu]
  intro r hr
  obtain ⟨r', -, rfl⟩ := Option.map_eq_some_iff.mp hr
  exact .inr rfl

theorem Done.completed (h : Done row) (after : Text) : Done (complete answers after row) := by
  rw [complete.eq_def]
  split
  · intro r hr
    obtain ⟨r', -, rfl⟩ := Option.map_eq_some_iff.mp hr
    exact .inl rfl
  · exact h

theorem Done.marked (h : Done row) : Done (markFailed answers row) := by
  rw [markFailed.eq_def]
  split
  · intro r hr
    obtain ⟨r', -, rfl⟩ := Option.map_eq_some_iff.mp hr
    exact .inr rfl
  · exact h

theorem Done.finalised (h : Done row) (undoId : Option Nat) :
    Done (finaliseCompletion answers undoId row) := by
  rw [finaliseCompletion.eq_def]
  split
  · exact h
  · split
    · exact h.completed _
    · exact h

theorem finaliseCompletion_done_iff (hw : answers.Works) {id : Nat} (h : ¬ Done row) :
    Done (finaliseCompletion answers (some id) row) ↔ ∃ tip, answers.readBranchTip = .ok tip := by
  rw [finaliseCompletion]
  rcases ht : answers.readBranchTip with err | tip
  · exact iff_of_false h (by simp)
  · exact iff_of_true (complete_done hw tip row) ⟨tip, rfl⟩

end

/-! ## One call -/

structure Linked (w : World) : Prop where
  known : ∀ h, w.handle = some h → w.row ≠ none → h.undoId ≠ none
  error : w.handle = none → ∃ err, w.result = .error err

theorem not_finished {w : World} {h : RebaseHandle} (hh : w.handle = some h)
    (hr : w.result = .ok ()) (hc : h.state ≠ .completed) (ha : h.state ≠ .aborted)
    (hf : ∀ message, h.state ≠ .failed message) : ¬ Finished w := by
  rintro (⟨err, he⟩ | ⟨h', hh', hstate⟩)
  · rw [hr] at he
    simp at he
  · obtain rfl := some.inj (hh.symm.trans hh')
    rcases hstate with hs | hs | ⟨message, hs⟩
    · exact hc hs
    · exact ha hs
    · exact hf message hs

section

variable {w : World} {h : RebaseHandle} {answers : CallAnswers}

theorem runContinuation_row (answers : CallAnswers) (h : RebaseHandle) (w : World) :
    (runContinuation answers h w).row = w.row ∨ (runContinuation answers h w).row =
        finaliseCompletion answers.registry h.undoId w.row := by
  rw [runContinuation.eq_def]
  split
  · exact .inl rfl
  · split
    · exact .inl rfl
    · dsimp only
      split
      · exact .inr rfl
      · exact .inl rfl

section

variable (hw : answers.registry.Works) {id : Nat} (hid : h.undoId = some id) (hopen : ¬ Done w.row)
include hw hid hopen

/-- **A continuation with an open row** keeps the promise exactly if it goes well. -/
theorem runContinuation_settled_iff :
    RowSettled (runContinuation answers h w) ↔ ContinuationMeets answers := by
  rw [runContinuation.eq_def]
  rcases hg : answers.runGit with err | output
  · refine iff_of_false (fun hs => hopen (hs (.inl ⟨err, rfl⟩))) ?_
    rintro ⟨output, ho, -⟩
    rw [hg] at ho
    simp at ho
  dsimp only
  by_cases ha : Analysable answers.view
  · by_cases hn : NoRebaseDir answers.view
    · have hdone := @analyseState_done answers.view output ha hn
      by_cases hsuccess : output.success
      · -- git is done: it is up to the tip
        rw [if_pos hsuccess] at hdone
        rw [hdone]
        dsimp only
        rw [if_pos rfl, hid]
        have hrow := @finaliseCompletion_done_iff _ w.row hw id hopen
        constructor
        · intro hs
          have hfin := hs (.inr ⟨_, rfl, .inl rfl⟩)
          exact ⟨output, hg, ha, fun _ => hsuccess, fun _ _ => hrow.mp hfin⟩
        · rintro ⟨output', ho, -, -, htip⟩ -
          obtain rfl := Except.ok.inj (hg.symm.trans ho)
          exact hrow.mpr (htip hn hsuccess)
      · rw [if_neg hsuccess] at hdone
        obtain ⟨message, hdone⟩ := hdone
        rw [hdone]
        dsimp only
        refine iff_of_false (fun hs => hopen (hs (.inr ⟨_, rfl, .inr (.inr ⟨message, rfl⟩)⟩))) ?_
        rintro ⟨output', ho, -, hfine, -⟩
        obtain rfl := Except.ok.inj (hg.symm.trans ho)
        exact hsuccess (hfine hn)
    · obtain ⟨state, hstate, hc, hab, hf⟩ := @analyseState_paused answers.view output ha hn
      rw [hstate]
      refine iff_of_true (fun hfin => absurd hfin (not_finished rfl rfl hc hab hf)) ?_
      exact ⟨output, hg, ha, fun h' => absurd h' hn, fun h' => absurd h' hn⟩
  · obtain ⟨err, herr⟩ := @analyseState_error answers.view output ha
    rw [herr]
    refine iff_of_false (fun hs => hopen (hs (.inl ⟨err, rfl⟩))) ?_
    rintro ⟨-, -, ha', -⟩
    exact ha ha'

theorem abort_settled_iff : RowSettled (abort answers h w) ↔
      ∃ output, answers.runGit = .ok output ∧ output.success := by
  rw [abort.eq_def]
  rcases hg : answers.runGit with err | output
  · exact iff_of_false (fun hs => hopen (hs (.inl ⟨err, rfl⟩))) (by simp)
  · dsimp only
    by_cases hsuccess : output.success
    · rw [if_pos hsuccess, hid]
      exact iff_of_true (fun _ => markFailed_done hw w.row) ⟨output, rfl, hsuccess⟩
    · rw [if_neg hsuccess]
      refine iff_of_false (fun hs => hopen (hs (.inl ⟨_, rfl⟩))) ?_
      rintro ⟨output', ho, hs⟩
      obtain rfl := Except.ok.inj ho
      exact hsuccess hs

theorem retryExec_settled_iff :
    RowSettled (retryExec answers h w) ↔ RetryMeets answers h ∧ ContinuationMeets answers := by
  rw [retryExec.eq_def]
  rcases hcmd : h.lastExecCommand with _ | cmd
  · refine iff_of_false (fun hs => hopen (hs (.inl ⟨_, rfl⟩))) ?_
    rintro ⟨⟨cmd, output, hc, -⟩, -⟩
    rw [hcmd] at hc
    simp at hc
  dsimp only
  rcases hsh : answers.runShell cmd with err | output
  · refine iff_of_false (fun hs => hopen (hs (.inl ⟨_, rfl⟩))) ?_
    rintro ⟨⟨cmd', output, hc, ho, -⟩, -⟩
    obtain rfl := some.inj (hcmd.symm.trans hc)
    rw [hsh] at ho
    simp at ho
  dsimp only
  by_cases hsuccess : output.success
  · rw [if_pos hsuccess]
    have hcont := @runContinuation_settled_iff { w with shellRuns := w.shellRuns ++ [cmd] } h
      answers hw id hid hopen
    rw [hcont]
    exact (and_iff_right ⟨cmd, output, hcmd, hsh, hsuccess⟩).symm
  · rw [if_neg hsuccess]
    refine iff_of_false (fun hs => hopen (hs (.inl ⟨_, rfl⟩))) ?_
    rintro ⟨⟨cmd', output', hc, ho, hs⟩, -⟩
    obtain rfl := some.inj (hcmd.symm.trans hc)
    obtain rfl := Except.ok.inj (hsh.symm.trans ho)
    exact hsuccess hs

end

end

theorem runContinuation_done {w : World} (answers : CallAnswers) (h : RebaseHandle)
    (hd : Done w.row) : Done (runContinuation answers h w).row := by
  rcases runContinuation_row answers h w with hrow | hrow
  · rw [hrow]
    exact hd
  · rw [hrow]
    exact hd.finalised _

theorem Done.call {w : World} (hd : Done w.row) (c : Call) : Done (w.call c).row := by
  rw [World.call.eq_def]
  rcases w.handle with _ | h
  · exact hd
  rcases c.kind with _ | _ | _ | _
  · exact runContinuation_done _ h hd
  · exact runContinuation_done _ h hd
  · dsimp only
    rw [retryExec.eq_def]
    split
    · exact hd
    · dsimp only
      split
      · exact hd
      · split
        · exact runContinuation_done _ h hd
        · exact hd
  · dsimp only
    rw [abort.eq_def]
    split
    · exact hd
    · split
      · dsimp only
        split
        · exact hd
        · exact hd.marked
      · exact hd

theorem Linked.call {w : World} (hl : Linked w) (c : Call) : Linked (w.call c) := by
  rw [World.call.eq_def]
  rcases hh : w.handle with _ | h
  · exact hl
  -- no call takes the handle away, and the row only where the handle knows its id
  have key : ∀ w' : World, (∃ h', w'.handle = some h' ∧ h'.undoId = h.undoId) →
      (w'.row ≠ none → w.row ≠ none) → Linked w' := by
    rintro w' ⟨h', hh', hid⟩ hrow
    refine ⟨?_, fun hnone => ?_⟩
    · intro h'' hh'' hne
      obtain rfl := some.inj (hh'.symm.trans hh'')
      rw [hid]
      exact hl.known h hh (hrow hne)
    · rw [hh'] at hnone
      simp at hnone
  have hcomplete : ∀ answers : RegistryAnswers,
      finaliseCompletion answers h.undoId w.row ≠ none → w.row ≠ none := by
    intro answers hne hnone
    apply hne
    rw [finaliseCompletion.eq_def, hnone]
    split
    · rfl
    · split
      · rw [complete.eq_def]
        split <;> rfl
      · rfl
  have hcont : ∀ w' : World, w'.handle = some h → w'.row = w.row →
      Linked (runContinuation c.answers h w') := by
    intro w' hw' hrow
    rw [runContinuation.eq_def]
    split
    · exact key _ ⟨h, hw', rfl⟩ (by simp [hrow])
    · split
      · exact key _ ⟨h, hw', rfl⟩ (by simp [hrow])
      · refine key _ ⟨_, rfl, rfl⟩ ?_
        split
        · rw [hrow]
          exact hcomplete _
        · simp [hrow]
  rcases c.kind with _ | _ | _ | _
  · exact hcont w hh rfl
  · exact hcont w hh rfl
  · dsimp only
    rw [retryExec.eq_def]
    split
    · exact key _ ⟨h, hh, rfl⟩ id
    · dsimp only
      split
      · exact key _ ⟨h, hh, rfl⟩ id
      · split
        · exact hcont _ hh rfl
        · exact key _ ⟨_, rfl, rfl⟩ id
  · dsimp only
    rw [abort.eq_def]
    split
    · exact key _ ⟨h, hh, rfl⟩ id
    · split
      · refine key _ ⟨_, rfl, rfl⟩ ?_
        intro hne hnone
        apply hne
        rw [hnone]
        split
        · rfl
        · rw [markFailed.eq_def]
          split <;> rfl
      · exact key _ ⟨_, rfl, rfl⟩ id

/-- **One call keeps the promise exactly if the row was settled or the call goes well.** -/
theorem call_settled_iff {w : World} (hl : Linked w) {c : Call}
    (hw : c.answers.registry.Works) (hs : RowSettled w) :
    RowSettled (w.call c) ↔ CallMeets w c := by
  by_cases hd : Done w.row
  · exact iff_of_true (fun _ => hd.call c) (.inl hd)
  -- the row is open, so there is a handle, and it knows the row
  rcases hh : w.handle with _ | h
  · exact absurd (hs (.inl (hl.error hh))) hd
  obtain ⟨id, hid⟩ : ∃ id, h.undoId = some id := by
    refine Option.ne_none_iff_exists'.mp (hl.known h hh ?_)
    intro hnone
    apply hd
    intro r hr
    rw [hnone] at hr
    simp at hr
  rw [CallMeets, or_iff_right hd, hh]
  simp only [Option.some.injEq, exists_eq_left']
  rw [World.call.eq_def, hh]
  rcases c.kind with _ | _ | _ | _
  · exact runContinuation_settled_iff hw hid hd
  · exact runContinuation_settled_iff hw hid hd
  · exact retryExec_settled_iff hw hid hd
  · exact abort_settled_iff hw hid hd

theorem forM_eq_ok {α : Type} (f : α → Except Text Unit) (l : List α) :
    l.forM f = .ok () ↔ ∀ a ∈ l, f a = .ok () := by
  induction l with
  | nil => exact iff_of_true rfl (by simp)
  | cons a l ih =>
    rw [show (a :: l).forM f = (f a >>= fun _ => l.forM f) from rfl, List.forall_mem_cons, ← ih]
    rcases f a with err | u
    · simp [bind, Except.bind]
    · simp [bind, Except.bind]

theorem prepare_eq_ok {branch sha : Text} : prepare env = .ok (branch, sha) ↔
      env.rebaseAlreadyInProgress = .ok false ∧ env.lock = .ok () ∧
        env.currentBranch = .ok branch ∧ env.backupCreate branch = .ok sha := by
  rw [prepare]
  rcases env.rebaseAlreadyInProgress with err | busy
  · simp [bind, Except.bind]
  cases busy with
  | true => simp [bind, Except.bind]
  | false =>
    rcases env.lock with err | u
    · simp [bind, Except.bind]
    rcases env.currentBranch with err | b
    · simp [bind, Except.bind]
    rcases hb : env.backupCreate b with err | s
    · simp only [bind, Except.bind, hb]
      constructor
      · simp
      · rintro ⟨-, -, h, h'⟩
        obtain rfl := Except.ok.inj h
        rw [hb] at h'
        simp at h'
    · simp only [bind, Except.bind, hb, pure, Except.pure, true_and]
      constructor
      · intro h
        obtain ⟨rfl, rfl⟩ := Prod.mk.inj (Except.ok.inj h)
        exact ⟨rfl, hb⟩
      · rintro ⟨h, h'⟩
        obtain rfl := Except.ok.inj h
        rw [hb] at h'
        obtain rfl := Except.ok.inj h'
        rfl

/-- The way to the first state, if nothing fails before git is read. -/
theorem drive_of_drives {helperPath : Text} (h : Drives env todo output)
    (hpath : env.currentExePath = .ok helperPath) :
    drive env todo =
      (analyseState env.view output).map fun state => (state, helperCommand helperPath) := by
  obtain ⟨h1, h2, h3, path, hpath', h4, h5, -⟩ := h
  obtain rfl := Except.ok.inj (hpath.symm.trans hpath')
  rw [drive, h1, h2, (forM_eq_ok _ _).mpr h3, hpath]
  simp only [bind, Except.bind, h4, h5, pure, Except.pure, Except.map]

theorem drive_error
    (h : ¬ ∃ output, Drives env todo output) : ∃ err, drive env todo = .error err := by
  rcases hd : drive env todo with err | p
  · exact ⟨err, rfl⟩
  refine absurd ?_ h
  rw [drive] at hd
  rcases h1 : env.createSessionDir with err | u
  · simp [h1, bind, Except.bind] at hd
  rcases h2 : env.createMessagesDir with err | u
  · simp [h1, h2, bind, Except.bind] at hd
  rcases h3 : todo.messages.forM env.writeMessage with err | u
  · simp [h1, h2, h3, bind, Except.bind] at hd
  rcases h4 : env.currentExePath with err | helperPath
  · simp [h1, h2, h3, h4, bind, Except.bind] at hd
  rcases h5 : env.writeTodo (todo.serializeWithHelper (helperCommand helperPath)) with err | u
  · simp [h1, h2, h3, h4, h5, bind, Except.bind] at hd
  rcases h6 : env.runGit (todo.serializeWithHelper (helperCommand helperPath)) with err | output
  · simp [h1, h2, h3, h4, h5, h6, bind, Except.bind] at hd
  refine ⟨output, h1, h2, (forM_eq_ok _ _).mp h3, helperPath, h4, h5, h6, ?_⟩
  by_contra ha
  obtain ⟨err, herr⟩ := @analyseState_error env.view output ha
  simp [h1, h2, h3, h4, h5, h6, herr, bind, Except.bind] at hd

theorem Drives.output_eq {o o' : Output}
    (h : Drives env todo o) (h' : Drives env todo o') : o = o' := by
  obtain ⟨-, -, -, path, hpath, -, hgit, -⟩ := h
  obtain ⟨-, -, -, path', hpath', -, hgit', -⟩ := h'
  obtain rfl := Except.ok.inj (hpath.symm.trans hpath')
  exact Except.ok.inj (hgit.symm.trans hgit')

theorem start_not_recorded (todo : RebaseTodo) (h : ¬ Recorded env) :
    (runRebaseWithOpName env todo).row = none := by
  rw [runRebaseWithOpName]
  rcases hp : prepare env with err | ⟨branch, sha⟩
  · rfl
  obtain ⟨h1, h2, h3, h4⟩ := prepare_eq_ok.mp hp
  dsimp only
  rcases hr : env.record branch sha with err | id
  · simp only [Except.toOption, map_none]
    rcases drive env todo with err | ⟨state, helperCmd⟩
    · rfl
    · cases state <;> rfl
  · exact absurd ⟨h1, h2, branch, sha, id, h3, h4, hr⟩ h

theorem start_linked (env : StartAnswers) (todo : RebaseTodo) :
    Linked (runRebaseWithOpName env todo) := by
  by_cases hrec : Recorded env
  · obtain ⟨h1, h2, branch, sha, id, h3, h4, h5⟩ := hrec
    rw [runRebaseWithOpName, prepare_eq_ok.mpr ⟨h1, h2, h3, h4⟩]
    dsimp only
    rw [h5]
    rcases drive env todo with err | ⟨state, helperCmd⟩
    · exact ⟨by simp, fun _ => ⟨err, rfl⟩⟩
    · refine ⟨?_, by simp⟩
      intro h hh _
      cases hh
      simp [Except.toOption]
  · refine ⟨fun h _ hrow => absurd (start_not_recorded todo hrec) hrow, ?_⟩
    rw [runRebaseWithOpName]
    rcases prepare env with err | ⟨branch, sha⟩
    · exact fun _ => ⟨err, rfl⟩
    · dsimp only
      rcases drive env todo with err | ⟨state, helperCmd⟩
      · exact fun _ => ⟨err, rfl⟩
      · simp

/-- **The first run keeps the promise exactly if nothing fails behind the row.** -/
theorem start_settled_iff (hw : env.registry.Works) :
    RowSettled (runRebaseWithOpName env todo) ↔ StartMeets env todo := by
  by_cases hrec : Recorded env
  swap
  · refine iff_of_true (fun _ r hr => ?_) fun h => absurd h hrec
    rw [start_not_recorded todo hrec] at hr
    simp at hr
  have hopen : ¬ Done (some (⟨none, false⟩ : UndoRow)) := by
    intro hd
    have := hd _ rfl
    simp [UndoRow.Settled] at this
  obtain ⟨h1, h2, branch, sha, id, h3, h4, h5⟩ := hrec
  rw [StartMeets, runRebaseWithOpName, prepare_eq_ok.mpr ⟨h1, h2, h3, h4⟩]
  rw [imp_iff_right (show Recorded env from ⟨h1, h2, branch, sha, id, h3, h4, h5⟩)]
  dsimp only
  rw [h5]
  by_cases hdr : ∃ output, Drives env todo output
  swap
  · obtain ⟨err, herr⟩ := drive_error hdr
    rw [herr]
    refine iff_of_false (fun hs => hopen (hs (.inl ⟨err, rfl⟩))) ?_
    rintro ⟨output, h, -⟩
    exact hdr ⟨output, h⟩
  obtain ⟨output, hdr⟩ := hdr
  have hall := hdr
  obtain ⟨-, -, -, path, hpath, -, -, ha⟩ := hall
  have hdrive := drive_of_drives hdr hpath
  rw [hdrive]
  by_cases hn : NoRebaseDir env.view
  · have hdone := @analyseState_done env.view output ha hn
    by_cases hsuccess : output.success
    · rw [if_pos hsuccess] at hdone
      rw [hdone]
      have hrow := @finaliseCompletion_done_iff env.registry _ hw id hopen
      constructor
      · intro hs
        have hfin := hs (.inr ⟨_, rfl, .inl rfl⟩)
        exact ⟨output, hdr, fun _ _ => hrow.mp hfin⟩
      · rintro ⟨output', hdr', htip⟩ -
        obtain rfl := hdr.output_eq hdr'
        exact hrow.mpr (htip hn hsuccess)
    · rw [if_neg hsuccess] at hdone
      obtain ⟨message, hdone⟩ := hdone
      rw [hdone]
      refine iff_of_true (fun _ => markFailed_done hw _) ⟨output, hdr, fun _ h => ?_⟩
      exact absurd h hsuccess
  · obtain ⟨state, hstate, hc, hab, hf⟩ := @analyseState_paused env.view output ha hn
    rw [hstate]
    refine iff_of_true (fun hfin => absurd hfin (not_finished rfl rfl hc hab hf)) ?_
    exact ⟨output, hdr, fun h => absurd h hn⟩

theorem linked_calls (env : StartAnswers) (todo : RebaseTodo) (cs : List Call) :
    Linked ((runRebaseWithOpName env todo).calls cs) := by
  induction cs using List.reverseRecOn with
  | nil => exact start_linked env todo
  | append_singleton cs c ih =>
    rw [World.calls_snoc]
    exact ih.call c

/-- **The row of a rebase is settled whenever the rebase has finished, exactly if** nothing
fails between the row and the first state, and every call on the handle finds the row settled
or goes well. -/
theorem undo_rows_settled_iff {env : StartAnswers} {todo : RebaseTodo} {cs : List Call}
    (hw : env.registry.Works) (hws : ∀ c ∈ cs, c.answers.registry.Works) :
    (∀ before after, cs = before ++ after →
        RowSettled ((runRebaseWithOpName env todo).calls before)) ↔
      StartMeets env todo ∧ ∀ before c after, cs = before ++ c :: after →
        CallMeets ((runRebaseWithOpName env todo).calls before) c := by
  have hstart := @start_settled_iff env todo hw
  constructor
  · intro h
    refine ⟨hstart.mp (h [] cs rfl), ?_⟩
    rintro before c after rfl
    refine (call_settled_iff (linked_calls env todo before)
      (hws c (by simp)) (h before (c :: after) rfl)).mp ?_
    rw [← World.calls_snoc]
    exact h (before ++ [c]) after (by simp)
  · rintro ⟨hs, hcalls⟩ before
    induction before using List.reverseRecOn with
    | nil => exact fun _ _ => hstart.mpr hs
    | append_singleton before c ih =>
      rintro after rfl
      rw [World.calls_snoc]
      refine (call_settled_iff (linked_calls env todo before) (hws c (by simp))
        (ih (c :: after) (by simp))).mpr ?_
      exact hcalls before c after (by simp)

def fine : Output := ⟨true, some 0, [], []⟩

/-- A repository with no rebase under way. -/
def restView : RepoView := ⟨.ok (), false, false, .ok fine, none, none⟩

/-- A repository in which a rebase waits for a conflict to be resolved. -/
def conflictView : RepoView :=
  { restView with rebaseMerge := true, status := .ok ⟨true, some 0, "UU a.txt\n".toList, []⟩ }

def sampleRegistry : RegistryAnswers := ⟨.ok "c0ffee".toList, .ok (), .ok ()⟩

/-- Everything works; git stops as `view` and `output` say. -/
def sampleStart (view : RepoView) (output : Output) : StartAnswers where
  rebaseAlreadyInProgress := .ok false
  lock := .ok ()
  currentBranch := .ok "main".toList
  backupCreate _ := .ok "beef".toList
  record _ _ := .ok 1
  createSessionDir := .ok ()
  createMessagesDir := .ok ()
  writeMessage _ := .ok ()
  currentExePath := .ok "/usr/bin/spk".toList
  writeTodo _ := .ok ()
  runGit _ := .ok output
  view
  registry := sampleRegistry

def sampleTodo : RebaseTodo := ⟨[.pick "beef".toList], []⟩

/-- `git rebase --continue` that finishes the rebase. -/
def sampleContinue : Call := ⟨.continue_, .ok fine, fun _ => .ok fine, restView, sampleRegistry⟩

/-- A rebase that stops at a conflict and is continued keeps the promise. -/
theorem undo_rows_settled_continued :
    RowSettled ((runRebaseWithOpName (sampleStart conflictView ⟨false, some 1, [], []⟩)
      sampleTodo).calls [sampleContinue]) := by
  have hw : sampleRegistry.Works := ⟨rfl, rfl⟩
  refine (undo_rows_settled_iff hw (by simpa [sampleContinue] using hw)).mpr ⟨?_, ?_⟩
    [sampleContinue] [] rfl
  · rintro -
    refine ⟨⟨false, some 1, [], []⟩, ⟨rfl, rfl, by simp [sampleTodo], _, rfl, rfl, rfl, rfl, ?_⟩,
      ?_⟩
    · exact fun _ => ⟨_, rfl⟩
    · exact fun _ h => absurd h (by decide)
  · intro before c after h
    obtain ⟨rfl, rfl, -⟩ : before = [] ∧ c = sampleContinue ∧ after = [] := by
      cases before with
      | nil => simpa [eq_comm] using h
      | cons b before => simp at h
    refine .inr ⟨_, rfl, fine, rfl, ⟨rfl, ?_⟩, fun _ => rfl, fun _ _ => ⟨_, rfl⟩⟩
    exact fun hn => absurd ⟨rfl, rfl⟩ hn

/-- The todo list cannot be written: the call ends with an error, and the row that has been
recorded is left as it is. -/
theorem undo_row_left_open : sampleRegistry.Works ∧ ¬ RowSettled (runRebaseWithOpName
        { sampleStart restView fine with
          writeTodo := fun _ => .error "No space left on device".toList } sampleTodo) := by
  refine ⟨⟨rfl, rfl⟩, fun h => ?_⟩
  have := h (.inl ⟨_, rfl⟩) ⟨none, false⟩ rfl
  simp [UndoRow.Settled] at this

end SpkEditor.Rebase
