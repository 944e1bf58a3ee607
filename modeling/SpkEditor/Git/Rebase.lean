import SpkEditor.Lib.Cut
import SpkEditor.Lib.Utf8

/-!
# Interactive rebase

`git/src/operations/rebase.rs`: a todo list is built ahead, `git rebase -i` is run on it, and
what git has left behind is read back into a `RebaseState`. Until the rebase is over the handle
can be told to continue, to skip, to abort, or to run the failed command once more.

Every file operation and every command can fail, and git decides where it stops. So a step is
determined by what it is answered: `StartAnswers` and `CallAnswers` hold the answers, in the
order in which the code asks.
-/

namespace SpkEditor.Rebase

open Cut

abbrev Text := List Char

/-! ## The todo list -/

inductive TodoStep where
  | pick (sha : Text)
  | squash (sha : Text)
  | fixup (sha : Text)
  | drop (sha : Text)
  | edit (sha : Text)
  /-- `pick`, and an `exec` of the helper with the token. -/
  | reword (sha token : Text)
  | exec (command : Text)

structure RebaseTodo where
  steps : List TodoStep
  /-- The new messages, by their tokens. -/
  messages : List (Text × Text)

def todoLine (word : String) (rest : Text) : Text := word.toList ++ ' ' :: rest ++ ['\n']

def rewordCommand (helperCmd token : Text) : Text := helperCmd ++ ' ' :: token

def TodoStep.serialize (helperCmd : Text) : TodoStep → Text
  | .pick sha => todoLine "pick" sha
  | .squash sha => todoLine "squash" sha
  | .fixup sha => todoLine "fixup" sha
  | .drop sha => todoLine "drop" sha
  | .edit sha => todoLine "edit" sha
  | .reword sha token => todoLine "pick" sha ++ todoLine "exec" (rewordCommand helperCmd token)
  | .exec command => todoLine "exec" command

def RebaseTodo.serializeWithHelper (todo : RebaseTodo) (helperCmd : Text) : Text :=
  todo.steps.flatMap (TodoStep.serialize helperCmd)

def TodoStep.execCommand (helperCmd : Text) : TodoStep → Option Text
  | .exec command => some command
  | .reword _ token => some (rewordCommand helperCmd token)
  | _ => none

def extractLastExecCommand (todo : RebaseTodo) (helperCmd : Text) : Option Text :=
  todo.steps.reverse.findSome? (TodoStep.execCommand helperCmd)

/-- `shell_quote`. -/
def shellQuote (input : Text) : Text :=
  if input ≠ [] ∧ input.all (fun c => c.isAlphanum || c ∈ ['/', '.', '_', '-', '+', ':']) then
    input
  else
    '\'' :: input.flatMap (fun c => if c = '\'' then ['\'', '\\', '\'', '\''] else [c]) ++ ['\'']

def helperCommand (helperPath : Text) : Text :=
  shellQuote helperPath ++ " --git-message-set".toList

/-! ## What git leaves behind -/

/-- `std::process::Output`, its texts decoded. -/
structure Output where
  success : Bool
  code : Option Int
  stdout : Text
  stderr : Text

/-- What `analyse_state` finds in the repository. -/
structure RepoView where
  /-- `dot_git_dir`. -/
  dotGitDir : Except Text Unit
  rebaseMerge : Bool
  rebaseApply : Bool
  /-- `git status --porcelain`. -/
  status : Except Text Output
  /-- The file `done`, if it can be read. -/
  doneFile : Option Text
  /-- The file `stopped-sha`, if it can be read. -/
  stoppedSha : Option Text

inductive RebaseState where
  | running
  | pausedForConflict (conflictedFiles : List Text)
  | pausedForEdit (currentSha : Text)
  | pausedForExecFailure (command stderr : Text)
  | completed
  | aborted
  | failed (message : Text)
deriving DecidableEq

/-- A line of `git status --porcelain` of a path in conflict. -/
def conflictedPath (line : Text) : Option Text :=
  if byteLen line < 4 then none
  else
    let xy := line.take 2
    if xy ∈ ["DD".toList, "AU".toList, "UD".toList, "UA".toList, "DU".toList, "AA".toList,
        "UU".toList] ∨ xy.head? = some 'U' ∨ xy.getLast? = some 'U' then
      some (trim (line.drop 3))
    else none

def listConflictedPaths (view : RepoView) : Except Text (List Text) :=
  view.status.map fun output =>
    if output.success then (lines output.stdout).filterMap conflictedPath else []

def toAsciiLowercase (text : Text) : Text := text.map Char.toLower

/-- The last line of the file `done`. -/
def lastDone (view : RepoView) : Text :=
  ((view.doneFile.bind fun body =>
    (lines body).reverse.find? fun l => trim l ≠ []).getD "<unknown exec>".toList)

def analyseState (view : RepoView) (output : Output) : Except Text RebaseState :=
  match view.dotGitDir with
  | .error err => .error err
  | .ok _ =>
    if !view.rebaseMerge && !view.rebaseApply then
      if output.success then .ok .completed
      else
        .ok (.failed ("git rebase exited ".toList ++
          (toString (output.code.getD (-1))).toList ++ ": ".toList ++ trim output.stderr))
    else
      match listConflictedPaths view with
      | .error err => .error err
      | .ok (path :: paths) => .ok (.pausedForConflict (path :: paths))
      | .ok [] =>
        let stderrLower := toAsciiLowercase output.stderr
        if "execution failed".toList <:+: stderrLower ∨
            "execution of".toList <:+: stderrLower then
          .ok (.pausedForExecFailure (lastDone view) (trim output.stderr))
        else
          match view.stoppedSha.map trim with
          | some (c :: sha) => .ok (.pausedForEdit (c :: sha))
          | _ => .ok (.pausedForConflict [])

/-! ## The registry and the handle -/

structure UndoRow where
  afterSha : Option Text
  failed : Bool

def UndoRow.Settled (row : UndoRow) : Prop := row.afterSha.isSome ∨ row.failed

structure RebaseHandle where
  state : RebaseState
  lastExecCommand : Option Text
  undoId : Option Nat

/-- The handle, if there is one; the row, if one was recorded; how the last call ended; and
every command that was handed to a shell. -/
structure World where
  handle : Option RebaseHandle
  row : Option UndoRow
  result : Except Text Unit
  shellRuns : List Text

/-- What the calls that end a rebase are answered. -/
structure RegistryAnswers where
  readBranchTip : Except Text Text
  complete : Except Text Unit
  markFailed : Except Text Unit

/-- `undo_registry::complete`. -/
def complete (answers : RegistryAnswers) (afterSha : Text) (row : Option UndoRow) :
    Option UndoRow :=
  match answers.complete with
  | .ok _ => row.map fun row => { row with afterSha := some afterSha }
  | .error _ => row

/-- `undo_registry::mark_failed`. -/
def markFailed (answers : RegistryAnswers) (row : Option UndoRow) : Option UndoRow :=
  match answers.markFailed with
  | .ok _ => row.map fun row => { row with failed := true }
  | .error _ => row

/-- `finalise_completion`. -/
def finaliseCompletion (answers : RegistryAnswers) (undoId : Option Nat)
    (row : Option UndoRow) : Option UndoRow :=
  match undoId with
  | none => row
  | some _ =>
    match answers.readBranchTip with
    | .ok after => complete answers after row
    | .error _ => row

/-! ## Starting -/

structure StartAnswers where
  rebaseAlreadyInProgress : Except Text Bool
  lock : Except Text Unit
  currentBranch : Except Text Text
  backupCreate : Text → Except Text Text
  record : Text → Text → Except Text Nat
  createSessionDir : Except Text Unit
  createMessagesDir : Except Text Unit
  writeMessage : Text × Text → Except Text Unit
  currentExePath : Except Text Text
  writeTodo : Text → Except Text Unit
  /-- `git rebase -i`, by the todo list the helper hands to it. -/
  runGit : Text → Except Text Output
  view : RepoView
  registry : RegistryAnswers

/-- Up to the backup: nothing is recorded yet. -/
def prepare (env : StartAnswers) : Except Text (Text × Text) := do
  if ← env.rebaseAlreadyInProgress then
    .error "External rebase in progress in this repository".toList
  match env.lock with
  | .error err => .error ("repo busy: ".toList ++ err)
  | .ok _ => do
      let branch ← env.currentBranch
      let beforeSha ← env.backupCreate branch
      pure (branch, beforeSha)

/-- From the recorded row to the state that git leaves: every step leaves on an error. -/
def drive (env : StartAnswers) (todo : RebaseTodo) : Except Text (RebaseState × Text) := do
  env.createSessionDir
  env.createMessagesDir
  todo.messages.forM env.writeMessage
  let helperPath ← env.currentExePath
  let helperCmd := helperCommand helperPath
  let todoBody := todo.serializeWithHelper helperCmd
  env.writeTodo todoBody
  let output ← env.runGit todoBody
  let state ← analyseState env.view output
  pure (state, helperCmd)

def settleFirst (answers : RegistryAnswers) (undoId : Option Nat) (row : Option UndoRow) :
    RebaseState → Option UndoRow
  | .completed => finaliseCompletion answers undoId row
  | .failed _ =>
    match undoId with
    | none => row
    | some _ => markFailed answers row
  | _ => row

/-- `run_rebase_with_op_name`. The callbacks get the handle last, so their calls are the
first ones on it. -/
def runRebaseWithOpName (env : StartAnswers) (todo : RebaseTodo) : World :=
  match prepare env with
  | .error err => ⟨none, none, .error err, []⟩
  | .ok (branch, beforeSha) =>
    let undoId := (env.record branch beforeSha).toOption
    let row : Option UndoRow := undoId.map fun _ => ⟨none, false⟩
    match drive env todo with
    | .error err => ⟨none, row, .error err, []⟩
    | .ok (state, helperCmd) =>
      ⟨some ⟨state, extractLastExecCommand todo helperCmd, undoId⟩,
        settleFirst env.registry undoId row state, .ok (), []⟩

/-! ## Calls on the handle -/

inductive CallKind where
  | continue_
  | skip
  | retryExec
  | abort

structure CallAnswers where
  /-- `git rebase` with `--continue`, `--skip` or `--abort`. -/
  runGit : Except Text Output
  /-- The shell, by the command it is given. -/
  runShell : Text → Except Text Output
  view : RepoView
  registry : RegistryAnswers

structure Call where
  kind : CallKind
  answers : CallAnswers

/-- `run_continuation`. -/
def runContinuation (answers : CallAnswers) (h : RebaseHandle) (w : World) : World :=
  match answers.runGit with
  | .error err => { w with result := .error err }
  | .ok output =>
    match analyseState answers.view output with
    | .error err => { w with result := .error err }
    | .ok state =>
      { w with
        handle := some { h with state }
        row :=
          if state = .completed then finaliseCompletion answers.registry h.undoId w.row
          else w.row
        result := .ok () }

def abort (answers : CallAnswers) (h : RebaseHandle) (w : World) : World :=
  match answers.runGit with
  | .error err => { w with result := .error err }
  | .ok output =>
    if output.success then
      { w with
        handle := some { h with state := .aborted }
        row :=
          match h.undoId with
          | none => w.row
          | some _ => markFailed answers.registry w.row
        result := .ok () }
    else
      { w with
        handle := some { h with state := .failed (trim output.stderr) }
        result := .error ("git rebase --abort failed: ".toList ++ trim output.stderr) }

def retryExec (answers : CallAnswers) (h : RebaseHandle) (w : World) : World :=
  match h.lastExecCommand with
  | none => { w with result := .error "no exec command to retry".toList }
  | some cmd =>
    let w := { w with shellRuns := w.shellRuns ++ [cmd] }
    match answers.runShell cmd with
    | .error err => { w with result := .error err }
    | .ok output =>
      if output.success then runContinuation answers h w
      else
        { w with
          handle := some { h with state := .pausedForExecFailure cmd (trim output.stderr) }
          result := .error ("retry of exec failed: ".toList ++ trim output.stderr) }

def World.call (w : World) (c : Call) : World :=
  match w.handle with
  | none => w
  | some h =>
    match c.kind with
    | .continue_ | .skip => runContinuation c.answers h w
    | .retryExec => retryExec c.answers h w
    | .abort => abort c.answers h w

def World.calls (w : World) (cs : List Call) : World := cs.foldl World.call w

theorem World.calls_snoc (w : World) (cs : List Call) (c : Call) :
    w.calls (cs ++ [c]) = (w.calls cs).call c := by
  simp [World.calls]

end SpkEditor.Rebase
