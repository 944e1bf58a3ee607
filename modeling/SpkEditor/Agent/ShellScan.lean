import SpkEditor.Agent.JsonlScan
import SpkEditor.Agent.Queue

/-!
# Completions of background shells

A background shell is done when the agent appends a notification with its id to the parent
transcript. The editor finds it by the scan of that transcript, with a cursor that is made
on the first tick that sees a shell, at the end of what is there, and that is not moved when
a rotation changes the transcript.

The lines between the cursor and the end are handed out, so a notification is found by the
tick that comes to it if the cursor was not behind it. The cursor can be behind it in three
ways: it is not there yet and the tick puts it at the end; it was carried over from another
transcript; or the notification is in a transcript that is no longer read.
-/

namespace SpkEditor.ShellScan

open Cut Lines JsonlScan List

variable {shells : List BackgroundShell} {id : BackgroundShellId} {tn : TaskNotification}

abbrev BackgroundShellId := List Char

inductive ShellRuntimeState where
  | running
  | exited (code : Option Int)
  | killed
  deriving DecidableEq

/-- A tracked shell, as far as the scan reads it. -/
structure BackgroundShell where
  id : BackgroundShellId
  state : ShellRuntimeState
  deriving DecidableEq

structure TaskNotification where
  id : BackgroundShellId
  status : ShellRuntimeState

/-- `contains`. -/
def contains (pat text : List Char) : Bool := (cutAt pat text).isSome

/-- `[^<\s]` of `task_id_re`. -/
def isTaskIdChar (c : Char) : Bool := c != '<' && !isWhitespace c

/-- A match of `task_id_re` at the front: its group. -/
def taskIdHere (text : List Char) : Option BackgroundShellId :=
  match stripFront "<task-id>".toList text with
  | none => none
  | some rest =>
    let rest := rest.dropWhile isWhitespace
    let id := rest.takeWhile isTaskIdChar
    let rest := (rest.dropWhile isTaskIdChar).dropWhile isWhitespace
    if id ≠ [] ∧ (stripFront "</task-id>".toList rest).isSome then some id else none

/-- The first match of `task_id_re`. -/
def taskId : List Char → Option BackgroundShellId
  | [] => none
  | c :: text =>
    match taskIdHere (c :: text) with
    | some id => some id
    | none => taskId text

/-- `parse_task_notification`. `exitCode` is the number that `exit_code_re` finds, if it is
one. -/
def parseTaskNotification (exitCode : List Char → Option Int) (text : List Char) :
    Option TaskNotification :=
  if contains "<task-notification>".toList text then
    (taskId text).map fun id => ⟨id, .exited (exitCode text)⟩
  else none

def tracked (shells : List BackgroundShell) (id : BackgroundShellId) : Bool :=
  shells.any fun sh => sh.id == id

def anyRunning (shells : List BackgroundShell) : Bool := shells.any fun sh => sh.state == .running

/-- `scan_lines_for_completions`. -/
def scanLinesForCompletions (exitCode : List Char → Option Int) (found : List (List Char))
    (shells : List BackgroundShell) : List TaskNotification :=
  found.filterMap fun line => (parseTaskNotification exitCode line).filter fun tn => tracked shells tn.id

/-- `mark_background_shell_state`. -/
def markBackgroundShellState (shells : List BackgroundShell) (id : BackgroundShellId)
    (state : ShellRuntimeState) : List BackgroundShell :=
  shells.map fun sh => if sh.id = id then { sh with state := state } else sh

/-- A line that the agent appends in one piece, shorter than one read of the scan. -/
structure Line where
  bytes : List UInt8
  whole : newline ∉ bytes
  short : bytes.length < PARENT_JSONL_READ_CAP

/-- What a transcript holds. -/
def fileBytes (transcript : List Line) : List UInt8 := joined newline (transcript.map Line.bytes)

/-- The history: a shell was tracked when its notification was appended, to this transcript
and behind so many bytes. No code reads it. -/
structure Notified where
  id : BackgroundShellId
  transcript : AcpSessionId
  position : Nat
  deriving DecidableEq

/-- A session with its shells, the transcripts on disk, and its entry in
`parent_jsonl_scan_offsets`. -/
structure Session where
  shells : List BackgroundShell
  acpSessionId : AcpSessionId
  transcripts : AcpSessionId → Option (List Line)
  scanOffset : Option Nat
  notified : List Notified

inductive Event where
  /-- The launch of a shell is seen. -/
  | register (id : BackgroundShellId)
  /-- The agent writes a line to the transcript of the session. -/
  | append (line : Line)
  /-- The session goes on with another transcript. -/
  | rotate (acpSessionId : AcpSessionId)
  | tick (readable : Bool)
  /-- The agent has stopped the shell. -/
  | kill (id : BackgroundShellId)
  /-- The health check drops the shell. -/
  | reap (id : BackgroundShellId)

namespace Session

variable (exitCode : List Char → Option Int) (s : Session)

/-- The current transcript; nothing before the first line. -/
def transcript : List Line := (s.transcripts s.acpSessionId).getD []

/-- The registration in `apply_subagent_lifecycle`: a shell that is tracked stays as it is. -/
def register (id : BackgroundShellId) : Session :=
  if tracked s.shells id then s
  else
    { s with
      shells := s.shells ++ [⟨id, .running⟩]
      notified := s.notified.filter fun n => n.id ≠ id }

def appendLine (line : Line) : Session :=
  { s with
    transcripts := Function.update s.transcripts s.acpSessionId (some (s.transcript ++ [line]))
    notified :=
      match parseTaskNotification exitCode (lineText line.bytes) with
      | none => s.notified
      | some tn =>
        if tracked s.shells tn.id then
          s.notified ++ [⟨tn.id, s.acpSessionId, (fileBytes s.transcript).length⟩]
        else s.notified }

/-- `scan_parent_jsonl_for_completions`. -/
def scanParentJsonlForCompletions (readable : Bool) : Session :=
  if s.shells.isEmpty then { s with scanOffset := none }
  else if anyRunning s.shells = false then s
  else
    match s.transcripts s.acpSessionId with
    | none => s
    | some transcript =>
      let len := (fileBytes transcript).length
      match s.scanOffset with
      | none => { s with scanOffset := some len }
      | some off =>
        let offset := if len < off then 0 else off
        if len ≤ offset then s
        else if readable then
          let read := readCompleteLinesFrom (fileBytes transcript) offset len
          { s with
            scanOffset := some (offset + read.2)
            shells := (scanLinesForCompletions exitCode read.1 s.shells).foldl
              (fun shells tn => markBackgroundShellState shells tn.id tn.status) s.shells }
        else s

def step : Event → Session
  | .register id => s.register id
  | .append line => s.appendLine exitCode line
  | .rotate acpSessionId => { s with acpSessionId := acpSessionId }
  | .tick readable => s.scanParentJsonlForCompletions exitCode readable
  | .kill id => { s with shells := markBackgroundShellState s.shells id .killed }
  | .reap id => { s with shells := s.shells.filter fun sh => sh.id ≠ id }

def run (events : List Event) : Session := events.foldl (fun s event => s.step exitCode event) s

def Running (id : BackgroundShellId) : Prop := ∃ sh ∈ s.shells, sh.id = id ∧ sh.state = .running

def ReadToEnd : Prop :=
  ∃ transcript, s.transcripts s.acpSessionId = some transcript ∧
    s.scanOffset = some (fileBytes transcript).length

/-- Every shell that was tracked when its notification was appended is seen as done. -/
def AllSeen : Prop := ∀ n ∈ s.notified, ¬ s.Running n.id

/-- What a tick needs: each notification that is still to be seen is in the current
transcript, and the cursor is there and not behind it, or so far out that the scan starts
again. -/
def Finds : Prop :=
  ∀ n ∈ s.notified, s.Running n.id → n.transcript = s.acpSessionId ∧
      ∃ off, s.scanOffset = some off ∧ (off ≤ n.position ∨ (fileBytes s.transcript).length < off)

end Session

/-! ## What a scan marks -/

def Done (shells : List BackgroundShell) (id : BackgroundShellId) : Prop :=
  ∀ sh ∈ shells, sh.id = id → sh.state ≠ .running

theorem Session.not_running_iff {s : Session} : ¬ s.Running id ↔ Done s.shells id := by
  simp only [Session.Running, Done, not_exists, not_and]

theorem mem_mark {state : ShellRuntimeState} {sh : BackgroundShell}
    (h : sh ∈ markBackgroundShellState shells id state) :
    sh ∈ shells ∧ sh.id ≠ id ∨ sh.id = id ∧ sh.state = state := by
  obtain ⟨old, hold, rfl⟩ := List.mem_map.mp h
  by_cases hid : old.id = id
  · rw [if_pos hid]
    exact .inr ⟨hid, rfl⟩
  · rw [if_neg hid]
    exact .inl ⟨hold, hid⟩

theorem done_mark {state : ShellRuntimeState} (hstate : state ≠ .running) :
    Done (markBackgroundShellState shells id state) id := by
  intro sh hsh hid
  rcases mem_mark hsh with ⟨-, hne⟩ | ⟨-, hst⟩
  · exact absurd hid hne
  · rw [hst]
    exact hstate

theorem Done.mark {id' : BackgroundShellId}
    {state : ShellRuntimeState} (h : Done shells id') (hstate : state ≠ .running) :
    Done (markBackgroundShellState shells id state) id' := by
  intro sh hsh hid
  rcases mem_mark hsh with ⟨hmem, -⟩ | ⟨-, hst⟩
  · exact h sh hmem hid
  · rw [hst]
    exact hstate

def markAll (shells : List BackgroundShell) (completions : List TaskNotification) :
    List BackgroundShell :=
  completions.foldl (fun shells tn => markBackgroundShellState shells tn.id tn.status) shells

theorem Done.markAll (h : Done shells id)
    {completions : List TaskNotification} (hc : ∀ tn ∈ completions, tn.status ≠ .running) :
    Done (markAll shells completions) id := by
  induction completions generalizing shells with
  | nil => exact h
  | cons tn completions ih =>
    obtain ⟨htn, hrest⟩ := List.forall_mem_cons.mp hc
    exact ih (h.mark htn) hrest

theorem done_markAll {completions : List TaskNotification}
    (hc : ∀ tn ∈ completions, tn.status ≠ .running)
    (h : tn ∈ completions) : Done (markAll shells completions) tn.id := by
  induction completions generalizing shells with
  | nil => cases h
  | cons first completions ih =>
    obtain ⟨hfirst, hrest⟩ := List.forall_mem_cons.mp hc
    rcases List.mem_cons.mp h with rfl | h
    · exact (done_mark hfirst).markAll hrest
    · exact ih hrest h

variable {exitCode : List Char → Option Int}

theorem parseTaskNotification_some {text : List Char}
    (h : parseTaskNotification exitCode text = some tn) : text ≠ [] ∧ tn.status ≠ .running := by
  rw [parseTaskNotification] at h
  split at h
  · obtain ⟨id, hid, rfl⟩ := Option.map_eq_some_iff.mp h
    refine ⟨?_, by simp⟩
    rintro rfl
    cases hid
  · cases h

theorem status_of_completion {found : List (List Char)} (h : tn ∈ scanLinesForCompletions exitCode found shells) :
    tn.status ≠ .running := by
  obtain ⟨line, -, hline⟩ := List.mem_filterMap.mp h
  exact (parseTaskNotification_some (Option.filter_eq_some_iff.mp hline).1).2

theorem mem_completions {found : List (List Char)} {line : List Char} (hline : line ∈ found)
    (hparse : parseTaskNotification exitCode line = some tn) (htracked : tracked shells tn.id) :
    tn ∈ scanLinesForCompletions exitCode found shells :=
  List.mem_filterMap.mpr ⟨line, hline, by rw [hparse, Option.filter_some, if_pos htracked]⟩

/-! ## One tick -/

theorem closed_transcript (transcript : List Line) :
    ∀ l ∈ transcript.map Line.bytes, newline ∉ l := by
  intro l hl
  obtain ⟨line, -, rfl⟩ := List.mem_map.mp hl
  exact line.whole

theorem fileBytes_split (before after : List Line) (line : Line) :
    fileBytes (before ++ line :: after) =
      fileBytes before ++ (line.bytes ++ newline :: fileBytes after) := by
  simp [fileBytes]

/-- **A read that comes past a line hands it out**, if it started at the line or before. -/
theorem read_past {before after : List Line} {line : Line} {offset : Nat}
    (hoff : offset ≤ (fileBytes before).length) {r : List (List Char) × Nat}
    (hr : Reads ((fileBytes (before ++ line :: after)).drop offset) r)
    (hpast : (fileBytes before).length < offset + r.2) (hne : lineText line.bytes ≠ []) :
    lineText line.bytes ∈ r.1 := by
  obtain ⟨left, hleft, hdrop⟩ := drop_joined (closed_transcript before) offset
  rw [fileBytes_split, drop_append_of_le_length hoff, fileBytes, hdrop] at hr
  have hlen : (fileBytes before).length = offset + (joined newline left).length := by
    have := congrArg List.length hdrop
    rw [length_drop] at this
    rw [fileBytes] at hoff ⊢
    omega
  generalize hsight : joined newline left ++ (line.bytes ++ newline :: fileBytes after) = sight at hr
  cases hr with
  | waits hn hshort =>
    omega
  | skips window rest hw hwindow hn =>
    rw [hw] at hsight
    -- The window ends behind the line before `line`, or behind `line` itself.
    have hprefix : ∀ front : List UInt8, front <+: window ++ rest →
        front.length ≤ window.length → newline ∈ front → False := fun front hf hle hm =>
      hn ((prefix_of_prefix_length_le hf (prefix_append ..) hle).subset hm)
    exfalso
    cases left with
    | nil =>
      refine hprefix (line.bytes ++ [newline]) ⟨fileBytes after, ?_⟩ ?_ (by simp)
      · rw [← hsight]
        simp
      · have := line.short
        rw [length_append, length_singleton, hwindow]
        omega
    | cons l left =>
      refine hprefix (joined newline (l :: left)) ⟨_, hsight⟩ ?_ (by simp)
      omega
  | takes first ls rest hw hn hshort =>
    rw [hw] at hsight
    have hmem : line.bytes ∈ first :: ls :=
      mem_of_joined_lt hn hleft line.whole hsight.symm (by dsimp only at hpast; omega)
    refine List.mem_flatMap.mpr ⟨line.bytes, hmem, ?_⟩
    rw [shown, if_neg hne]
    exact mem_singleton_self _

namespace Session

variable {s : Session}

/-- The history is on disk: each notification that was noted is a line of its transcript. -/
def Recorded (exitCode : List Char → Option Int) (s : Session) : Prop :=
  ∀ n ∈ s.notified, ∃ before line after tn,
    s.transcripts n.transcript = some (before ++ line :: after) ∧
      n.position = (fileBytes before).length ∧
      parseTaskNotification exitCode (lineText line.bytes) = some tn ∧ tn.id = n.id

section

variable (exitCode : List Char → Option Int) (s : Session) (readable : Bool)

theorem tick_cases :
    (∃ cursor, s.scanParentJsonlForCompletions exitCode readable = { s with scanOffset := cursor }) ∨
    ∃ cursor found, s.scanParentJsonlForCompletions exitCode readable = { s with
        scanOffset := cursor
        shells := markAll s.shells (scanLinesForCompletions exitCode found s.shells) } := by
  rw [scanParentJsonlForCompletions]
  split
  · exact .inl ⟨_, rfl⟩
  · split
    · exact .inl ⟨s.scanOffset, rfl⟩
    · split
      · exact .inl ⟨s.scanOffset, rfl⟩
      · dsimp only
        split
        · exact .inl ⟨_, rfl⟩
        · split
          all_goals
            split
            · exact .inl ⟨s.scanOffset, rfl⟩
            · split
              · exact .inr ⟨_, _, rfl⟩
              · exact .inl ⟨s.scanOffset, rfl⟩

theorem tick_keeps : (s.scanParentJsonlForCompletions exitCode readable).notified = s.notified ∧
    (s.scanParentJsonlForCompletions exitCode readable).transcripts = s.transcripts ∧
    (s.scanParentJsonlForCompletions exitCode readable).acpSessionId = s.acpSessionId := by
  rcases tick_cases exitCode s readable with ⟨cursor, he⟩ | ⟨cursor, found, he⟩ <;>
    rw [he] <;> exact ⟨rfl, rfl, rfl⟩

end

theorem tick_eq (hrunning : s.Running id) {transcript : List Line}
    (htranscript : s.transcripts s.acpSessionId = some transcript) {off offset : Nat}
    (hoff : s.scanOffset = some off)
    (hoffset : (if (fileBytes transcript).length < off then 0 else off) = offset)
    (hlt : offset < (fileBytes transcript).length) (readable : Bool) :
    s.scanParentJsonlForCompletions exitCode readable =
      if readable then
        let read := readCompleteLinesFrom (fileBytes transcript) offset (fileBytes transcript).length
        { s with
          scanOffset := some (offset + read.2)
          shells := markAll s.shells (scanLinesForCompletions exitCode read.1 s.shells) }
      else s := by
  obtain ⟨sh, hsh, -, hstate⟩ := hrunning
  have hsome : ¬ s.shells.isEmpty := by
    intro he
    rw [List.isEmpty_iff.mp he] at hsh
    cases hsh
  have hany : ¬ anyRunning s.shells = false := by
    rw [Bool.not_eq_false]
    exact List.any_eq_true.mpr ⟨sh, hsh, by simp [hstate]⟩
  simp only [scanParentJsonlForCompletions, if_neg hsome, if_neg hany, htranscript, hoff, hoffset,
    if_neg (Nat.not_le.mpr hlt)]
  rfl

theorem tracked_of_running (h : s.Running id) : tracked s.shells id := by
  obtain ⟨sh, hsh, hid, -⟩ := h
  exact List.any_eq_true.mpr ⟨sh, hsh, by simp [hid]⟩

theorem running_of_tick {readable : Bool}
    (h : (s.scanParentJsonlForCompletions exitCode readable).Running id) : s.Running id := by
  rcases tick_cases exitCode s readable with ⟨cursor, he⟩ | ⟨cursor, found, he⟩
  · rw [he] at h
    exact h
  · by_contra hdone
    rw [not_running_iff] at hdone
    rw [he] at h
    exact not_running_iff.mpr (Done.markAll hdone fun tn htn => status_of_completion htn) h

/-- **A tick that finds** leaves the cursor so that the next one finds, too. -/
theorem Finds.tick (hrec : s.Recorded exitCode) (h : s.Finds) (readable : Bool) :
    (s.scanParentJsonlForCompletions exitCode readable).Finds := by
  intro n hn hrun
  obtain ⟨hnotified, htrans, hid⟩ := tick_keeps exitCode s readable
  rw [hnotified] at hn
  have hrunning := running_of_tick hrun
  obtain ⟨hcurrent, off, hoff, hahead⟩ := h n hn hrunning
  obtain ⟨before, line, after, tn, hfile, hpos, hparse, htn⟩ := hrec n hn
  rw [hcurrent] at hfile
  have hlen : s.transcript = before ++ line :: after := by rw [Session.transcript, hfile]; rfl
  rw [hlen] at hahead
  have hlt : n.position < (fileBytes (before ++ line :: after)).length := by
    rw [fileBytes_split, hpos]
    simp
  obtain ⟨offset, hoffset⟩ : ∃ offset, (if (fileBytes (before ++ line :: after)).length < off
      then 0 else off) = offset := ⟨_, rfl⟩
  have hle : offset ≤ n.position := by
    rw [← hoffset]
    split <;> omega
  refine ⟨by rw [hid, hcurrent], ?_⟩
  rw [tick_eq hrunning hfile hoff hoffset (Nat.lt_of_le_of_lt hle hlt)] at hrun ⊢
  cases readable with
  | false =>
    refine ⟨off, hoff, ?_⟩
    rw [if_neg Bool.false_ne_true, hlen]
    exact hahead
  | true =>
    refine ⟨_, rfl, .inl ?_⟩
    by_contra hpast
    rw [hpos] at hle hpast
    have hread := reads_file (Nat.le_of_lt (Nat.lt_of_le_of_lt (hpos ▸ hle) hlt))
    have hmem := read_past hle hread (Nat.not_le.mp hpast) (parseTaskNotification_some hparse).1
    have htracked : tracked s.shells tn.id := by rw [htn]; exact tracked_of_running hrunning
    have hdone : Done (markAll s.shells _) tn.id := done_markAll (fun tn' h' => status_of_completion h')
      (mem_completions hmem hparse htracked)
    rw [htn] at hdone
    exact not_running_iff.mpr hdone hrun

theorem Finds.allSeen (hrec : s.Recorded exitCode) (h : s.Finds) (hend : s.ReadToEnd) :
    s.AllSeen := by
  intro n hn hrunning
  obtain ⟨hcurrent, off, hoff, hahead⟩ := h n hn hrunning
  obtain ⟨before, line, after, tn, hfile, hpos, -, -⟩ := hrec n hn
  obtain ⟨transcript, htranscript, hcursor⟩ := hend
  rw [hcurrent, htranscript] at hfile
  cases hfile
  rw [Session.transcript, htranscript, Option.getD_some] at hahead
  obtain rfl := Option.some.inj (hoff.symm.trans hcursor)
  have hlt : n.position < (fileBytes (before ++ line :: after)).length := by
    rw [fileBytes_split, hpos]
    simp
  omega

theorem Recorded.step (h : s.Recorded exitCode) (event : Event) :
    (s.step exitCode event).Recorded exitCode := by
  cases event with
  | register id =>
    rw [Session.step, register]
    split
    · exact h
    · intro n hn
      exact h n (List.mem_filter.mp hn).1
  | append line =>
    intro n hn
    have hkeeps : ∀ n ∈ s.notified, ∃ before line' after tn,
        (s.appendLine exitCode line).transcripts n.transcript = some (before ++ line' :: after) ∧
          n.position = (fileBytes before).length ∧
          parseTaskNotification exitCode (lineText line'.bytes) = some tn ∧ tn.id = n.id := by
      intro n hn
      obtain ⟨before, line', after, tn, hfile, hrest⟩ := h n hn
      by_cases hcurrent : n.transcript = s.acpSessionId
      · refine ⟨before, line', after ++ [line], tn, ?_, hrest⟩
        rw [hcurrent] at hfile
        simp [appendLine, hcurrent, Session.transcript, hfile]
      · refine ⟨before, line', after, tn, ?_, hrest⟩
        simpa [appendLine, Function.update_of_ne hcurrent] using hfile
    rw [Session.step] at hn ⊢
    simp only [appendLine] at hn
    split at hn
    · exact hkeeps n hn
    · rename_i tn hparse
      split at hn
      · rcases List.mem_append.mp hn with hn | hn
        · exact hkeeps n hn
        · rw [List.mem_singleton.mp hn]
          exact ⟨s.transcript, line, [], tn, by simp [appendLine], rfl, hparse, rfl⟩
      · exact hkeeps n hn
  | rotate acpSessionId => exact h
  | tick readable =>
    obtain ⟨hnotified, htrans, -⟩ := tick_keeps exitCode s readable
    intro n hn
    rw [Session.step, hnotified] at hn
    rw [Session.step, htrans]
    exact h n hn
  | kill id => exact h
  | reap id => exact h

theorem Recorded.run (h : s.Recorded exitCode) (events : List Event) :
    (s.run exitCode events).Recorded exitCode := by
  induction events generalizing s with
  | nil => exact h
  | cons event events ih => exact ih (h.step event)

/-- A session before the first of its notifications. -/
def start (shells : List BackgroundShell) (acpSessionId : AcpSessionId)
    (transcripts : AcpSessionId → Option (List Line)) (scanOffset : Option Nat) : Session :=
  ⟨shells, acpSessionId, transcripts, scanOffset, []⟩

end Session

/-- The notification of the shell `b`. -/
def notification : Line :=
  ⟨utf8 "<task-notification><task-id>b</task-id>".toList, by decide, by decide⟩

/-- A line of the conversation. -/
def reply : Line := ⟨utf8 "{}".toList, by decide, by decide⟩

end SpkEditor.ShellScan
