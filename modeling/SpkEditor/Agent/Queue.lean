import SpkEditor.Agent.Upload
import SpkEditor.Lib.Run

/-!
# Follow-up messages of a session

A message goes to the agent at once unless a turn is running; then it is queued and
delivered at the end of the turn, or earlier by a hook of the agent. This module has one
session of the store, with everything that touches its queue, its state and its safety-net
timer.

The store runs on one thread: each call, and each stretch of a task between two awaits, is
one step.
-/

namespace SpkEditor

abbrev AcpSessionId := List Char

abbrev AgentId := List Char

inductive SessionState where
  | idle
  | running
  | stopping
  | awaitingInput
  | errored (message : List Char)
  deriving DecidableEq

/-- Which agent a queued message is for. -/
inductive QueueTarget where
  | main
  | subagent (agentId : AgentId)
  deriving DecidableEq

def QueueTarget.matchesHook : QueueTarget → Option AgentId → Bool
  | .main, none => true
  | .subagent id, some hookId => id == hookId
  | _, _ => false

/-- A content block. `msg` is the send it came from, none for the texts the queue adds;
no code reads it. -/
structure Piece (M X : Type) where
  msg : Option Nat
  block : ContentBlock M X

structure PendingBundle (M X : Type) where
  target : QueueTarget
  blocks : List (Piece M X)

inductive PermissionOptionKind where
  | allowOnce
  | allowAlways
  | rejectOnce
  | rejectAlways
  deriving DecidableEq

/-- A tool call in `WaitingForConfirmation`, with the kinds of its `permission_buttons`. -/
structure WaitingCall where
  id : List Char
  buttons : List PermissionOptionKind

structure AcpThread where
  entity : Nat
  sessionId : AcpSessionId
  waiting : List WaitingCall

/-- The task in `stopping_safety_net`: the period of `Stopping` it was armed in, and
whether its timer has run out. No code reads either. -/
structure SafetyNet where
  period : Nat
  fired : Bool
  deriving DecidableEq

structure SolutionSession (M X : Type) where
  entity : Nat
  acpSessionId : AcpSessionId
  acpThread : Option AcpThread
  state : SessionState
  pendingMessages : List (PendingBundle M X)
  flushAfterCancel : Bool
  stoppingSafetyNet : Option SafetyNet
  /-- A project is cached. -/
  hasProject : Bool
  /-- How often the session has entered `Stopping`. -/
  period : Nat

/-- What a call can fail with. -/
inductive QueueError where
  /-- `unknown session ..` -/
  | unknownSession
  /-- `send_message_blocks: at least one ContentBlock required` -/
  | noBlocks
  /-- `session .. has no ACP thread yet` -/
  | noThread
  /-- `interrupt_and_flush_pending: no queued messages to flush` -/
  | nothingQueued
  /-- `session .. has no cached project` -/
  | noProject
  /-- `unknown_solution: cannot wake session ..` -/
  | unknownSolution
  /-- `wake_for_send: headless project construction failed for ..` -/
  | headlessProject (err : List Char)

/-- `char::is_whitespace`. -/
def isWhitespace (c : Char) : Bool :=
  let n := c.toNat
  (9 ≤ n && n ≤ 13) || n == 0x20 || n == 0x85 || n == 0xA0 || n == 0x1680 || (0x2000 ≤ n && n ≤ 0x200A) ||
    n == 0x2028 || n == 0x2029 || n == 0x202F || n == 0x205F || n == 0x3000

/-- `str::trim`. -/
def trimText (text : List Char) : List Char :=
  ((text.dropWhile isWhitespace).reverse.dropWhile isWhitespace).reverse

def TS_PREFIX_OPEN : List Char := ['[']

def TS_PREFIX_CLOSE : List Char := [']', ' ']

def QUEUE_HINT_LINE : List Char :=
  "[Queued before your turn ended — not a reply to your last message.]".toList

/-- The local time of day, as `%H:%M:%S` shows it. -/
structure LocalTime where
  hour : Nat
  minute : Nat
  second : Nat

def twoDigits (n : Nat) : List Char := [Nat.digitChar (n / 10 % 10), Nat.digitChar (n % 10)]

/-- `queue_timestamp_prefix`. -/
def queueTimestampPrefix (time : LocalTime) : List Char :=
  TS_PREFIX_OPEN ++ twoDigits time.hour ++ [':'] ++ twoDigits time.minute ++ [':'] ++
    twoDigits time.second ++ TS_PREFIX_CLOSE

section Texts

variable {M X : Type}

def ContentBlock.isImage : ContentBlock M X → Bool
  | .image .. => true
  | _ => false

def ContentBlock.isText : ContentBlock M X → Bool
  | .text .. => true
  | _ => false

def joinNewline (out : List Char) : List Char :=
  match out.getLast? with
  | none => []
  | some c => if isWhitespace c then [] else ['\n']

/-- The loop of `inject_text_from_blocks`. -/
def injectLoop : List Char → Nat → List (Piece M X) → List Char
  | out, _, [] => out
  | out, imageIdx, p :: ps =>
    match p.block with
    | .text text _ => injectLoop (out ++ joinNewline out ++ text) imageIdx ps
    | .image .. =>
      injectLoop (out ++ joinNewline out ++ "[image #".toList ++ Nat.toDigits 10 imageIdx ++ [']'])
        (imageIdx + 1) ps
    | _ => injectLoop out imageIdx ps

/-- `inject_text_from_blocks`. -/
def injectTextFromBlocks (blocks : List (Piece M X)) : List Char := trimText (injectLoop [] 1 blocks)

/-- `ContentBlock::Text(TextContent::new(text))`: a block of the queue's own. -/
def Piece.ofText [Inhabited M] (text : List Char) : Piece M X := ⟨none, .text text default⟩

def PendingBundle.hasImage (bundle : PendingBundle M X) : Bool := bundle.blocks.any fun p => p.block.isImage

end Texts

/-! ## Waiting tool calls -/

/-- `is_allow` of a button. -/
def PermissionOptionKind.isAllow : PermissionOptionKind → Bool
  | .allowOnce | .allowAlways => true
  | _ => false

/-- `pick_reject_button`. -/
def pickRejectButton (buttons : List PermissionOptionKind) : Option PermissionOptionKind :=
  (buttons.find? fun kind => kind == .rejectOnce).or (buttons.find? fun kind => !kind.isAllow)

/-- `pending_authorization_reject`: the first waiting call that can be declined. -/
def pendingAuthorizationReject (thread : AcpThread) : Option WaitingCall :=
  thread.waiting.find? fun call => (pickRejectButton call.buttons).isSome

/-- `authorize_tool_call` with a rejecting outcome: the call no longer waits. -/
def AcpThread.rejectToolCall (thread : AcpThread) (id : List Char) : AcpThread :=
  { thread with waiting := thread.waiting.eraseP fun call => call.id == id }

namespace SolutionSession

variable {M X : Type}

/-- `new_idle`, with a thread attached. -/
def newIdle (entity : Nat) (acpSessionId : AcpSessionId) (acpThread : Option AcpThread) :
    SolutionSession M X :=
  ⟨entity, acpSessionId, acpThread, .idle, [], false, none, acpThread.isSome, 0⟩

/-- `mutate_state`: leaving `Stopping` drops the timer. -/
def mutateState (s : SolutionSession M X) (f : SessionState → SessionState) : SolutionSession M X :=
  { s with
    state := f s.state
    stoppingSafetyNet := if s.state = .stopping ∧ f s.state ≠ .stopping then none else s.stoppingSafetyNet }

/-- `arm_stopping_safety_net`: a task that is there already is kept. -/
def armStoppingSafetyNet (s : SolutionSession M X) : SolutionSession M X :=
  match s.stoppingSafetyNet with
  | some _ => s
  | none => { s with stoppingSafetyNet := some ⟨s.period, false⟩ }

/-- `cancel_turn`. -/
def cancelTurn (s : SolutionSession M X) : SolutionSession M X × Except QueueError Unit :=
  if s.state = .running ∨ s.state = .awaitingInput then
    match s.acpThread with
    | none => (s, .error .noThread)
    | some _ =>
      (({ s.mutateState fun _ => .stopping with period := s.period + 1 }).armStoppingSafetyNet, .ok ())
  else (s, .ok ())

/-- `interrupt_and_flush_pending`. -/
def interruptAndFlushPending (s : SolutionSession M X) : SolutionSession M X × Except QueueError Unit :=
  if s.pendingMessages.isEmpty then (s, .error .nothingQueued)
  else ({ s with flushAfterCancel := true }).cancelTurn

def fireSafetyNet (s : SolutionSession M X) (net : SafetyNet) : SolutionSession M X :=
  if s.state = .stopping then s.mutateState fun _ => .idle
  else { s with stoppingSafetyNet := some { net with fired := true } }

/-- A send finds a tool call that waits for confirmation: the call is declined, and the
queue is to survive a cancelled turn. -/
def declineWaiting (s : SolutionSession M X) : SolutionSession M X :=
  match s.acpThread with
  | none => s
  | some thread =>
    match pendingAuthorizationReject thread with
    | none => s
    | some call => { s with flushAfterCancel := true, acpThread := some (thread.rejectToolCall call.id) }

/-- The queue with a message at its end: in the last bundle if that has the same target,
else in a bundle of its own. -/
def enqueued [Inhabited M] (queue : List (PendingBundle M X)) (stamped : List (Piece M X))
    (target : QueueTarget) : List (PendingBundle M X) :=
  match queue.getLast? with
  | none => [⟨target, stamped⟩]
  | some last =>
    if last.target = target then
      queue.dropLast ++ [⟨last.target, last.blocks ++ [Piece.ofText ['\n', '\n']] ++ stamped⟩]
    else queue ++ [⟨target, stamped⟩]

/-- The enqueue branch of `send_message_blocks_targeted`. -/
def enqueue [Inhabited M] (s : SolutionSession M X) (blocks : List (Piece M X)) (target : QueueTarget)
    (now : LocalTime) : SolutionSession M X :=
  { s with pendingMessages := enqueued s.pendingMessages (Piece.ofText (queueTimestampPrefix now) :: blocks) target }

def drains (agentId : Option AgentId) (bundle : PendingBundle M X) : Bool :=
  bundle.target.matchesHook agentId && !bundle.hasImage

/-- What `rotate_context` writes: the queue stays. -/
def rotated (s : SolutionSession M X) (thread : AcpThread) : SolutionSession M X :=
  { s with acpSessionId := thread.sessionId, state := .idle, acpThread := some thread }

/-- What `reset_context` writes, and `resume_session` on a session that is there. -/
def attached (s : SolutionSession M X) (thread : AcpThread) : SolutionSession M X :=
  { s with
    acpSessionId := thread.sessionId
    state := .idle
    pendingMessages := []
    flushAfterCancel := false
    acpThread := some thread
    hasProject := true }

end SolutionSession

/-- What the clock and the rest of the editor say to a send. -/
structure SendEnv where
  now : LocalTime
  /-- The solution of the session is in the `SolutionStore`. -/
  solutionFound : Bool
  /-- How `make_headless_project_for_solution` fails. -/
  headlessError : Option (List Char)

inductive StoreTask (M X : Type) where
  /-- Awaits `AcpThread::send`, which holds the blocks until it calls `prompt`. -/
  | turn (thread : Nat) (expected : AcpSessionId) (blocks : Option (List (Piece M X)))
  /-- `resume_session`, with the blocks of the send that wakes the session. -/
  | resume (blocks : Option (List (Piece M X)))
  /-- The session is awake and the blocks are to be sent. -/
  | reenter (blocks : List (Piece M X))
  | reset (entity : Nat)
  | rotate (entity : Nat)

/-- Something an agent was given: a prompt of the main thread, or the text of a hook. -/
inductive Handover (M X : Type) where
  | prompt (thread : Nat) (blocks : List (Piece M X))
  | hook (agentId : Option AgentId) (blocks : List (Piece M X)) (text : List Char)

def Handover.blocks {M X : Type} : Handover M X → List (Piece M X)
  | .prompt _ blocks => blocks
  | .hook _ blocks _ => blocks

/-- A call of `send_message_blocks_targeted`. -/
structure Send (M X : Type) where
  target : QueueTarget
  blocks : List (ContentBlock M X)

/-- The store, as far as one session is concerned, and the history of its messages:
every send, what was handed to an agent, what the explicit discards threw away, the sends
that failed, and what was dropped besides. -/
structure SolutionAgentStore (M X : Type) where
  session : Option (SolutionSession M X)
  tasks : List (StoreTask M X)
  nextEntity : Nat
  sends : List (Send M X)
  handed : List (Handover M X)
  discarded : List (List (Piece M X))
  failed : List (List (Piece M X))
  dropped : List (List (Piece M X))

inductive SendResult where
  | ready (result : Except QueueError Unit)
  | task

namespace SolutionAgentStore

variable {M X : Type} [Inhabited M]

/-- `send_message_blocks_with_wake`. -/
def sendMessageBlocksWithWake (st : SolutionAgentStore M X) (s : SolutionSession M X)
    (blocks : List (Piece M X)) (env : SendEnv) : SolutionAgentStore M X × SendResult :=
  if env.solutionFound then
    match s.hasProject, env.headlessError with
    | false, some err => (st, .ready (.error (.headlessProject err)))
    | _, _ => ({ st with tasks := st.tasks ++ [.resume (some blocks)] }, .task)
  else (st, .ready (.error .unknownSolution))

/-- A message for the main agent while no turn is running. -/
def sendNow (st : SolutionAgentStore M X) (s : SolutionSession M X) (blocks : List (Piece M X))
    (env : SendEnv) : SolutionAgentStore M X × SendResult :=
  let s : SolutionSession M X := { s with state := .running }
  let st := { st with session := some s }
  match s.acpThread with
  | none => st.sendMessageBlocksWithWake s blocks env
  | some thread => ({ st with tasks := st.tasks ++ [.turn thread.entity s.acpSessionId (some blocks)] }, .task)

/-- `send_message_blocks_targeted`. -/
def sendMessageBlocksTargeted (st : SolutionAgentStore M X) (blocks : List (Piece M X)) (target : QueueTarget)
    (env : SendEnv) : SolutionAgentStore M X × SendResult :=
  match st.session with
  | none => (st, .ready (.error .unknownSession))
  | some s =>
    if blocks.isEmpty then (st, .ready (.error .noBlocks))
    else
      let s := s.declineWaiting
      if s.state = .running then
        ({ st with session := some (s.enqueue blocks target env.now) }, .ready (.ok ()))
      else
        match target with
        | .subagent _ =>
          ({ st with session := some s, dropped := st.dropped ++ [blocks] }, .ready (.ok ()))
        | .main => st.sendNow s blocks env

/-- The caller of a send sees its error. -/
def noteResult (st : SolutionAgentStore M X) (blocks : List (Piece M X)) : SendResult → SolutionAgentStore M X
  | .ready (.error _) => { st with failed := st.failed ++ [blocks] }
  | _ => st

/-- The blocks of the `i`-th send. -/
def piecesOf (i : Nat) (blocks : List (ContentBlock M X)) : List (Piece M X) :=
  blocks.map fun block => ⟨some i, block⟩

def send (st : SolutionAgentStore M X) (blocks : List (ContentBlock M X)) (target : QueueTarget) (env : SendEnv) :
    SolutionAgentStore M X :=
  let pieces := piecesOf st.sends.length blocks
  let sent := sendMessageBlocksTargeted { st with sends := st.sends ++ [⟨target, blocks⟩] } pieces target env
  sent.1.noteResult pieces sent.2

/-- `take_pending_for_delivery`. -/
def takePendingForDelivery (st : SolutionAgentStore M X) (agentId : Option AgentId) (isEndOfTurn : Bool) :
    SolutionAgentStore M X × Option (List Char) :=
  match st.session with
  | none => (st, none)
  | some s =>
    let taken := (s.pendingMessages.filter (SolutionSession.drains agentId)).flatMap (·.blocks)
    let kept := s.pendingMessages.filter fun bundle => !SolutionSession.drains agentId bundle
    let st := { st with session := some { s with pendingMessages := kept } }
    if taken.isEmpty then (st, none)
    else
      let body := injectTextFromBlocks taken
      let text := if isEndOfTurn then QUEUE_HINT_LINE ++ ['\n', '\n'] ++ body else body
      ({ st with handed := st.handed ++ [.hook agentId taken text] }, some text)

end SolutionAgentStore

/-! ## Events of the thread -/

inductive StopReason where
  | endTurn
  | maxTokens
  | maxTurnRequests
  | refusal
  | cancelled
  deriving DecidableEq

/-- The events that touch what is modelled. With `entryUpdated` come the calls that wait
then. -/
inductive AcpThreadEvent where
  | newEntry
  | stopped (reason : StopReason)
  | error
  | loadError
  | toolAuthorizationRequested (call : WaitingCall)
  | toolAuthorizationReceived (id : List Char)
  | entryUpdated (waiting : List WaitingCall)

/-- `upsert_tool_call_inner`. -/
def AcpThread.upsertToolCall (thread : AcpThread) (call : WaitingCall) : AcpThread :=
  if thread.waiting.any fun c => c.id == call.id then
    { thread with waiting := thread.waiting.map fun c => if c.id == call.id then call else c }
  else { thread with waiting := thread.waiting ++ [call] }

namespace SolutionAgentStore

variable {M X : Type} [Inhabited M]

/-- The turn has stopped and the queue is to be delivered: the bundles for the main agent
go out as one message, those for a subagent are dropped. -/
def flush (st : SolutionAgentStore M X) (s : SolutionSession M X) (env : SendEnv) : SolutionAgentStore M X :=
  let mainBlocks := (s.pendingMessages.filter fun bundle => bundle.target = .main).flatMap (·.blocks)
  let droppedSubagent := s.pendingMessages.filter fun bundle => bundle.target ≠ .main
  let st :=
    { st with
      session := some { s with pendingMessages := [] }
      dropped := st.dropped ++ droppedSubagent.map (·.blocks) }
  if mainBlocks.isEmpty then st
  else
    (st.sendMessageBlocksTargeted (Piece.ofText (QUEUE_HINT_LINE ++ ['\n', '\n']) :: mainBlocks) .main env).1

/-- The `Stopped` branch of `handle_acp_event`. -/
def handleStopped (st : SolutionAgentStore M X) (s : SolutionSession M X) (reason : StopReason) (env : SendEnv) :
    SolutionAgentStore M X :=
  let s := s.mutateState fun _ => .idle
  let flushAfterCancel := s.flushAfterCancel
  let s : SolutionSession M X := { s with flushAfterCancel := false }
  if reason = .cancelled ∧ flushAfterCancel = false then
    { st with
      session := some { s with pendingMessages := [] }
      discarded := st.discarded ++ s.pendingMessages.map (·.blocks) }
  else st.flush s env

/-- `handle_acp_event`, for an event of the thread `thread` of the session `s`. -/
def handleAcpEvent (st : SolutionAgentStore M X) (s : SolutionSession M X) (thread : AcpThread) (env : SendEnv) :
    AcpThreadEvent → SolutionAgentStore M X
  | .newEntry =>
    { st with
      session := some (s.mutateState fun state =>
        if state = .idle ∨ state = .awaitingInput then .running else state) }
  | .stopped reason => st.handleStopped s reason env
  | .error | .loadError =>
    { st with session := some (s.mutateState fun _ => .errored "agent error".toList) }
  | .toolAuthorizationRequested call =>
    { st with
      session := some ({ s with acpThread := some (thread.upsertToolCall call) }.mutateState
        fun _ => .awaitingInput) }
  | .toolAuthorizationReceived _ =>
    { st with
      session := some (s.mutateState fun state => if state = .awaitingInput then .running else state) }
  | .entryUpdated waiting =>
    { st with session := some { s with acpThread := some { thread with waiting } } }

end SolutionAgentStore

/-! ## Tasks -/

/-- The task still holds a message it has not handed to the agent. -/
def StoreTask.blocks {M X : Type} : StoreTask M X → Option (List (Piece M X))
  | .turn _ _ blocks => blocks
  | .resume blocks => blocks
  | .reenter blocks => some blocks
  | .reset _ | .rotate _ => none

/-- A turn of `thread` that waits for an earlier one to end. -/
def StoreTask.waitsOn {M X : Type} (thread : Nat) : StoreTask M X → Bool
  | .turn t _ (some _) => t == thread
  | _ => false

namespace SolutionAgentStore

variable {M X : Type} [Inhabited M]

def updateSession (st : SolutionAgentStore M X) (f : SolutionSession M X → SolutionSession M X) :
    SolutionAgentStore M X :=
  { st with session := st.session.map f }

/-- `AcpThread::send` calls `prompt`, once the turns before it on its thread have ended. -/
def prompt (st : SolutionAgentStore M X) (i : Nat) : Option (SolutionAgentStore M X) :=
  match st.tasks[i]? with
  | some (.turn thread expected (some blocks)) =>
    if (st.tasks.take i).any (StoreTask.waitsOn thread) then none
    else
      some { st with
        tasks := st.tasks.set i (.turn thread expected none)
        handed := st.handed ++ [.prompt thread blocks] }
  | _ => none

/-- A late error is written unless the session has another ACP session by now. -/
def turnError (s : SolutionSession M X) (expected : AcpSessionId) (err : List Char) : SolutionSession M X :=
  if s.acpSessionId = expected then { s with state := .errored err } else s

/-- `AcpThread::send` has returned. It has prompted the agent if it returns no error. -/
def turnEnded (st : SolutionAgentStore M X) (i : Nat) (result : Except (List Char) Unit) :
    Option (SolutionAgentStore M X) :=
  match st.tasks[i]?, result with
  | some (.turn _ _ none), .ok () => some { st with tasks := st.tasks.eraseIdx i }
  | some (.turn _ expected blocks), .error err =>
    some { st.updateSession fun s => turnError s expected err with
      tasks := st.tasks.eraseIdx i
      failed := st.failed ++ blocks.toList }
  | _, _ => none

/-- `resume_session` has a thread: it goes to the session that is there, whose queue is
cleared, or to a new one. -/
def promote (st : SolutionAgentStore M X) (thread : AcpThread) : SolutionAgentStore M X :=
  match st.session with
  | some s =>
    { st with
      session := some (s.attached thread)
      dropped := st.dropped ++ s.pendingMessages.map (·.blocks) }
  | none =>
    { st with
      session := some (.newIdle st.nextEntity thread.sessionId (some thread))
      nextEntity := st.nextEntity + 1 }

/-- `reset_context` has a thread for the session it was called on. -/
def finishReset (st : SolutionAgentStore M X) (entity : Nat) (thread : AcpThread) : SolutionAgentStore M X :=
  match st.session with
  | some s =>
    if s.entity = entity then
      { st with
        session := some (s.attached thread)
        discarded := st.discarded ++ s.pendingMessages.map (·.blocks) }
    else st
  | none => st

/-- `rotate_context` has a thread for the session it was called on. -/
def finishRotate (st : SolutionAgentStore M X) (entity : Nat) (thread : AcpThread) : SolutionAgentStore M X :=
  st.updateSession fun s => if s.entity = entity then s.rotated thread else s

def threadReady (st : SolutionAgentStore M X) (i : Nat) (result : Except (List Char) AcpThread) :
    Option (SolutionAgentStore M X) :=
  match st.tasks[i]?, result with
  | some (.resume blocks), .ok thread =>
    some { st.promote thread with tasks := st.tasks.eraseIdx i ++ (blocks.map .reenter).toList }
  | some (.resume blocks), .error _ =>
    some { st with tasks := st.tasks.eraseIdx i, failed := st.failed ++ blocks.toList }
  | some (.reset entity), .ok thread => some { st.finishReset entity thread with tasks := st.tasks.eraseIdx i }
  | some (.rotate entity), .ok thread => some { st.finishRotate entity thread with tasks := st.tasks.eraseIdx i }
  | some (.reset _), .error _ | some (.rotate _), .error _ => some { st with tasks := st.tasks.eraseIdx i }
  | _, _ => none

/-- The send that woke the session goes on. -/
def reenter (st : SolutionAgentStore M X) (i : Nat) (env : SendEnv) : Option (SolutionAgentStore M X) :=
  match st.tasks[i]? with
  | some (.reenter blocks) =>
    let sent := sendMessageBlocksTargeted { st with tasks := st.tasks.eraseIdx i } blocks .main env
    some (sent.1.noteResult blocks sent.2)
  | _ => none

/-- `resume_session`: nothing to do for a session that has this ACP session and a thread. -/
def resumeSession (st : SolutionAgentStore M X) (acpSessionId : AcpSessionId) : SolutionAgentStore M X :=
  if st.session.any fun s => s.acpSessionId == acpSessionId && s.acpThread.isSome then st
  else { st with tasks := st.tasks ++ [.resume none] }

def resetContext (st : SolutionAgentStore M X) : SolutionAgentStore M X × Except QueueError Unit :=
  match st.session with
  | none => (st, .error .unknownSession)
  | some s => ({ st with tasks := st.tasks ++ [.reset s.entity] }, .ok ())

def rotateContext (st : SolutionAgentStore M X) : SolutionAgentStore M X × Except QueueError Unit :=
  match st.session with
  | none => (st, .error .unknownSession)
  | some s =>
    if s.hasProject then ({ st with tasks := st.tasks ++ [.rotate s.entity] }, .ok ())
    else (st, .error .noProject)

def closeSession (st : SolutionAgentStore M X) : SolutionAgentStore M X × Except QueueError Unit :=
  match st.session with
  | none => (st, .error .unknownSession)
  | some s =>
    ({ st with session := none, discarded := st.discarded ++ s.pendingMessages.map (·.blocks) }, .ok ())

/-- An event reaches the store through the subscription of the session's thread. -/
def acpEvent (st : SolutionAgentStore M X) (event : AcpThreadEvent) (env : SendEnv) :
    Option (SolutionAgentStore M X) :=
  match st.session with
  | none => none
  | some s =>
    match s.acpThread with
    | none => none
    | some thread => some (st.handleAcpEvent s thread env event)

/-- The timer of the safety net runs out. The task is there until the session drops it. -/
def timer (st : SolutionAgentStore M X) : Option (SolutionAgentStore M X) :=
  match st.session with
  | none => none
  | some s =>
    match s.stoppingSafetyNet with
    | some net => if net.fired then none else some { st with session := some (s.fireSafetyNet net) }
    | none => none

def onSession (st : SolutionAgentStore M X) (f : SolutionSession M X → SolutionSession M X × Except QueueError Unit) :
    SolutionAgentStore M X :=
  st.updateSession fun s => (f s).1

end SolutionAgentStore

inductive StoreAction (M X : Type) where
  | send (blocks : List (ContentBlock M X)) (target : QueueTarget) (env : SendEnv)
  | acpEvent (event : AcpThreadEvent) (env : SendEnv)
  | takePendingForDelivery (agentId : Option AgentId) (isEndOfTurn : Bool)
  | cancelTurn
  | interruptAndFlushPending
  | resumeSession (acpSessionId : AcpSessionId)
  | resetContext
  | rotateContext
  | closeSession
  | forceIdle
  | timer
  | prompt (i : Nat)
  | turnEnded (i : Nat) (result : Except (List Char) Unit)
  | threadReady (i : Nat) (result : Except (List Char) AcpThread)
  | reenter (i : Nat) (env : SendEnv)

namespace SolutionAgentStore

variable {M X : Type} [Inhabited M]

def step (st : SolutionAgentStore M X) : StoreAction M X → Option (SolutionAgentStore M X)
  | .send blocks target env => some (st.send blocks target env)
  | .acpEvent event env => st.acpEvent event env
  | .takePendingForDelivery agentId isEndOfTurn => some (st.takePendingForDelivery agentId isEndOfTurn).1
  | .cancelTurn => some (st.onSession SolutionSession.cancelTurn)
  | .interruptAndFlushPending => some (st.onSession SolutionSession.interruptAndFlushPending)
  | .resumeSession acpSessionId => some (st.resumeSession acpSessionId)
  | .resetContext => some st.resetContext.1
  | .rotateContext => some st.rotateContext.1
  | .closeSession => some st.closeSession.1
  | .forceIdle => some (st.updateSession fun s => s.mutateState fun _ => .idle)
  | .timer => st.timer
  | .prompt i => st.prompt i
  | .turnEnded i result => st.turnEnded i result
  | .threadReady i result => st.threadReady i result
  | .reenter i env => st.reenter i env

/-- A session as `create_session` or `restore_open_tabs` makes it: with a thread, or cold. -/
def init (acpSessionId : AcpSessionId) (acpThread : Option AcpThread) : SolutionAgentStore M X where
  session := some (.newIdle 0 acpSessionId acpThread)
  tasks := []
  nextEntity := 1
  sends := []
  handed := []
  discarded := []
  failed := []
  dropped := []

/-- A message of one text, sent at midnight. -/
def sendText (text : List Char) (target : QueueTarget) : StoreAction Unit Unit :=
  .send [.text text ()] target ⟨⟨0, 0, 0⟩, true, none⟩

def Reaches (st : SolutionAgentStore M X) (actions : List (StoreAction M X)) (st' : SolutionAgentStore M X) : Prop :=
  Run (fun x a y => step x a = some y) st actions st'

end SolutionAgentStore

end SpkEditor
