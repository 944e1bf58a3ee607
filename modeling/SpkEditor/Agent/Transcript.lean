import Mathlib.Algebra.Order.Ring.Int
import Mathlib.Data.List.Basic

/-!
# The transcript of an agent session

`acp_thread.rs`, `cold_persistence.rs` and the session of `solution_agent`: what a session
shows is the entries it got back from its stored blob (`cold_entries`), followed by the
entries of the live thread. Beside them runs `entry_created_ms`, one slot for each entry of
the two together.
-/

namespace SpkEditor.Transcript

inductive AcpBlockKind where
  | text
  | image
  | audio
  | resourceLink
  | resource
  | other
deriving DecidableEq

/-- `acp::ContentBlock`: its kind, and the send id in its `_meta`. -/
structure AcpContentBlock where
  kind : AcpBlockKind
  clientSendId : Option Int
deriving DecidableEq

/-- `csids_from_blocks`: every send id once, in the order of the blocks. -/
def csidsFromBlocks (blocks : List AcpContentBlock) : List Int :=
  blocks.foldl (fun out block =>
    match block.kind, block.clientSendId with
    | .other, _ => out
    | _, none => out
    | _, some id => if out.contains id then out else out ++ [id]) []

/-- `acp_thread::ContentBlock`, without the data of an image. -/
inductive ContentBlock where
  | empty
  | markdown (source : List Char)
  | resourceLink (uri : List Char)
  | image
deriving DecidableEq

/-- What an image is in markdown: the word in backticks. -/
def imageLiteral : List Char := ['\x60', 'I', 'm', 'a', 'g', 'e', '\x60']

def ContentBlock.toMarkdown : ContentBlock → List Char
  | .empty => []
  | .markdown source => source
  | .resourceLink uri => uri
  | .image => imageLiteral

structure UserMessage where
  id : Option (List Char)
  content : ContentBlock
  chunks : List AcpContentBlock
  /-- Of a checkpoint, whether it shows. -/
  checkpoint : Option Bool

def UserMessage.toMarkdown (m : UserMessage) : List Char :=
  (if m.checkpoint = some true then "## User (checkpoint)\n".toList else "## User\n".toList) ++
    "\n".toList ++ m.content.toMarkdown ++ "\n".toList ++ "\n".toList

inductive AssistantMessageChunk where
  | message (block : ContentBlock)
  | thought (block : ContentBlock)

def AssistantMessageChunk.block : AssistantMessageChunk → ContentBlock
  | .message block => block
  | .thought block => block

def AssistantMessageChunk.toMarkdown : AssistantMessageChunk → List Char
  | .message block => block.toMarkdown
  | .thought block => "<thinking>\n".toList ++ block.toMarkdown ++ "\n</thinking>".toList

structure AssistantMessage where
  chunks : List AssistantMessageChunk
  subagentId : Option (List Char)

def AssistantMessage.toMarkdown (m : AssistantMessage) : List Char :=
  "## Assistant\n\n".toList ++
    "\n\n".toList.intercalate (m.chunks.map AssistantMessageChunk.toMarkdown) ++ "\n\n".toList

inductive ToolCallStatus where
  | pending
  | waitingForConfirmation
  | inProgress
  | completed
  | failed
  | rejected
  | canceled

def ToolCallStatus.display : ToolCallStatus → List Char
  | .pending => "Pending".toList
  | .waitingForConfirmation => "Waiting for confirmation".toList
  | .inProgress => "In Progress".toList
  | .completed => "Completed".toList
  | .failed => "Failed".toList
  | .rejected => "Rejected".toList
  | .canceled => "Canceled".toList

inductive ToolCallContent where
  | contentBlock (block : ContentBlock)
  | diff (markdown : List Char)
  | terminal (markdown : List Char)
deriving DecidableEq

def ToolCallContent.toMarkdown : ToolCallContent → List Char
  | .contentBlock block => block.toMarkdown
  | .diff markdown => markdown
  | .terminal markdown => markdown

structure ToolCall where
  id : List Char
  label : List Char
  status : ToolCallStatus
  content : List ToolCallContent
  subagentId : Option (List Char)

def ToolCall.toMarkdown (c : ToolCall) : List Char :=
  "**Tool Call: ".toList ++ c.label ++ "**\nStatus: ".toList ++ c.status.display ++
    "\n\n".toList ++ c.content.flatMap fun content => content.toMarkdown ++ "\n\n".toList

inductive AgentThreadEntry where
  | userMessage (message : UserMessage)
  | assistantMessage (message : AssistantMessage)
  | toolCall (call : ToolCall)
  | completedPlan (items : List (List Char))

namespace AgentThreadEntry

def toMarkdown : AgentThreadEntry → List Char
  | .userMessage message => message.toMarkdown
  | .assistantMessage message => message.toMarkdown
  | .toolCall call => call.toMarkdown
  | .completedPlan items =>
    "## Plan\n\n".toList ++ items.flatMap fun item => "- [x] ".toList ++ item ++ "\n".toList

def subagentId : AgentThreadEntry → Option (List Char)
  | .assistantMessage message => message.subagentId
  | .toolCall call => call.subagentId
  | _ => none

end AgentThreadEntry

/-- An entry, and beside it what the code does not keep: the time at which the store saw it
arrive. Entries that a thread brought along, and those of blobs without times, have none. -/
structure ThreadEntry where
  entry : AgentThreadEntry
  created : Option Int

/-- `NO_TIMESTAMP_MS`. -/
def noTimestampMs : Int := -1

structure Session where
  coldEntries : List ThreadEntry
  acpThread : Option (List ThreadEntry)
  entryCreatedMs : List Int

namespace Session

def live (s : Session) : List ThreadEntry := s.acpThread.getD []

/-- What the session shows. -/
def transcript (s : Session) : List ThreadEntry := s.coldEntries ++ s.live

/-- The index `NewEntry` computes: the last entry of the thread, behind the cold ones. -/
def newEntryIndex (s : Session) : Nat := s.coldEntries.length + (s.live.length - 1)

/-- What `NewEntry` does to the times: slots below the index are filled up with the sentinel,
and the slot at the index gets the time unless it is there already. -/
def stampAt (stamps : List Int) (index : Nat) (nowMs : Int) : List Int :=
  let filled := stamps ++ List.replicate (index - stamps.length) noTimestampMs
  if filled.length = index then filled ++ [nowMs] else filled

/-- The handler of `NewEntry`. -/
def newEntry (s : Session) (nowMs : Int) : Session :=
  { s with entryCreatedMs := stampAt s.entryCreatedMs s.newEntryIndex nowMs }

/-- The handler of `EntriesRemoved`: it cuts the times at the start of the range, which
counts the entries of the thread. -/
def entriesRemoved (s : Session) (rangeStart : Nat) : Session :=
  { s with entryCreatedMs := s.entryCreatedMs.take rangeStart }

/-- `reset_context` and `rotate_context`, once the new thread is there. -/
def newContext (s : Session) (thread : List ThreadEntry) : Session :=
  { s with coldEntries := [], acpThread := some thread, entryCreatedMs := [] }

end Session

/-! ## The stored blob -/

inductive PersistedRole where
  | user
  | assistant
  | tool
  | plan
deriving DecidableEq

inductive TerminalToolCallStatus where
  | completed
  | failed
  | rejected
  | canceled
deriving DecidableEq

inductive PersistedAssistantChunk where
  | message (md : List Char)
  | thought (md : List Char)
deriving DecidableEq

inductive PersistedEntryV2 where
  | user (id : Option (List Char)) (contentMd : List Char) (chunks : List AcpContentBlock)
  | assistant (chunks : List PersistedAssistantChunk)
  | tool (id labelMd : List Char) (status : TerminalToolCallStatus) (content : List (List Char))
  | plan (items : List (List Char))
deriving DecidableEq

/-- `persisted_role_for`. -/
def persistedRoleFor : AgentThreadEntry → PersistedRole
  | .userMessage _ => .user
  | .assistantMessage _ => .assistant
  | .toolCall _ => .tool
  | .completedPlan _ => .plan

def ToolCallStatus.terminal : ToolCallStatus → Option TerminalToolCallStatus
  | .completed => some .completed
  | .failed => some .failed
  | .rejected => some .rejected
  | .canceled => some .canceled
  | _ => none

def TerminalToolCallStatus.status : TerminalToolCallStatus → ToolCallStatus
  | .completed => .completed
  | .failed => .failed
  | .rejected => .rejected
  | .canceled => .canceled

section

-- `tool_call_content_summary`: the markdown a piece of tool output is stored as
variable (summary : ToolCall → ToolCallContent → List Char)

def toPersisted : AgentThreadEntry → Option PersistedEntryV2
  | .userMessage m => some (.user m.id m.content.toMarkdown m.chunks)
  | .assistantMessage m =>
    some (.assistant (m.chunks.map fun
      | .message block => .message block.toMarkdown
      | .thought block => .thought block.toMarkdown))
  | .toolCall c =>
    c.status.terminal.map fun status => .tool c.id c.label status (c.content.map (summary c))
  | .completedPlan items => some (.plan items)

def fromPersisted : PersistedEntryV2 → AgentThreadEntry
  | .user id contentMd chunks => .userMessage ⟨id, .markdown contentMd, chunks, none⟩
  | .assistant chunks =>
    .assistantMessage ⟨chunks.map fun
      | .message md => .message (.markdown md)
      | .thought md => .thought (.markdown md), none⟩
  | .tool id labelMd status content =>
    .toolCall ⟨id, labelMd, status.status,
      content.map fun md => .contentBlock (.markdown md), none⟩
  | .plan items => .completedPlan items

/-- `PersistedSession`. Each entry has the arrival time of the entry it was made from beside
it, as in `ThreadEntry`. -/
structure PersistedSession where
  entries : List (PersistedRole × List Char)
  entrySummaries : List (List Char)
  entriesV2 : List (PersistedEntryV2 × Option Int)
  entryCreatedMs : List Int
deriving DecidableEq

/-- The rows of a snapshot: the entries that can be stored, each with its stored form and the
time in its slot. -/
def snapshotRows (s : Session) : List (ThreadEntry × PersistedEntryV2 × Int) :=
  s.transcript.zipIdx.filterMap fun e =>
    (toPersisted summary e.1.entry).map fun persisted =>
      (e.1, persisted, s.entryCreatedMs[e.2]?.getD noTimestampMs)

/-- `serializable_snapshot`. -/
def serializableSnapshot (s : Session) : PersistedSession where
  entries := (snapshotRows summary s).map fun row =>
    (persistedRoleFor row.1.entry, row.1.entry.toMarkdown)
  entrySummaries := (snapshotRows summary s).map fun row => row.1.entry.toMarkdown
  entriesV2 := (snapshotRows summary s).map fun row => (row.2.1, row.1.created)
  entryCreatedMs := (snapshotRows summary s).map fun row => row.2.2

end

/-- What an entry of an older blob is restored as. -/
def legacyEntry (md : List Char) : ThreadEntry :=
  ⟨fromPersisted (.assistant [.message md]), none⟩

/-- `cold_entries_from_persisted`. -/
def coldEntriesFromPersisted : Option PersistedSession → List ThreadEntry × List Int
  | none => ([], [])
  | some persisted =>
    let coldEntries :=
      if persisted.entriesV2 ≠ [] then
        persisted.entriesV2.map fun e => ⟨fromPersisted e.1, e.2⟩
      else if persisted.entrySummaries ≠ [] then persisted.entrySummaries.map legacyEntry
      else persisted.entries.map fun e => legacyEntry e.2
    (coldEntries, persisted.entryCreatedMs)

end SpkEditor.Transcript
