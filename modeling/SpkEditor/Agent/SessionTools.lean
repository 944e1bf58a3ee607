import SpkEditor.Agent.Entries
import SpkEditor.Lib.Paging

/-!
# The tools that read a session

`get_session` reports the entries of a session, cold and live, in the window of indices and
under the filter it is asked for; `get_session_entry` reports one entry.

Images are numbered over the whole session, and the loop of `get_session` counts those of the
entries it passes over as it counts those it reports. So every summary is the one the entry
has in the full list (`summaries`), a call filters that list and cuts it, and a client that
walks backwards sees each entry once.
-/

namespace SpkEditor.Entries

open Transcript (EntryRoleDto)

open Remote (JsonValue)

open Paging

/-! ## What the wire shows -/

/-- The encodings of the wire: `base64` of bytes, and the text `serde_json` gives a value. -/
structure Wire where
  base64 : List UInt8 → List Char
  jsonString : JsonValue → List Char

structure EntryImage where
  index : Nat
  mimeType : List Char
  dataBase64 : List Char
  deriving DecidableEq

inductive ToolCallStatusDto where
  | pending
  | waitingForConfirmation
  | running
  | done
  | failed
  | rejected
  | canceled
  deriving DecidableEq

structure ToolCallAuthOption where
  optionId : List Char
  label : List Char
  kind : List Char
  isAllow : Bool
  deriving DecidableEq

structure ToolCallSummary where
  toolCallId : List Char
  name : List Char
  status : ToolCallStatusDto
  argsPreview : List Char
  resultPreview : List Char
  toolStatusStartedAtMs : Option Int
  options : List ToolCallAuthOption
  deriving DecidableEq

structure EntrySummary where
  role : EntryRoleDto
  index : Nat
  preview : List Char
  markdown : Option (List Char)
  images : Option (List EntryImage)
  toolCall : Option ToolCallSummary
  /-- The items of `PlanSummary`. -/
  plan : Option (List (List Char))
  clientSendId : Option Int
  clientSendIds : List Int
  createdMs : Option Int
  subagentId : Option (List Char)
  deriving DecidableEq

/-! ## Tool calls -/

/-- `tool_call_status_dto`. -/
def toolCallStatusDto : ToolCallStatus → ToolCallStatusDto
  | .pending => .pending
  | .waitingForConfirmation _ => .waitingForConfirmation
  | .inProgress => .running
  | .completed => .done
  | .failed => .failed
  | .rejected => .rejected
  | .canceled => .canceled

/-- `permission_kind_str`. -/
def permissionKindStr : PermissionOptionKind → List Char
  | .allowOnce => "allow_once".toList
  | .allowAlways => "allow_always".toList
  | .rejectOnce => "reject_once".toList
  | .rejectAlways => "reject_always".toList

/-- `FIELD_PREVIEW_MAX_CHARS`. -/
def fieldPreviewMaxChars : Nat := 500

def fieldPreview (w : Wire) (raw : Option JsonValue) : List Char :=
  (raw.map fun v => Transcript.truncatePreview fieldPreviewMaxChars (w.jsonString v)).getD []

def authOption (button : PermissionButton) : ToolCallAuthOption where
  optionId := button.optionId
  label := button.label
  kind := permissionKindStr button.kind
  isAllow := button.kind.isAllow

/-- `tool_call_summary`. -/
def toolCallSummary (w : Wire) (call : ToolCall) : ToolCallSummary where
  toolCallId := call.id
  name := call.toolName.getD call.label
  status := toolCallStatusDto call.status
  argsPreview := fieldPreview w call.rawInput
  resultPreview := fieldPreview w call.rawOutput
  toolStatusStartedAtMs := call.statusStartedAt
  options :=
    match call.status with
    | .waitingForConfirmation options => (permissionButtons options).map authOption
    | _ => []

def AcpContentBlock.isImage : AcpContentBlock → Bool
  | .image _ _ _ => true
  | _ => false

def ContentBlock.isImage : ContentBlock → Bool
  | .image _ => true
  | _ => false

def ToolCallContent.isImage : ToolCallContent → Bool
  | .contentBlock block => block.isImage
  | _ => false

/-- `count_images_in_entry`. -/
def countImagesInEntry : AgentThreadEntry → Nat
  | .userMessage message => message.chunks.countP AcpContentBlock.isImage
  | .assistantMessage message => message.chunks.countP fun chunk => chunk.block.isImage
  | .toolCall call => call.content.countP ToolCallContent.isImage
  | .completedPlan _ => 0

/-- The type and the data of an image in a user message, as they came. -/
def AcpContentBlock.payload : AcpContentBlock → Option (List Char × List Char)
  | .image data mimeType _ => some (mimeType, data)
  | _ => none

def ContentBlock.payload (w : Wire) : ContentBlock → Option (List Char × List Char)
  | .image data => some (data.format.mimeType, w.base64 data.bytes)
  | _ => none

def ToolCallContent.payload (w : Wire) : ToolCallContent → Option (List Char × List Char)
  | .contentBlock block => block.payload w
  | _ => none

/-- The loops of `extract_images_for_entry`: each image takes the number of the cursor. -/
def pushImages {α : Type} (payload : α → Option (List Char × List Char)) :
    (imageCursor : Nat) → List α → List EntryImage × Nat
  | imageCursor, [] => ([], imageCursor)
  | imageCursor, x :: xs =>
    match payload x with
    | none => pushImages payload imageCursor xs
    | some (mimeType, data) =>
      let (out, cursor) := pushImages payload (imageCursor + 1) xs
      (⟨imageCursor, mimeType, data⟩ :: out, cursor)

/-- `extract_images_for_entry`: the images, and the cursor behind them. -/
def extractImagesForEntry (w : Wire) (entry : AgentThreadEntry) (imageCursor : Nat) :
    List EntryImage × Nat :=
  match entry with
  | .userMessage message => pushImages AcpContentBlock.payload imageCursor message.chunks
  | .assistantMessage message =>
    pushImages (fun chunk => chunk.block.payload w) imageCursor message.chunks
  | .toolCall call => pushImages (ToolCallContent.payload w) imageCursor call.content
  | .completedPlan _ => ([], imageCursor)

/-- `summarize_entry`: the summary, and the cursor behind the images of the entry. -/
def summarizeEntry (w : Wire) (entry : AgentThreadEntry) (index : Nat) (createdMs : Option Int)
    (includeFullContent includeImages : Bool) (imageCursor : Nat) : EntrySummary × Nat :=
  let markdownSource :=
    if entry.role = .assistant then
      Transcript.cleanAssistantMessageText entry.toMarkdown imageCursor
    else entry.toMarkdown
  let (images, cursor) :=
    if includeImages then
      let (images, cursor) := extractImagesForEntry w entry imageCursor
      (some images, cursor)
    else (none, imageCursor + countImagesInEntry entry)
  ({ role := entry.role
     index
     preview := Transcript.truncatePreview 200 markdownSource
     markdown := if includeFullContent then some markdownSource else none
     images
     toolCall :=
       match entry with
       | .toolCall call => some (toolCallSummary w call)
       | _ => none
     plan :=
       match entry with
       | .completedPlan entries => some (entries.map PlanEntry.content)
       | _ => none
     clientSendId := entry.clientSendIds.head?
     clientSendIds := entry.clientSendIds
     createdMs
     subagentId := entry.subagentId }, cursor)

structure Session where
  id : List Char
  coldEntries : List AgentThreadEntry
  acpThread : Option (List AgentThreadEntry)
  entryCreatedMs : List Int
  /-- The ids of the subagents in flight. -/
  activeSubagents : List (List Char)

/-- `entries_ref`: the cold history, then the entries of the live thread. -/
def Session.entriesRef (s : Session) : List AgentThreadEntry :=
  s.coldEntries ++ s.acpThread.getD []

/-- The time in a slot, if it is one. -/
def Session.createdMs (s : Session) (index : Nat) : Option Int :=
  s.entryCreatedMs[index]?.filter (0 < ·)

/-! ## `get_session` -/

structure GetSessionParams where
  includeFullContent : Bool
  includeImages : Bool
  beforeIndex : Option Nat
  afterIndex : Option Nat
  count : Option Nat
  subagentFilter : Option (List Char)

structure GetSessionResult where
  entries : List EntrySummary
  totalCount : Nat

section

variable (w : Wire) (s : Session) (params : GetSessionParams)

/-- `passes_filter`, for the subagent of an entry. -/
def passesFilter (subagentId : Option (List Char)) : Bool :=
  match params.subagentFilter with
  | none => true
  | some filter =>
    if s.activeSubagents.isEmpty then true
    else if filter = "__main__".toList then subagentId.isNone
    else subagentId == some filter

def GetSessionParams.inBounds (index : Nat) : Bool :=
  params.afterIndex.all (· < index) && params.beforeIndex.all (index < ·)

/-- The loop over all entries: those kept, and how many pass the filter. -/
def walkEntries : (index imageCursor : Nat) → List AgentThreadEntry → List EntrySummary × Nat
  | _, _, [] => ([], 0)
  | index, imageCursor, entry :: rest =>
    let passes := passesFilter s params entry.subagentId
    if passes && params.inBounds index then
      let (summary, cursor) := summarizeEntry w entry index (s.createdMs index)
        params.includeFullContent params.includeImages imageCursor
      let (kept, total) := walkEntries (index + 1) cursor rest
      (summary :: kept, total + 1)
    else
      let (kept, total) :=
        walkEntries (index + 1) (imageCursor + countImagesInEntry entry) rest
      (kept, if passes then total + 1 else total)

/-- `GetSessionTool::run`: the entries and their total. -/
def getSession : GetSessionResult :=
  let (kept, total) := walkEntries w s params 0 0 s.entriesRef
  match params.count with
  | none => ⟨kept, total⟩
  | some n => ⟨if n < kept.length then kept.drop (kept.length - n) else kept, total⟩

end

/-- `GetSessionEntryTool::run`, with the texts of its errors. -/
def getSessionEntry (w : Wire) (s : Session) (wantIndex : Nat) (includeImages : Bool) :
    Except (List Char) EntrySummary :=
  match s.acpThread with
  | none => .error ("session_has_no_thread: ".toList ++ s.id)
  | some entries =>
    if wantIndex < entries.length then
      let imageCursor := ((entries.take wantIndex).map countImagesInEntry).sum
      match entries[wantIndex]? with
      | none => .error "entry vanished mid-read".toList
      | some entry =>
        .ok (summarizeEntry w entry wantIndex (s.createdMs wantIndex) true includeImages
          imageCursor).1
    else
      .error ("entry_index_out_of_range: ".toList ++ Nat.toDigits 10 wantIndex ++
        " (session has ".toList ++ Nat.toDigits 10 entries.length ++ " entries)".toList)

end SpkEditor.Entries
