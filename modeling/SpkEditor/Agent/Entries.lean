import SpkEditor.Agent.PushPull
import SpkEditor.Agent.Queue
import SpkEditor.Remote.Proxy

/-!
# Transcript entries with all that the tools report

The transcript of a session with what the wire shows of it: the data of images, the arguments
and results of tool calls and the answers that a waiting call offers. Markdown, roles, send
ids and times are those of the transcript without that data: `brief` forgets it.
-/

namespace SpkEditor.Entries

open Transcript (EntryRoleDto)

open Remote (JsonValue)

inductive ImageFormat where
  | png
  | jpeg
  | webp
  | gif
  | svg
  | bmp
  | tiff
  | ico
  | pnm

def ImageFormat.mimeType : ImageFormat → List Char
  | .png => "image/png".toList
  | .jpeg => "image/jpeg".toList
  | .webp => "image/webp".toList
  | .gif => "image/gif".toList
  | .svg => "image/svg+xml".toList
  | .bmp => "image/bmp".toList
  | .tiff => "image/tiff".toList
  | .ico => "image/ico".toList
  | .pnm => "image/x-portable-anymap".toList

structure Image where
  format : ImageFormat
  bytes : List UInt8

/-- `acp_thread::ContentBlock`. -/
inductive ContentBlock where
  | empty
  | markdown (source : List Char)
  | resourceLink (uri : List Char)
  | image (image : Image)

def ContentBlock.brief : ContentBlock → Transcript.ContentBlock
  | .empty => .empty
  | .markdown source => .markdown source
  | .resourceLink uri => .resourceLink uri
  | .image _ => .image

def ContentBlock.toMarkdown (block : ContentBlock) : List Char := block.brief.toMarkdown

/-- `acp::ContentBlock`, with the send id in its `_meta`. -/
inductive AcpContentBlock where
  | text (text : List Char) (clientSendId : Option Int)
  | image (data mimeType : List Char) (clientSendId : Option Int)
  | audio (clientSendId : Option Int)
  | resourceLink (uri : List Char) (clientSendId : Option Int)
  | resource (clientSendId : Option Int)
  | other

def AcpContentBlock.brief : AcpContentBlock → Transcript.AcpContentBlock
  | .text _ id => ⟨.text, id⟩
  | .image _ _ id => ⟨.image, id⟩
  | .audio id => ⟨.audio, id⟩
  | .resourceLink _ id => ⟨.resourceLink, id⟩
  | .resource id => ⟨.resource, id⟩
  | .other => ⟨.other, none⟩

structure UserMessage where
  id : Option (List Char)
  content : ContentBlock
  chunks : List AcpContentBlock
  /-- Of a checkpoint, whether it shows. -/
  checkpoint : Option Bool

def UserMessage.brief (m : UserMessage) : Transcript.UserMessage :=
  ⟨m.id, m.content.brief, m.chunks.map AcpContentBlock.brief, m.checkpoint⟩

inductive AssistantMessageChunk where
  | message (block : ContentBlock)
  | thought (block : ContentBlock)

def AssistantMessageChunk.block : AssistantMessageChunk → ContentBlock
  | .message block => block
  | .thought block => block

def AssistantMessageChunk.brief : AssistantMessageChunk → Transcript.AssistantMessageChunk
  | .message block => .message block.brief
  | .thought block => .thought block.brief

structure AssistantMessage where
  chunks : List AssistantMessageChunk
  subagentId : Option (List Char)

def AssistantMessage.brief (m : AssistantMessage) : Transcript.AssistantMessage :=
  ⟨m.chunks.map AssistantMessageChunk.brief, m.subagentId⟩

/-! ## Tool calls -/

structure PermissionOption where
  optionId : List Char
  name : List Char
  kind : PermissionOptionKind

structure PermissionOptionChoice where
  allow : PermissionOption
  deny : PermissionOption
  subPatterns : List (List Char)

inductive PermissionOptions where
  | flat (options : List PermissionOption)
  | dropdown (choices : List PermissionOptionChoice)
  | dropdownWithPatterns (choices : List PermissionOptionChoice)

structure PermissionButton where
  optionId : List Char
  label : List Char
  kind : PermissionOptionKind
  patterns : List (List Char)

/-- `from_option` of `permission_buttons`. -/
def PermissionOption.button (option : PermissionOption) (patterns : List (List Char)) :
    PermissionButton := ⟨option.optionId, option.name, option.kind, patterns⟩

def PermissionOptionChoice.buttons (choice : PermissionOptionChoice) : List PermissionButton :=
  [choice.allow.button choice.subPatterns, choice.deny.button choice.subPatterns]

/-- `permission_buttons`. -/
def permissionButtons : PermissionOptions → List PermissionButton
  | .flat options => options.map fun option => option.button []
  | .dropdown choices => choices.flatMap PermissionOptionChoice.buttons
  | .dropdownWithPatterns choices => choices.flatMap PermissionOptionChoice.buttons

inductive ToolCallStatus where
  | pending
  | waitingForConfirmation (options : PermissionOptions)
  | inProgress
  | completed
  | failed
  | rejected
  | canceled

def ToolCallStatus.brief : ToolCallStatus → Transcript.ToolCallStatus
  | .pending => .pending
  | .waitingForConfirmation _ => .waitingForConfirmation
  | .inProgress => .inProgress
  | .completed => .completed
  | .failed => .failed
  | .rejected => .rejected
  | .canceled => .canceled

/-- A diff: the path that `file_path` gives and the one that markdown shows, the two texts,
and the text of its buffers. -/
structure Diff where
  filePath : Option (List Char)
  displayPath : Option (List Char)
  baseText : List Char
  newText : List Char
  bufferText : List Char

def Diff.toMarkdown (d : Diff) : List Char :=
  "Diff: ".toList ++ d.displayPath.getD "untitled".toList ++ "\n```\n".toList ++ d.bufferText ++
    "\n```\n".toList

/-- A terminal: what it has kept as its output when it ended, and what it shows. -/
structure Terminal where
  output : Option (List Char)
  content : List Char

def Terminal.toMarkdown (t : Terminal) : List Char :=
  "Terminal:\n```\n".toList ++ t.content ++ "\n```\n".toList

inductive ToolCallContent where
  | contentBlock (block : ContentBlock)
  | diff (diff : Diff)
  | terminal (terminal : Terminal)

def ToolCallContent.brief : ToolCallContent → Transcript.ToolCallContent
  | .contentBlock block => .contentBlock block.brief
  | .diff d => .diff d.toMarkdown
  | .terminal t => .terminal t.toMarkdown

structure ToolCallLocation where
  path : List Char
  line : Option Nat

structure ToolCall where
  id : List Char
  label : List Char
  kind : List Char
  content : List ToolCallContent
  status : ToolCallStatus
  locations : List ToolCallLocation
  rawInput : Option JsonValue
  rawOutput : Option JsonValue
  toolName : Option (List Char)
  subagentId : Option (List Char)
  statusStartedAt : Option Int

def ToolCall.brief (c : ToolCall) : Transcript.ToolCall :=
  ⟨c.id, c.label, c.status.brief, c.content.map ToolCallContent.brief, c.subagentId⟩

structure PlanEntry where
  content : List Char
  priority : List Char
  status : List Char

inductive AgentThreadEntry where
  | userMessage (message : UserMessage)
  | assistantMessage (message : AssistantMessage)
  | toolCall (call : ToolCall)
  | completedPlan (entries : List PlanEntry)

namespace AgentThreadEntry

/-- The entry without the data that only the wire shows. -/
def brief : AgentThreadEntry → Transcript.AgentThreadEntry
  | .userMessage message => .userMessage message.brief
  | .assistantMessage message => .assistantMessage message.brief
  | .toolCall call => .toolCall call.brief
  | .completedPlan entries => .completedPlan (entries.map PlanEntry.content)

def toMarkdown (e : AgentThreadEntry) : List Char := e.brief.toMarkdown

def subagentId (e : AgentThreadEntry) : Option (List Char) := e.brief.subagentId

def role (e : AgentThreadEntry) : EntryRoleDto := Transcript.entryRole e.brief

/-- `client_send_ids`. -/
def clientSendIds (e : AgentThreadEntry) : List Int := Transcript.clientSendIds e.brief

end AgentThreadEntry

end SpkEditor.Entries
