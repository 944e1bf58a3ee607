import Mathlib.Data.List.Lex
import SpkEditor.Agent.Entries
import SpkEditor.Lib.Cut

/-!
# What tool output is stored as

A piece of the content of a tool call is shown, and stored, as markdown: plain text in a
fence, a diff and the output of a terminal in a form of their own, and all of it cut to a
number of lines. A stored call comes back with text in place of each piece, so the next time
it is stored that text is fenced and cut again.
-/

namespace SpkEditor.Entries

open Remote (JsonValue)

open Cut

def ticks3 : List Char := "```".toList

def ticks4 : List Char := "````".toList

def opensCode (line : List Char) : Bool := ticks3.isPrefixOf (trimStart line)

/-- `already_fenced`. -/
def alreadyFenced (text : List Char) : Bool := (lines (trimEnd text)).head?.any opensCode

/-- `fence_plain_text`. -/
def fencePlainText (text : List Char) : List Char :=
  if trimEnd text = [] then text
  else if alreadyFenced text then text
  else ticks4 ++ '\n' :: trimEnd text ++ '\n' :: ticks4

/-! ## The limit on lines -/

/-- `MAX_LINES`. -/
def maxLines : Nat := 15

/-- `opens_fence`: the lines end inside a fence. -/
def opensFence (head : List (List Char)) : Bool :=
  head.countP (fun line => ticks3.isPrefixOf line || ticks4.isPrefixOf line) % 2 == 1

def closingFence (head : List (List Char)) : List Char :=
  if head.any fun line => ticks4.isPrefixOf (trimStart line) then ticks4 else ticks3

def moreLines (remaining : Nat) : List Char :=
  "_… (+".toList ++ Nat.toDigits 10 remaining ++ " more lines)_".toList

/-- `truncate_tool_summary`. -/
def truncateToolSummary (text : List Char) : List Char :=
  let head := (lines text).take maxLines
  let remaining := ((lines text).drop maxLines).length
  if remaining = 0 then text
  else
    ['\n'].intercalate head ++ (if opensFence head then '\n' :: closingFence head else []) ++
      '\n' :: '\n' :: moreLines remaining

/-! ## Diffs and terminals -/

/-- Code that is called but not modelled: `language::unified_diff`, and the text that
`serde_json::to_string_pretty` gives a value. -/
structure Formats where
  unifiedDiff : List Char → List Char → List Char
  jsonPretty : JsonValue → List Char

/-- `diff_summary_markdown`. -/
def diffSummaryMarkdown (w : Formats) (d : Diff) : List Char :=
  let path := d.filePath.getD "file".toList
  let body := w.unifiedDiff d.baseText d.newText
  let edited := "**Edited** `".toList ++ path ++ "`".toList
  if body = [] then edited
  else
    let added := (lines body).countP (['+'].isPrefixOf ·)
    let removed := (lines body).countP (['-'].isPrefixOf ·)
    edited ++ " · +".toList ++ Nat.toDigits 10 added ++ " / −".toList ++
      Nat.toDigits 10 removed ++ "\n```diff\n".toList ++ body ++ "\n```".toList

/-- `MAX_BYTES` of `terminal_output_markdown`. -/
def maxOutputBytes : Nat := 8 * 1024

def Terminal.shown (t : Terminal) : List Char := t.output.getD t.content

/-- `was_truncated`. -/
def Terminal.wasTruncated (t : Terminal) : Bool := maxOutputBytes < byteLen t.shown

/-- The part of the output that is shown. -/
def Terminal.trimmed (t : Terminal) : List Char :=
  trimEnd (if t.wasTruncated then (splitFloor maxOutputBytes t.shown).1 else t.shown)

def noOutputYet : List Char := "(no output yet)".toList

/-- `terminal_output_markdown`. -/
def terminalOutputMarkdown (t : Terminal) : List Char :=
  if t.trimmed = [] then '_' :: noOutputYet ++ ['_']
  else
    ticks4 ++ '\n' :: t.trimmed ++ (if t.trimmed.getLast? = some '\n' then [] else ['\n']) ++
      ticks4 ++ if t.wasTruncated then "\n_(output truncated)_".toList else []

/-- An integer as it is printed. -/
def intDigits (n : Int) : List Char :=
  if n < 0 then '-' :: Nat.toDigits 10 n.natAbs else Nat.toDigits 10 n.natAbs

/-- The values without anything to show. -/
def emptyJson : List (List Char) := [[], "\x7b\x7d".toList, "[]".toList]

/-- `raw_output_fallback_markdown`. -/
def rawOutputFallbackMarkdown (w : Formats) : Option JsonValue → Option (List Char)
  | none => none
  | some .null => none
  | some (.str s) =>
    if trimEnd s = [] then none else some (ticks4 ++ '\n' :: trimEnd s ++ '\n' :: ticks4)
  | some (.bool b) => some (if b then "true".toList else "false".toList)
  | some (.int n) => some (intDigits n)
  | some (.float digits) => some digits
  | some other =>
    if trim (w.jsonPretty other) ∈ emptyJson then none
    else some ("```json\n".toList ++ w.jsonPretty other ++ "\n```".toList)

/-- `tool_call_content_summary` before the limit. -/
def contentMarkdown (w : Formats) (call : ToolCall) : ToolCallContent → List Char
  | .contentBlock block => fencePlainText block.toMarkdown
  | .diff d => diffSummaryMarkdown w d
  | .terminal t =>
    let primary := terminalOutputMarkdown t
    if noOutputYet <:+: primary then
      (rawOutputFallbackMarkdown w call.rawOutput).getD primary
    else primary

/-- `tool_call_content_summary`. -/
def toolCallContentSummary (w : Formats) (call : ToolCall) (content : ToolCallContent) :
    List Char := truncateToolSummary (contentMarkdown w call content)

/-! ## Stored entries -/

structure PersistedUserMessage where
  id : Option (List Char)
  contentMd : List Char
  chunks : List AcpContentBlock

inductive PersistedAssistantChunk where
  | message (md : List Char)
  | thought (md : List Char)

structure PersistedToolCall where
  id : List Char
  labelMd : List Char
  kind : List Char
  status : Transcript.TerminalToolCallStatus
  /-- The markdown of each `PersistedToolCallContent`. -/
  content : List (List Char)
  rawInput : Option JsonValue
  rawOutput : Option JsonValue
  toolName : Option (List Char)
  locations : List ToolCallLocation

inductive PersistedEntryV2 where
  | user (message : PersistedUserMessage)
  | assistant (chunks : List PersistedAssistantChunk)
  | tool (call : PersistedToolCall)
  | plan (entries : List PlanEntry)

/-- The statuses that are stored. -/
def ToolCallStatus.terminal (status : ToolCallStatus) :
    Option Transcript.TerminalToolCallStatus := status.brief.terminal

def terminalStatus : Transcript.TerminalToolCallStatus → ToolCallStatus
  | .completed => .completed
  | .failed => .failed
  | .rejected => .rejected
  | .canceled => .canceled

def AssistantMessageChunk.toPersisted : AssistantMessageChunk → PersistedAssistantChunk
  | .message block => .message block.toMarkdown
  | .thought block => .thought block.toMarkdown

def PersistedAssistantChunk.restored : PersistedAssistantChunk → AssistantMessageChunk
  | .message md => .message (.markdown md)
  | .thought md => .thought (.markdown md)

/-- `to_persisted`. -/
def toPersisted (w : Formats) : AgentThreadEntry → Option PersistedEntryV2
  | .userMessage m => some (.user ⟨m.id, m.content.toMarkdown, m.chunks⟩)
  | .assistantMessage m => some (.assistant (m.chunks.map AssistantMessageChunk.toPersisted))
  | .toolCall call =>
    call.status.terminal.map fun status => .tool
      { id := call.id
        labelMd := call.label
        kind := call.kind
        status
        content := call.content.map (toolCallContentSummary w call)
        rawInput := call.rawInput
        rawOutput := call.rawOutput
        toolName := call.toolName
        locations := call.locations }
  | .completedPlan entries => some (.plan entries)

/-- `from_persisted`. -/
def fromPersisted : PersistedEntryV2 → AgentThreadEntry
  | .user m => .userMessage ⟨m.id, .markdown m.contentMd, m.chunks, none⟩
  | .assistant chunks => .assistantMessage ⟨chunks.map PersistedAssistantChunk.restored, none⟩
  | .tool call => .toolCall
      { id := call.id
        label := call.labelMd
        kind := call.kind
        content := call.content.map fun md => .contentBlock (.markdown md)
        status := terminalStatus call.status
        locations := call.locations
        rawInput := call.rawInput
        rawOutput := call.rawOutput
        toolName := call.toolName
        subagentId := none
        statusStartedAt := none }
  | .plan entries => .completedPlan entries

/-- What is stored of a transcript after it has been stored and restored a number of times. -/
def saves (w : Formats) (es : List AgentThreadEntry) : Nat → List PersistedEntryV2
  | 0 => es.filterMap (toPersisted w)
  | n + 1 => ((saves w es n).map fromPersisted).filterMap (toPersisted w)

/-! ## Without the data -/

def PersistedAssistantChunk.brief : PersistedAssistantChunk → Transcript.PersistedAssistantChunk
  | .message md => .message md
  | .thought md => .thought md

def PersistedEntryV2.brief : PersistedEntryV2 → Transcript.PersistedEntryV2
  | .user m => .user m.id m.contentMd (m.chunks.map AcpContentBlock.brief)
  | .assistant chunks => .assistant (chunks.map PersistedAssistantChunk.brief)
  | .tool call => .tool call.id call.labelMd call.status call.content
  | .plan entries => .plan (entries.map PlanEntry.content)

/-- **Restoring is that of the transcript, with the data added.** -/
theorem fromPersisted_brief (p : PersistedEntryV2) :
    (fromPersisted p).brief = Transcript.fromPersisted p.brief := by
  cases p with
  | user m => rfl
  | assistant chunks =>
    simp only [fromPersisted, AgentThreadEntry.brief, AssistantMessage.brief, List.map_map,
      PersistedEntryV2.brief, Transcript.fromPersisted]
    congr 2
    refine List.map_congr_left fun chunk _ => ?_
    cases chunk <;> rfl
  | tool call =>
    have hstatus : (terminalStatus call.status).brief = call.status.status := by
      cases call.status <;> rfl
    simp only [fromPersisted, AgentThreadEntry.brief, ToolCall.brief, List.map_map,
      PersistedEntryV2.brief, Transcript.fromPersisted, hstatus]
    rfl
  | plan entries => rfl

theorem toPersisted_brief {w : Formats} {e : AgentThreadEntry}
    {summary : Transcript.ToolCall → Transcript.ToolCallContent → List Char}
    (h : ∀ call, e = .toolCall call → ∀ content ∈ call.content,
      summary call.brief content.brief = toolCallContentSummary w call content) :
    (toPersisted w e).map PersistedEntryV2.brief = Transcript.toPersisted summary e.brief := by
  cases e with
  | userMessage m => rfl
  | assistantMessage m =>
    simp only [toPersisted, AgentThreadEntry.brief, AssistantMessage.brief, Option.map_some,
      PersistedEntryV2.brief, Transcript.toPersisted, List.map_map]
    congr 2
    refine List.map_congr_left fun chunk _ => ?_
    cases chunk <;> rfl
  | toolCall call =>
    have hcontent : call.content.map (toolCallContentSummary w call) =
        (call.content.map ToolCallContent.brief).map (summary call.brief) := by
      rw [List.map_map]
      exact List.map_congr_left fun content hc => (h call rfl content hc).symm
    rw [toPersisted, hcontent, Option.map_map]
    rfl
  | completedPlan entries => rfl

end SpkEditor.Entries
