import SpkEditor.Agent.Resave

/-!
# Transcripts stored again and again

Each kind of tool output is stored as a text whose lines are known, so whether it stays is a
condition on what the tool has reported: a diff never does, plain text does up to the limit
less the two lines of its fence. Everything else that is stored of an entry comes back as it
was, so a transcript keeps its text over any number of saves exactly if each of its finished
tool calls has reported output of that kind.
-/

namespace SpkEditor.Entries

open Remote (JsonValue)

open Cut

/-! ## Output that stays -/

def TextStable (text : List Char) : Prop :=
  if trimEnd text = [] then (lines text).length ≤ maxLines
  else if alreadyFenced text then Fits (lines text)
  else Fits (ticks4 :: lines (trimEnd text) ++ [ticks4])

def Terminal.shownLines (t : Terminal) : List (List Char) :=
  ticks4 :: lines t.trimmed ++
    ticks4 :: if t.wasTruncated then ["_(output truncated)_".toList] else []

def RawOutputStable (w : Formats) (otherwise : Prop) : Option JsonValue → Prop
  | none => otherwise
  | some .null => otherwise
  | some (.str s) =>
    if trimEnd s = [] then otherwise else Fits (ticks4 :: lines (trimEnd s) ++ [ticks4])
  | some (.bool _) => False
  | some (.int _) => False
  | some (.float digits) => Stable digits
  | some other =>
    if trim (w.jsonPretty other) ∈ emptyJson then otherwise
    else Fits ("```json".toList :: lines (w.jsonPretty other ++ "\n```".toList))

def ContentStable (w : Formats) (rawOutput : Option JsonValue) : ToolCallContent → Prop
  | .contentBlock block => TextStable block.toMarkdown
  | .diff _ => False
  | .terminal t =>
    if t.trimmed = [] then RawOutputStable w False rawOutput
    else if noOutputYet <:+: t.trimmed then RawOutputStable w (Fits t.shownLines) rawOutput
    else Fits t.shownLines

/-! ## Each kind of output -/

section

variable {w : Formats} {text : List Char}

theorem stable_of_fenced (h : alreadyFenced text = true) : Stable text ↔ Fits (lines text) := by
  rw [Stable, if_neg (trimEnd_ne_nil_of_fenced h)]
  exact and_iff_right h

theorem not_stable_cons {c : Char} (hspace : isSpace c = false) (hc : c ≠ '\x60')
    (text : List Char) : ¬ Stable (c :: text) := by
  have hne : trimEnd (c :: text) ≠ [] := by
    intro hnil
    obtain ⟨space, htext, hall⟩ := trimEnd_append (c :: text)
    rw [hnil, List.nil_append] at htext
    have hblank := hall c (htext ▸ List.mem_cons_self ..)
    rw [hspace] at hblank
    cases hblank
  rw [Stable, if_neg hne, alreadyFenced_cons hspace hc]
  intro h
  cases h.1

theorem lines_fenced (hne : trimEnd text ≠ []) (rest : List Char) :
    lines (ticks4 ++ '\n' :: trimEnd text ++ '\n' :: rest) =
      ticks4 :: lines (trimEnd text) ++ lines rest := by
  obtain ⟨c, hlast, hc⟩ := trimEnd_getLast? hne
  have hn : c ≠ '\n' := by
    rintro rfl
    cases hc
  have hr : c ≠ '\r' := by
    rintro rfl
    cases hc
  rw [List.append_assoc, List.cons_append, lines_line (by decide), lines_break hlast hn hr]
  rfl

theorem stable_fenced (hne : trimEnd text ≠ []) :
    Stable (ticks4 ++ '\n' :: trimEnd text ++ '\n' :: ticks4) ↔
      Fits (ticks4 :: lines (trimEnd text) ++ [ticks4]) := by
  have hlast : lines ticks4 = [ticks4] := lines_of_not_mem (by decide) (by decide)
  have hfenced : alreadyFenced (ticks4 ++ '\n' :: trimEnd text ++ '\n' :: ticks4) = true := by
    exact alreadyFenced_ticks4 _
  rw [stable_of_fenced hfenced, lines_fenced hne, hlast]

theorem fencePlainText_stable_iff (text : List Char) :
    Stable (fencePlainText text) ↔ TextStable text := by
  rw [TextStable, fencePlainText]
  split
  · rename_i hblank
    rw [Stable, if_pos hblank]
  · rename_i hne
    split
    · rename_i hfenced
      exact stable_of_fenced hfenced
    · exact stable_fenced hne

theorem diffSummary_not_stable (d : Diff) : ¬ Stable (diffSummaryMarkdown w d) := by
  rw [diffSummaryMarkdown]
  split
  · exact not_stable_cons (c := '*') (by decide) (by decide) _
  · exact not_stable_cons (c := '*') (by decide) (by decide) _

theorem intDigits_not_stable (n : Int) : ¬ Stable (intDigits n) := by
  rw [intDigits]
  split
  · exact not_stable_cons (by decide) (by decide) _
  · cases hdigits : Nat.toDigits 10 n.natAbs with
    | nil => exact absurd hdigits Nat.toDigits_ne_nil
    | cons c rest =>
      have hc : c.isDigit = true := by
        refine Nat.isDigit_of_mem_toDigits (b := 10) (n := n.natAbs) (by decide) (by decide) ?_
        rw [hdigits]
        exact List.mem_cons_self ..
      refine not_stable_cons (isSpace_of_isDigit hc) ?_ rest
      rintro rfl
      cases hc

theorem rawOutput_stable_iff (raw : Option JsonValue) (primary : List Char) :
    Stable ((rawOutputFallbackMarkdown w raw).getD primary) ↔
      RawOutputStable w (Stable primary) raw := by
  have hjson (pretty : List Char) : Stable ("```json\n".toList ++ pretty ++ "\n```".toList) ↔
        Fits ("```json".toList :: lines (pretty ++ "\n```".toList)) := by
    have hlines : lines ("```json\n".toList ++ pretty ++ "\n```".toList) =
        "```json".toList :: lines (pretty ++ "\n```".toList) := by
      exact lines_line (show '\n' ∉ "```json".toList by decide) _
    have hfenced : alreadyFenced ("```json\n".toList ++ pretty ++ "\n```".toList) = true := by
      exact alreadyFenced_ticks3 ("json\n".toList ++ (pretty ++ "\n```".toList))
    rw [stable_of_fenced hfenced, hlines]
  cases raw with
  | none => rfl
  | some value =>
    cases value with
    | null => rfl
    | bool b =>
      refine iff_of_false ?_ id
      cases b
      · exact not_stable_cons (c := 'f') (by decide) (by decide) _
      · exact not_stable_cons (c := 't') (by decide) (by decide) _
    | int n => exact iff_of_false (intDigits_not_stable n) id
    | float digits => rfl
    | str s =>
      rw [rawOutputFallbackMarkdown, RawOutputStable]
      split
      · rfl
      · rename_i hne
        exact stable_fenced hne
    | arr items =>
      rw [rawOutputFallbackMarkdown, RawOutputStable]
      · split
        · rfl
        · exact hjson _
      all_goals simp
    | obj fields =>
      rw [rawOutputFallbackMarkdown, RawOutputStable]
      · split
        · rfl
        · exact hjson _
      all_goals simp

/-- A part without a break that begins before one ends before it. -/
theorem prefix_break {pat a b : List Char} (hpat : '\n' ∉ pat) (h : pat <+: a ++ '\n' :: b) :
    pat <+: a := by
  rcases List.prefix_or_prefix_of_prefix h (List.prefix_append a _) with h' | h'
  · exact h'
  · obtain ⟨rest, rfl⟩ := h'
    rw [List.prefix_append_right_inj] at h
    cases rest with
    | nil => simp
    | cons c rest =>
      obtain ⟨rfl, -⟩ := List.cons_prefix_cons.mp h
      exact absurd (by simp) hpat

theorem infix_break {pat : List Char} (hne : pat ≠ []) (hpat : '\n' ∉ pat) (a b : List Char) :
    pat <:+: a ++ '\n' :: b ↔ pat <:+: a ∨ pat <:+: b := by
  constructor
  · intro h
    induction a with
    | nil =>
      rcases List.infix_cons_iff.mp h with h | h
      · exact absurd (List.prefix_nil.mp (prefix_break (a := []) hpat h)) hne
      · exact Or.inr h
    | cons c a ih =>
      rcases List.infix_cons_iff.mp h with h | h
      · exact Or.inl (prefix_break (a := c :: a) hpat h).isInfix
      · exact (ih h).imp_left (List.infix_cons ·)
  · intro h
    rcases h with h | h
    · exact h.trans (List.prefix_append _ _).isInfix
    · exact h.trans ((List.suffix_cons _ _).trans (List.suffix_append _ _)).isInfix

section

variable {t : Terminal} (hne : t.trimmed ≠ [])
include hne

theorem terminalOutput_eq : terminalOutputMarkdown t = ticks4 ++ '\n' :: t.trimmed ++ '\n' ::
      (ticks4 ++ if t.wasTruncated then '\n' :: "_(output truncated)_".toList else []) := by
  obtain ⟨c, hlast, hc⟩ := trimEnd_getLast? hne
  have hopen : t.trimmed.getLast? ≠ some '\n' := by
    intro h
    rw [Terminal.trimmed, hlast, Option.some.injEq] at h
    subst h
    cases hc
  rw [terminalOutputMarkdown, if_neg hne, if_neg hopen]
  simp only [List.append_assoc, List.cons_append, List.nil_append]
  rfl

theorem terminalOutput_stable_iff : Stable (terminalOutputMarkdown t) ↔ Fits t.shownLines := by
  have hticks : lines ticks4 = [ticks4] := lines_of_not_mem (by decide) (by decide)
  have hnote : lines ("_(output truncated)_".toList) = ["_(output truncated)_".toList] :=
    lines_of_not_mem (by decide) (by decide)
  have hbody (rest : List Char) : lines (ticks4 ++ '\n' :: t.trimmed ++ '\n' :: rest) =
      ticks4 :: lines t.trimmed ++ lines rest := lines_fenced hne rest
  have hlines : lines (terminalOutputMarkdown t) = t.shownLines := by
    rw [terminalOutput_eq hne, hbody, Terminal.shownLines]
    cases t.wasTruncated with
    | false => rw [if_neg Bool.false_ne_true, List.append_nil, hticks]; rfl
    | true => rw [if_pos rfl, lines_line (by decide), hnote]; rfl
  have hfenced : alreadyFenced (terminalOutputMarkdown t) = true := by
    rw [terminalOutput_eq hne, List.append_assoc]
    exact alreadyFenced_ticks4 _
  rw [stable_of_fenced hfenced, hlines]

theorem noOutputYet_infix_iff :
    noOutputYet <:+: terminalOutputMarkdown t ↔ noOutputYet <:+: t.trimmed := by
  have hpat : noOutputYet ≠ [] := by decide
  have hline : '\n' ∉ noOutputYet := by decide
  have hticks : ¬ noOutputYet <:+: ticks4 := by decide
  have hend : ¬ noOutputYet <:+:
      ticks4 ++ if t.wasTruncated then '\n' :: "_(output truncated)_".toList else [] := by
    split <;> decide
  rw [terminalOutput_eq hne, infix_break hpat hline, infix_break hpat hline]
  constructor
  · intro h
    exact (h.resolve_right hend).resolve_left hticks
  · intro h
    exact Or.inl (Or.inr h)

end

section

variable (call : ToolCall) (content : ToolCallContent)

theorem content_stable_iff :
    Stable (contentMarkdown w call content) ↔ ContentStable w call.rawOutput content := by
  cases content with
  | contentBlock block => exact fencePlainText_stable_iff _
  | diff d => exact iff_of_false (diffSummary_not_stable d) id
  | terminal t =>
    rw [contentMarkdown, ContentStable]
    by_cases hblank : t.trimmed = []
    · have hprimary : terminalOutputMarkdown t = '_' :: noOutputYet ++ ['_'] := by
        rw [terminalOutputMarkdown, if_pos hblank]
      have hfalse : Stable ('_' :: noOutputYet ++ ['_']) ↔ False :=
        iff_false_intro (not_stable_cons (by decide) (by decide) _)
      rw [hprimary, if_pos (by decide), rawOutput_stable_iff, if_pos hblank, hfalse]
    · rw [if_neg hblank]
      by_cases hphrase : noOutputYet <:+: t.trimmed
      · rw [if_pos ((noOutputYet_infix_iff hblank).mpr hphrase), if_pos hphrase,
          rawOutput_stable_iff, terminalOutput_stable_iff hblank]
      · rw [if_neg (mt (noOutputYet_infix_iff hblank).mp hphrase), if_neg hphrase,
          terminalOutput_stable_iff hblank]

/-- **What a piece of output is stored as stays exactly if it is of that kind.** -/
theorem summary_stays_iff :
    truncateToolSummary (fencePlainText (toolCallContentSummary w call content)) =
        toolCallContentSummary w call content ↔ ContentStable w call.rawOutput content := by
  rw [toolCallContentSummary, truncate_fence_truncate_iff, content_stable_iff]

end

end

/-- The output of a finished tool call stays as it is stored. -/
def AgentThreadEntry.Settled (w : Formats) : AgentThreadEntry → Prop
  | .toolCall call => call.status.terminal.isSome →
      ∀ content ∈ call.content, ContentStable w call.rawOutput content
  | _ => True

/-- What a stored entry is stored as once it has been restored. -/
def PersistedEntryV2.again : PersistedEntryV2 → PersistedEntryV2
  | .tool call => .tool { call with
      content := call.content.map fun md => truncateToolSummary (fencePlainText md) }
  | other => other

section

variable {w : Formats} {es : List AgentThreadEntry}

theorem terminal_restored (status : Transcript.TerminalToolCallStatus) :
    (terminalStatus status).terminal = some status := by
  cases status <;> rfl

theorem chunk_restored (chunk : PersistedAssistantChunk) : chunk.restored.toPersisted = chunk := by
  cases chunk <;> rfl

theorem toPersisted_restored (p : PersistedEntryV2) :
    toPersisted w (fromPersisted p) = some p.again := by
  cases p with
  | user m => rfl
  | assistant chunks =>
    have hchunks : (chunks.map PersistedAssistantChunk.restored).map
        AssistantMessageChunk.toPersisted = chunks := by
      rw [List.map_map]
      exact List.map_id'' chunk_restored chunks
    rw [fromPersisted, toPersisted, hchunks]
    rfl
  | tool call =>
    rw [fromPersisted, toPersisted, terminal_restored, List.map_map]
    rfl
  | plan entries => rfl

/-- A stored entry comes back the same exactly if its output stays. -/
theorem again_eq_iff {e : AgentThreadEntry} {p : PersistedEntryV2}
    (h : toPersisted w e = some p) : p.again = p ↔ e.Settled w := by
  cases e with
  | userMessage m =>
    cases h
    exact iff_of_true rfl trivial
  | assistantMessage m =>
    cases h
    exact iff_of_true rfl trivial
  | completedPlan entries =>
    cases h
    exact iff_of_true rfl trivial
  | toolCall call =>
    obtain ⟨status, hstatus, rfl⟩ := Option.map_eq_some_iff.mp h
    rw [AgentThreadEntry.Settled, hstatus, PersistedEntryV2.again]
    simp only [PersistedEntryV2.tool.injEq, PersistedToolCall.mk.injEq, List.map_map, true_and,
      and_true, List.map_inj_left, Function.comp_apply, summary_stays_iff, Option.isSome_some,
      forall_const]

theorem settled_iff (e : AgentThreadEntry) :
    (∀ p, toPersisted w e = some p → p.again = p) ↔ e.Settled w := by
  cases hp : toPersisted w e with
  | some p =>
    rw [← again_eq_iff hp]
    simp
  | none =>
    refine iff_of_true (fun p h => by cases h) ?_
    cases e with
    | toolCall call =>
      intro hterminal
      rw [toPersisted, Option.map_eq_none_iff] at hp
      rw [hp] at hterminal
      cases hterminal
    | userMessage m => trivial
    | assistantMessage m => trivial
    | completedPlan entries => trivial

theorem saves_succ (n : Nat) : saves w es (n + 1) = (saves w es n).map PersistedEntryV2.again := by
  have hsome : toPersisted w ∘ fromPersisted = some ∘ PersistedEntryV2.again :=
    funext toPersisted_restored
  rw [saves, List.filterMap_map, hsome, List.filterMap_eq_map]

theorem saves_fixed_iff : (∀ n, saves w es n = saves w es 0) ↔
    ∀ e ∈ es, ∀ p, toPersisted w e = some p → p.again = p := by
  have hfirst : saves w es 1 = saves w es 0 ↔ ∀ p ∈ saves w es 0, p.again = p := by
    rw [saves_succ]
    conv_lhs => rw [← List.map_id (saves w es 0), List.map_map, List.map_inj_left]
    rfl
  constructor
  · intro h e he p hp
    exact hfirst.mp (h 1) p (List.mem_filterMap.mpr ⟨e, he, hp⟩)
  · intro h n
    have hone : saves w es 1 = saves w es 0 := by
      refine hfirst.mpr fun p hp => ?_
      obtain ⟨e, he, hep⟩ := List.mem_filterMap.mp hp
      exact h e he p hep
    induction n with
    | zero => rfl
    | succ n ih => rw [saves_succ, ih, ← saves_succ, hone]

end

/-- **A transcript keeps its text exactly if its tool output stays.** Each stored entry is
stored the same again once it has been restored, and any number of saves store the same, if
and only if every finished tool call has reported output that the fence and the limit leave
alone. -/
theorem saves_idempotent_iff (w : Formats) (es : List AgentThreadEntry) :
    ((∀ e ∈ es, ∀ p, toPersisted w e = some p → toPersisted w (fromPersisted p) = some p) ↔
        ∀ e ∈ es, e.Settled w) ∧
      ((∀ n, saves w es n = saves w es 0) ↔ ∀ e ∈ es, e.Settled w) := by
  have hsettled : (∀ e ∈ es, ∀ p, toPersisted w e = some p → p.again = p) ↔
      ∀ e ∈ es, e.Settled w := forall₂_congr fun e _ => settled_iff e
  constructor
  · simp only [toPersisted_restored, Option.some.injEq]
    exact hsettled
  · exact saves_fixed_iff.trans hsettled

/-- A finished search with fourteen matches. -/
def grepCall : ToolCall where
  id := "toolu_1".toList
  label := "grep".toList
  kind := "search".toList
  content := [.contentBlock (.markdown "1\n2\n3\n4\n5\n6\n7\n8\n9\na\nb\nc\nd\ne".toList)]
  status := .completed
  locations := []
  rawInput := none
  rawOutput := none
  toolName := some "Grep".toList
  subagentId := none
  statusStartedAt := none

/-- The first save has left out the closing fence; the second counts three lines it has itself
put there. -/
theorem saves_grep_differ :
    let w : Formats := ⟨fun _ _ => [], fun _ => []⟩
    let stored (n : Nat) := (saves w [.toolCall grepCall] n).map fun p =>
      match p with
      | .tool call => call.content
      | _ => []
    let fenced := "````\n1\n2\n3\n4\n5\n6\n7\n8\n9\na\nb\nc\nd\ne\n````\n\n".toList
    stored 0 = [[fenced ++ "_… (+1 more lines)_".toList]] ∧
      stored 1 = [[fenced ++ "_… (+3 more lines)_".toList]] ∧
      ¬ ∀ p, toPersisted w (.toolCall grepCall) = some p →
        toPersisted w (fromPersisted p) = some p := by
  refine ⟨by decide +kernel, by decide +kernel, ?_⟩
  intro h
  have hcontent := h _ rfl
  have hlist := congrArg (fun p => p.map fun p =>
    match p with
    | .tool call => call.content
    | _ => []) hcontent
  revert hlist
  decide +kernel

end SpkEditor.Entries
