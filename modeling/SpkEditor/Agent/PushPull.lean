import SpkEditor.Agent.Transcript
import Mathlib.Data.List.Infix
import Mathlib.Algebra.Order.Ring.Nat

/-!
# Push and pull of transcript entries

A client learns about the entries of a session in two ways: from the notification
`agent_session_message_appended`, which the store sends when an entry is new or has changed,
and from the tool `get_session`, which reports every entry under its index.

`NewEntry` notifies with the index over cold and live entries, `EntryUpdated` (at once, or
when its timer fires) with the index in the live thread; and the payload of both looks the
entry up in the live thread. Without a cold history the two are the same and the notification
says what `get_session` says, except that `get_session` rewrites the images of an assistant
message into links; with a cold history they never agree.
-/

namespace SpkEditor.Transcript

open List Option

/-- `truncate_preview`. -/
def truncatePreview : Nat → List Char → List Char
  | _, [] => []
  | 0, _ :: _ => ['…']
  | maxChars + 1, ch :: s => ch :: truncatePreview maxChars s

def imageLink (idx ordinal : Nat) : List Char :=
  '[' :: "image #".toList ++ Nat.toDigits 10 ordinal ++ "](spk-image://".toList ++
    Nat.toDigits 10 idx ++ ")".toList

/-- `IMAGE_LITERAL_RE.replace_all` with the links: `skip` characters belong to a literal that
has been replaced already. -/
def replaceImages (base : Nat) : (skip seen : Nat) → List Char → List Char
  | _, _, [] => []
  | skip + 1, seen, _ :: text => replaceImages base skip seen text
  | 0, seen, c :: text =>
    if imageLiteral.isPrefixOf (c :: text) then
      imageLink (base + seen) (seen + 1) ++
        replaceImages base (imageLiteral.length - 1) (seen + 1) text
    else c :: replaceImages base 0 seen text

/-- `IMAGE_LITERAL_RE.is_match`. -/
def hasImageLiteral (text : List Char) : Bool := text.tails.any imageLiteral.isPrefixOf

/-- `clean_assistant_message_text`. -/
def cleanAssistantMessageText (text : List Char) (imageIndexBase : Nat) : List Char :=
  if hasImageLiteral text then replaceImages imageIndexBase 0 0 text else text

/-! ## `get_session` -/

inductive EntryRoleDto where
  | user
  | assistant
  | toolCall
  | plan
deriving DecidableEq

/-- What `serde` makes of a role. -/
def EntryRoleDto.wire : EntryRoleDto → List Char
  | .user => "user".toList
  | .assistant => "assistant".toList
  | .toolCall => "tool_call".toList
  | .plan => "plan".toList

def entryRole : AgentThreadEntry → EntryRoleDto
  | .userMessage _ => .user
  | .assistantMessage _ => .assistant
  | .toolCall _ => .toolCall
  | .completedPlan _ => .plan

def countImagesInEntry : AgentThreadEntry → Nat
  | .userMessage m => m.chunks.countP (·.kind = .image)
  | .assistantMessage m => m.chunks.countP (·.block = .image)
  | .toolCall c => c.content.countP (· = .contentBlock .image)
  | .completedPlan _ => 0

def clientSendIds : AgentThreadEntry → List Int
  | .userMessage m => csidsFromBlocks m.chunks
  | _ => []

structure GetSessionParams where
  includeFullContent : Bool
  beforeIndex : Option Nat
  afterIndex : Option Nat
  count : Option Nat
  subagentFilter : Option (List Char)

structure EntrySummary where
  role : EntryRoleDto
  index : Nat
  preview : List Char
  markdown : Option (List Char)
  clientSendIds : List Int
  createdMs : Option Int
  subagentId : Option (List Char)

/-- `summarize_entry`; the image cursor is where the images of the entry start. -/
def summarizeEntry (entry : AgentThreadEntry) (index : Nat) (createdMs : Option Int)
    (includeFullContent : Bool) (imageCursor : Nat) : EntrySummary :=
  let markdownSource :=
    if entryRole entry = .assistant then
      cleanAssistantMessageText entry.toMarkdown imageCursor
    else entry.toMarkdown
  { role := entryRole entry
    index
    preview := truncatePreview 200 markdownSource
    markdown := if includeFullContent then some markdownSource else none
    clientSendIds := clientSendIds entry
    createdMs
    subagentId := entry.subagentId }

/-- The time in a slot, if there is one. -/
def Session.createdMs (s : Session) (index : Nat) : Option Int :=
  s.entryCreatedMs[index]?.filter (0 < ·)

section

variable (s : Session) (activeEmpty : Bool) (params : GetSessionParams)

def passesFilter (entry : AgentThreadEntry) : Bool :=
  match params.subagentFilter with
  | none => true
  | some filter =>
    if activeEmpty then true
    else if filter = "__main__".toList then entry.subagentId = none
    else entry.subagentId = some filter

/-- The loop of `get_session` over all entries: those kept, and how many pass the filter. -/
def walkEntries : (index imageCursor : Nat) → List ThreadEntry → List EntrySummary × Nat
  | _, _, [] => ([], 0)
  | index, imageCursor, e :: rest =>
    let (kept, total) :=
      walkEntries (index + 1) (imageCursor + countImagesInEntry e.entry) rest
    let passes := passesFilter activeEmpty params e.entry
    let total := if passes then total + 1 else total
    if passes && params.afterIndex.all (· < index) && params.beforeIndex.all (index < ·) then
      (summarizeEntry e.entry index (s.createdMs index) params.includeFullContent
        imageCursor :: kept, total)
    else (kept, total)

/-- `GetSessionTool::run`: the entries it reports, and their total. -/
def getSession : List EntrySummary × Nat :=
  let (kept, total) := walkEntries s activeEmpty params 0 0 s.transcript
  match params.count with
  | none => (kept, total)
  | some n => (kept.drop (kept.length - n), total)

end

/-! ## The notification -/

structure PayloadBody where
  role : List Char
  preview : List Char
  clientSendIds : List Int

structure Payload where
  entryIndex : Nat
  body : Option PayloadBody
  createdMs : Option Int

/-- `build_message_appended_payload`. Without a thread, or without an entry at the index in the
thread, only the index is left. -/
def buildMessageAppendedPayload (s : Session) (entryIndex : Nat) : Payload :=
  match s.acpThread.bind (·[entryIndex]?) with
  | none => ⟨entryIndex, none, none⟩
  | some e =>
    let role :=
      match e.entry with
      | .userMessage _ => "user".toList
      | .assistantMessage _ => "assistant".toList
      | .toolCall _ => "tool_call".toList
      | .completedPlan _ => "plan".toList
    ⟨entryIndex, some ⟨role, truncatePreview 200 e.entry.toMarkdown, clientSendIds e.entry⟩,
      s.createdMs entryIndex⟩

/-- The session, and of each entry of the thread that has changed and not been announced yet
since when (`entry_update_throttles`). -/
structure PushState where
  session : Session
  throttles : Nat → Option Nat

inductive PushOp where
  /-- The thread gets an entry, and `NewEntry` is handled. -/
  | newEntry (entry : AgentThreadEntry) (nowMs : Int)
  /-- An entry of the thread changes, and `EntryUpdated` is handled. -/
  | entryUpdated (idx : Nat) (entry : AgentThreadEntry) (now : Nat)
  /-- The debounce timer of an entry fires. -/
  | timerFired (idx : Nat)
  /-- Whatever else happens to the session. -/
  | change (session : Session)

/-- A notification: the index it is sent with, and beside it the place of the entry in the
thread. -/
structure Emission where
  entryIndex : Nat
  position : Nat

namespace PushState

def step (st : PushState) : PushOp → Option (PushState × List Emission)
  | .newEntry entry nowMs =>
    st.session.acpThread.map fun thread =>
      let s : Session :=
        { st.session with acpThread := some (thread ++ [⟨entry, some nowMs⟩]) }
      ({ st with session := s.newEntry nowMs }, [⟨s.newEntryIndex, s.live.length - 1⟩])
  | .entryUpdated idx entry now =>
    st.session.acpThread.map fun thread =>
      let s : Session :=
        { st.session with acpThread := some (thread.modify idx fun e => { e with entry }) }
      let firstDirtyAt := (st.throttles idx).getD now
      -- dirty for two seconds: announced at once
      if 2000 ≤ now - firstDirtyAt then
        (⟨s, Function.update st.throttles idx none⟩, [⟨idx, idx⟩])
      else (⟨s, Function.update st.throttles idx (some firstDirtyAt)⟩, [])
  | .timerFired idx =>
    match st.throttles idx with
    | none => some (st, [])
    | some _ => some ({ st with throttles := Function.update st.throttles idx none }, [⟨idx, idx⟩])
  | .change session => some ({ st with session }, [])

end PushState

/-! ## What is to hold -/

def GetSessionParams.Unfiltered (params : GetSessionParams) : Prop :=
  params.beforeIndex = none ∧ params.afterIndex = none ∧ params.count = none ∧
    params.subagentFilter = none

/-- The notification says of an entry what `get_session` says. -/
structure Payload.Agrees (p : Payload) (e : EntrySummary) : Prop where
  entryIndex : p.entryIndex = e.index
  body : ∃ body, p.body = some body ∧ body.role = e.role.wire ∧ body.preview = e.preview
  createdMs : p.createdMs = e.createdMs

def NoImageInPreview (entry : AgentThreadEntry) : Prop :=
  entryRole entry = .assistant → ∀ i, i < 200 → ¬ imageLiteral <+: entry.toMarkdown.drop i

theorem truncatePreview_replaceImages_iff (base n seen : Nat) (text : List Char) :
    truncatePreview n (replaceImages base 0 seen text) = truncatePreview n text ↔
      ∀ i, i < n → ¬ imageLiteral <+: text.drop i := by
  induction n generalizing text with
  | zero =>
    refine ⟨fun _ i hi => absurd hi (Nat.not_lt_zero i), fun _ => ?_⟩
    cases text with
    | nil => rfl
    | cons c text =>
      rw [replaceImages]
      split
      · rfl
      · rfl
  | succ n ih =>
    cases text with
    | nil => simp [replaceImages, truncatePreview, imageLiteral]
    | cons c text =>
      rw [replaceImages]
      split
      · rename_i hlit
        rw [ isPrefixOf_iff_prefix] at hlit
        -- the literal starts with a backtick, its link with a bracket
        obtain ⟨rest, hrest⟩ := hlit
        have hc : c = '\x60' := (List.cons.inj hrest).1.symm
        constructor
        · intro h
          have := (List.cons.inj h).1
          rw [hc] at this
          exact absurd this (by decide)
        · intro h
          exact absurd ⟨rest, hrest⟩ (h 0 (Nat.succ_pos n))
      · rename_i hlit
        rw [ isPrefixOf_iff_prefix] at hlit
        have hcons : truncatePreview (n + 1) (c :: replaceImages base 0 seen text) =
            truncatePreview (n + 1) (c :: text) ↔
              truncatePreview n (replaceImages base 0 seen text) = truncatePreview n text := by
          simp [truncatePreview]
        rw [hcons, ih]
        constructor
        · intro h i hi
          cases i with
          | zero => exact hlit
          | succ i => exact h i (by omega)
        · intro h i hi
          exact h (i + 1) (by omega)

/-- **The links change the preview exactly if an image starts in it.** -/
theorem truncatePreview_clean_iff (n base : Nat) (text : List Char) :
    truncatePreview n (cleanAssistantMessageText text base) = truncatePreview n text ↔
      ∀ i, i < n → ¬ imageLiteral <+: text.drop i := by
  rw [cleanAssistantMessageText]
  split
  · exact truncatePreview_replaceImages_iff base n 0 text
  · rename_i hno
    refine ⟨fun _ i _ hlit => hno ?_, fun _ => rfl⟩
    refine List.any_eq_true.mpr ⟨text.drop i, ?_, ?_⟩
    · exact (mem_tails ..).mpr (drop_suffix i text)
    · rw [ isPrefixOf_iff_prefix]
      exact hlit

/-! ## `get_session` without filters -/

section

variable {s : Session} {activeEmpty : Bool} {params : GetSessionParams}

def imagesBefore (entries : List ThreadEntry) (n : Nat) : Nat :=
  ((entries.take n).map fun e => countImagesInEntry e.entry).sum

theorem walkEntries_unfiltered (hp : params.Unfiltered) (index imageCursor : Nat)
    (entries : List ThreadEntry) (i : Nat) :
    (walkEntries s activeEmpty params index imageCursor entries).1[i]? =
      entries[i]?.map fun e => summarizeEntry e.entry (index + i) (s.createdMs (index + i))
        params.includeFullContent (imageCursor + imagesBefore entries i) := by
  obtain ⟨hbefore, hafter, -, hfilter⟩ := hp
  induction entries generalizing index imageCursor i with
  | nil => simp [walkEntries]
  | cons e rest ih =>
    have hkeep : (walkEntries s activeEmpty params index imageCursor (e :: rest)).1 =
        summarizeEntry e.entry index (s.createdMs index) params.includeFullContent
            imageCursor ::
          (walkEntries s activeEmpty params (index + 1)
            (imageCursor + countImagesInEntry e.entry) rest).1 := by
      simp [walkEntries, passesFilter, hfilter, hafter, hbefore]
    rw [hkeep]
    cases i with
    | zero => simp [imagesBefore]
    | succ i =>
      rw [List.getElem?_cons_succ, List.getElem?_cons_succ, ih]
      have hidx : index + 1 + i = index + (i + 1) := by omega
      have hcur : imageCursor + countImagesInEntry e.entry + imagesBefore rest i =
          imageCursor + imagesBefore (e :: rest) (i + 1) := by
        rw [imagesBefore, imagesBefore, take_succ_cons, map_cons, sum_cons]
        omega
      rw [hidx, hcur]

/-- **Every entry is reported, under its place in the transcript.** -/
theorem getSession_unfiltered (hp : params.Unfiltered) (i : Nat) :
    (getSession s activeEmpty params).1[i]? = s.transcript[i]?.map fun e =>
      summarizeEntry e.entry i (s.createdMs i) params.includeFullContent
        (imagesBefore s.transcript i) := by
  have hwalk := @walkEntries_unfiltered s activeEmpty params hp 0 0 s.transcript i
  rw [zero_add, zero_add] at hwalk
  rw [getSession, hp.2.2.1]
  exact hwalk

end

section

variable {s : Session} {entryIndex position : Nat} {e : ThreadEntry}

theorem payload_some (he : s.live[entryIndex]? = some e) :
    buildMessageAppendedPayload s entryIndex =
      ⟨entryIndex, some ⟨(entryRole e.entry).wire, truncatePreview 200 e.entry.toMarkdown,
        clientSendIds e.entry⟩, s.createdMs entryIndex⟩ := by
  have hget : s.acpThread.bind (·[entryIndex]?) = some e := by
    cases hth : s.acpThread with
    | none => simp [Session.live, hth] at he
    | some thread => simpa [Session.live, hth] using he
  rw [buildMessageAppendedPayload, hget]
  obtain ⟨entry, created⟩ := e
  cases entry with
  | userMessage m => rfl
  | assistantMessage m => rfl
  | toolCall c => rfl
  | completedPlan items => rfl

theorem payload_none (he : s.live[entryIndex]? = none) :
    (buildMessageAppendedPayload s entryIndex).body = none := by
  have hget : s.acpThread.bind (·[entryIndex]?) = none := by
    cases hth : s.acpThread with
    | none => rfl
    | some thread => simpa [Session.live, hth] using he
  rw [buildMessageAppendedPayload, hget]

theorem preview_summarizeEntry_iff {index imageCursor : Nat} {createdMs : Option Int}
    {full : Bool} {entry : AgentThreadEntry} :
    truncatePreview 200 entry.toMarkdown =
        (summarizeEntry entry index createdMs full imageCursor).preview ↔
      NoImageInPreview entry := by
  rw [NoImageInPreview, summarizeEntry]
  split
  · rename_i hrole
    rw [eq_comm, truncatePreview_clean_iff]
    exact ⟨fun h _ => h, fun h => h hrole⟩
  · rename_i hrole
    exact ⟨fun _ h => absurd h hrole, fun _ => rfl⟩

/-- What is sent with an index agrees with what is reported, for an index that is the place in
the thread or the place behind the cold entries. -/
theorem payload_agrees_iff {activeEmpty : Bool} {params : GetSessionParams}
    (hp : params.Unfiltered) (he : s.live[position]? = some e)
    (hidx : entryIndex = position ∨
      entryIndex = s.coldEntries.length + position ∧ s.live.length = position + 1) :
    (∃ summary, (getSession s activeEmpty params).1[s.coldEntries.length + position]? =
        some summary ∧ (buildMessageAppendedPayload s entryIndex).Agrees summary) ↔
      s.coldEntries = [] ∧ NoImageInPreview e.entry := by
  have hreport : (getSession s activeEmpty params).1[s.coldEntries.length + position]? =
      some (summarizeEntry e.entry (s.coldEntries.length + position)
        (s.createdMs (s.coldEntries.length + position)) params.includeFullContent
        (imagesBefore s.transcript (s.coldEntries.length + position))) := by
    rw [getSession_unfiltered hp, Session.transcript,
      List.getElem?_append_right (Nat.le_add_right _ _), Nat.add_sub_cancel_left, he,
      map_some]
  rw [hreport]
  constructor
  · rintro ⟨summary, hsome, hagree⟩
    cases hsome
    have hcold : s.coldEntries = [] := by
      rcases hidx with rfl | ⟨rfl, hlast⟩
      · have hindex : entryIndex = s.coldEntries.length + entryIndex := by
          have := hagree.entryIndex
          rwa [payload_some he] at this
        exact List.length_eq_zero_iff.mp (by omega)
      · by_contra hne
        have hpos := List.length_pos_iff.mpr hne
        obtain ⟨body, hbody, -⟩ := hagree.body
        rw [payload_none (List.getElem?_eq_none (by omega))] at hbody
        simp at hbody
    have hpos : entryIndex = position := by
      rcases hidx with h | ⟨h, -⟩
      · exact h
      · simpa [hcold] using h
    subst hpos
    rw [payload_some he] at hagree
    obtain ⟨body, hbody, -, hpreview⟩ := hagree.body
    cases hbody
    exact ⟨hcold, preview_summarizeEntry_iff.mp hpreview⟩
  · rintro ⟨hcold, himage⟩
    have hlen : s.coldEntries.length = 0 := by rw [hcold, length_nil]
    have hpos : entryIndex = position := by
      rcases hidx with h | ⟨h, -⟩
      · exact h
      · omega
    subst hpos
    refine ⟨_, rfl, ?_⟩
    rw [payload_some he, hlen, zero_add]
    exact ⟨rfl, ⟨_, rfl, rfl, preview_summarizeEntry_iff.mpr himage⟩, rfl⟩

end

/-! ## Every notification -/

section

variable {st t : PushState} {op : PushOp} {emissions : List Emission}
  (hs : st.step op = some (t, emissions)) {em : Emission} (hem : em ∈ emissions)
include hs hem

theorem PushState.emission_index :
    t.session.coldEntries = st.session.coldEntries ∧
      (em.entryIndex = em.position ∨
        em.entryIndex = t.session.coldEntries.length + em.position ∧
          t.session.live.length = em.position + 1) := by
  cases op with
  | newEntry entry nowMs =>
    obtain ⟨thread, -, hst⟩ := Option.map_eq_some_iff.mp hs
    cases hst
    obtain rfl := List.mem_singleton.mp hem
    refine ⟨rfl, .inr ⟨rfl, ?_⟩⟩
    simp [Session.live, Session.newEntry]
  | entryUpdated idx entry now =>
    obtain ⟨thread, -, hst⟩ := Option.map_eq_some_iff.mp hs
    dsimp only at hst
    split at hst
    · cases hst
      obtain rfl := List.mem_singleton.mp hem
      exact ⟨rfl, .inl rfl⟩
    · cases hst
      simp at hem
  | timerFired idx =>
    simp only [PushState.step] at hs
    split at hs
    · cases hs
      simp at hem
    · cases hs
      obtain rfl := List.mem_singleton.mp hem
      exact ⟨rfl, .inl rfl⟩
  | change session =>
    cases hs
    simp at hem

/-- **Push and pull agree exactly without a cold history**, and without an image in the preview
of an assistant message. -/
theorem push_agrees_with_pull_iff {e : ThreadEntry} (he : t.session.live[em.position]? = some e) (activeEmpty : Bool)
    {params : GetSessionParams} (hp : params.Unfiltered) :
    (∃ summary,
        (getSession t.session activeEmpty params).1[t.session.coldEntries.length + em.position]? =
          some summary ∧
        (buildMessageAppendedPayload t.session em.entryIndex).Agrees summary) ↔
      st.session.coldEntries = [] ∧ NoImageInPreview e.entry := by
  obtain ⟨hcold, hidx⟩ := PushState.emission_index hs hem
  rw [← hcold]
  exact payload_agrees_iff hp he hidx

end

def firstMessage : AgentThreadEntry := .userMessage ⟨none, .markdown ['h', 'i'], [], none⟩

/-- A call of `get_session` that asks for everything. -/
def everything : GetSessionParams := ⟨false, none, none, none, none⟩

/-- A new session announces its first message as it reports it. -/
theorem push_agrees_with_pull_first :
    ∃ summary,
      (getSession ⟨[], some [⟨firstMessage, some 1000⟩], [1000]⟩ true everything).1[0]? =
          some summary ∧
        (buildMessageAppendedPayload ⟨[], some [⟨firstMessage, some 1000⟩], [1000]⟩ 0).Agrees
          summary := by
  have hs : PushState.step ⟨⟨[], some [], []⟩, fun _ => none⟩ (.newEntry firstMessage 1000) =
      some (⟨⟨[], some [⟨firstMessage, some 1000⟩], [1000]⟩, fun _ => none⟩, [⟨0, 0⟩]) := rfl
  have hp : everything.Unfiltered := ⟨rfl, rfl, rfl, rfl⟩
  refine (push_agrees_with_pull_iff hs (List.mem_singleton.mpr rfl) rfl true hp).mpr ⟨rfl, ?_⟩
  intro hrole
  exact absurd hrole (by decide)

/-- A session with one cold message gets another, and that one changes for two seconds. Neither
is announced as it is reported: the first notification has no role and no preview, the second
has the index of the cold message. -/
theorem push_differs_after_resume :
    (∃ (st t : PushState) (em : Emission),
        st.step (.newEntry firstMessage 2000) = some (t, [em]) ∧
        ¬ ∃ summary, (getSession t.session true everything).1[t.session.coldEntries.length +
            em.position]? = some summary ∧
          (buildMessageAppendedPayload t.session em.entryIndex).Agrees summary) ∧
      ∃ (st t : PushState) (em : Emission),
        st.step (.entryUpdated 0 firstMessage 2000) = some (t, [em]) ∧
        ¬ ∃ summary, (getSession t.session true everything).1[t.session.coldEntries.length +
            em.position]? = some summary ∧
          (buildMessageAppendedPayload t.session em.entryIndex).Agrees summary := by
  have hp : everything.Unfiltered := ⟨rfl, rfl, rfl, rfl⟩
  constructor
  · refine ⟨⟨⟨[⟨firstMessage, some 1000⟩], some [], [1000]⟩, fun _ => none⟩, _, _, rfl, ?_⟩
    intro h
    exact absurd ((payload_agrees_iff hp rfl (.inr ⟨rfl, rfl⟩)).mp h).1 (by simp [Session.newEntry])
  · refine ⟨⟨⟨[⟨firstMessage, some 1000⟩], some [⟨firstMessage, some 2000⟩], [1000, 2000]⟩,
      fun _ => some 0⟩, _, _, rfl, ?_⟩
    intro h
    exact absurd ((payload_agrees_iff hp rfl (.inl rfl)).mp h).1 (by simp)

end SpkEditor.Transcript
