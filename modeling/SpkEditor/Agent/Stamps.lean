import SpkEditor.Agent.Transcript
import SpkEditor.Lib.Run
import Mathlib.Algebra.Order.Ring.Nat

/-!
# The creation times of a transcript

`entry_created_ms` has a slot for each entry of the cold history and the live thread
together. A new entry is stamped behind the cold ones; a rewind, which counts the entries of
the live thread only, cuts the vector where the thread was cut and does not add the cold
ones.

The vector stays aligned all the same: what a rewind cuts away too much is filled with the
sentinel later. But the surviving entries between the two places lose their times. The other
way to lose the alignment is a second resume: it passed its check while the session was cold,
and replaces a thread whose entries are stamped already.
-/

namespace SpkEditor.Transcript

open List Option

/-! ## The system -/

/-- The session, if it is open, every blob its row has held, and the number of
`resume_session` calls that are waiting for their thread. -/
structure Stored where
  session : Option Session
  blobs : List PersistedSession
  resumes : Nat

inductive TranscriptOp where
  /-- `create_session`, with the thread of the new agent session. -/
  | create (thread : List AgentThreadEntry)
  /-- `restore_open_tabs` and its siblings, from a blob of the row. -/
  | restore (blob : Option PersistedSession)
  /-- `resume_session` up to its check. -/
  | resume
  /-- `resume_session` once it has its thread, and the blob it read on the way. -/
  | resumed (thread : List AgentThreadEntry) (blob : Option PersistedSession)
  | reset (thread : List AgentThreadEntry)
  | rotate (thread : List AgentThreadEntry)
  | close
  /-- `persist_session_blob`, wherever it is called from. -/
  | persist
  /-- `push_entry` in the thread, and `NewEntry` in the store. -/
  | push (entry : AgentThreadEntry) (nowMs : Int)
  /-- An entry changes in place, with `EntryUpdated` or without. -/
  | update (idx : Nat) (entry : AgentThreadEntry)
  /-- `rewind` to before the entry at `idx`, and `EntriesRemoved`. -/
  | rewind (idx : Nat)
  /-- A refused turn: a completed plan is pushed, if there is one, and the thread is cut
  before the last user message in the same update, so that `NewEntry` and `EntriesRemoved`
  come when both have happened. -/
  | refuse (plan : Option AgentThreadEntry) (idx : Nat) (nowMs : Int)

/-- The entries a thread brings along. -/
def unseen (thread : List AgentThreadEntry) : List ThreadEntry := thread.map fun e => ⟨e, none⟩

/-- A session built from a blob, live or cold. -/
def hydrate (blob : Option PersistedSession) (acpThread : Option (List ThreadEntry)) : Session :=
  ⟨(coldEntriesFromPersisted blob).1, acpThread, (coldEntriesFromPersisted blob).2⟩

def Stored.Reads (st : Stored) (blob : Option PersistedSession) : Prop :=
  ∀ b, blob = some b → b ∈ st.blobs

instance (st : Stored) (blob : Option PersistedSession) : Decidable (st.Reads blob) :=
  match blob with
  | none => .isTrue fun _ h => nomatch h
  | some b =>
    decidable_of_iff (b ∈ st.blobs) ⟨fun hb _ h => some.inj h ▸ hb, fun h => h b rfl⟩

namespace Stored

section

variable (summary : ToolCall → ToolCallContent → List Char)

def step (st : Stored) : TranscriptOp → Option Stored
  | .create thread =>
    match st.session with
    | none => some { st with session := some ⟨[], some (unseen thread), []⟩ }
    | some _ => none
  | .restore blob =>
    match st.session with
    | none => if st.Reads blob then some { st with session := some (hydrate blob none) } else none
    | some _ => none
  | .resume =>
    match st.session with
    | some ⟨_, some _, _⟩ => some st
    | _ => some { st with resumes := st.resumes + 1 }
  | .resumed thread blob =>
    if 0 < st.resumes ∧ st.Reads blob then
      let st := { st with resumes := st.resumes - 1 }
      match st.session with
      | some s => some { st with session := some { s with acpThread := some (unseen thread) } }
      | none => some { st with session := some (hydrate blob (some (unseen thread))) }
    else none
  | .reset thread =>
    st.session.map fun s => { st with session := some (s.newContext (unseen thread)) }
  | .rotate thread =>
    st.session.map fun s => { st with session := some (s.newContext (unseen thread)) }
  | .close => some { st with session := none }
  | .persist =>
    st.session.map fun s => { st with blobs := serializableSnapshot summary s :: st.blobs }
  | .push entry nowMs =>
    match st.session with
    | some ⟨cold, some thread, stamps⟩ =>
      let s : Session := ⟨cold, some (thread ++ [⟨entry, some nowMs⟩]), stamps⟩
      -- the blob is written before the entry is stamped
      some { st with
        session := some (s.newEntry nowMs)
        blobs := serializableSnapshot summary s :: st.blobs }
    | _ => none
  | .update idx entry =>
    match st.session with
    | some ⟨cold, some thread, stamps⟩ =>
      some { st with
        session := some ⟨cold, some (thread.modify idx fun e => { e with entry }), stamps⟩ }
    | _ => none
  | .rewind idx =>
    match st.session with
    | some ⟨cold, some thread, stamps⟩ =>
      if idx < thread.length then
        let s : Session := ⟨cold, some (thread.take idx), stamps⟩
        some { st with session := some (s.entriesRemoved idx) }
      else none
    | _ => none
  | .refuse plan idx nowMs =>
    match st.session with
    | some ⟨cold, some thread, stamps⟩ =>
      if idx < thread.length then
        let s : Session := ⟨cold, some (thread.take idx), stamps⟩
        match plan with
        | none => some { st with session := some (s.entriesRemoved idx) }
        | some _ =>
          some { st with
            session := some ((s.newEntry nowMs).entriesRemoved idx)
            blobs := serializableSnapshot summary s :: st.blobs }
      else none
    | _ => none

end

end Stored

/-! ## What is to hold -/

/-- The time an entry is shown with. An absent slot is a slot without a time. -/
def stampOf (stamps : List Int) (i : Nat) : Int := stamps[i]?.getD noTimestampMs

/-- There are no more slots than entries, and every slot is empty or has the time at which
the entry at its place arrived. -/
structure Aligned (entries : List ThreadEntry) (stamps : List Int) : Prop where
  length_le : stamps.length ≤ entries.length
  own : ∀ (i : Nat) (ms : Int), stamps[i]? = some ms →
    ms = noTimestampMs ∨ ∃ e : ThreadEntry, entries[i]? = some e ∧ e.created = some ms

def Session.Aligned (s : Session) : Prop := Transcript.Aligned s.transcript s.entryCreatedMs

/-- A step that removes entries leaves the times of those that stay. -/
def SurvivorsKeep (st : Stored) (t : Stored) : TranscriptOp → Prop
  | .rewind _ | .refuse _ _ _ =>
    ∀ s s', st.session = some s → t.session = some s' →
      ∀ i, i < s'.transcript.length → stampOf s'.entryCreatedMs i = stampOf s.entryCreatedMs i
  | _ => True

/-- Cutting the times at `idx` loses none: there is no time in the slots from `idx` on that
belong to entries before the cut. -/
def Session.CutsNone (s : Session) (idx : Nat) : Prop :=
  ∀ i, idx ≤ i → i < s.coldEntries.length + idx → stampOf s.entryCreatedMs i = noTimestampMs

/-- The steps that do no harm. -/
def Careful (st : Stored) : TranscriptOp → Prop
  | .rewind idx => ∀ s, st.session = some s → s.CutsNone idx
  | .refuse plan idx _ => ∀ s, st.session = some s →
      s.CutsNone idx ∧ (plan ≠ none → s.coldEntries = [] → idx ≤ s.entryCreatedMs.length)
  | .resumed thread _ => ∀ s, st.session = some s →
      s.entryCreatedMs.length ≤ s.coldEntries.length + thread.length ∧
        ∀ i, s.coldEntries.length ≤ i → stampOf s.entryCreatedMs i = noTimestampMs
  | _ => True

def StoredStep (summary : ToolCall → ToolCallContent → List Char) (st : Stored)
    (op : TranscriptOp) (t : Stored) : Prop :=
  st.step summary op = some t

def CarefulStep (summary : ToolCall → ToolCallContent → List Char) (st : Stored)
    (op : TranscriptOp) (t : Stored) : Prop :=
  StoredStep summary st op t ∧ Careful st op

section

variable {entries : List ThreadEntry} {stamps : List Int} {i : Nat}

theorem stampOf_of_length_le (h : stamps.length ≤ i) : stampOf stamps i = noTimestampMs := by
  rw [stampOf, getElem?_eq_none h, getD_none]

theorem stampOf_take {n : Nat} :
    stampOf (stamps.take n) i = if i < n then stampOf stamps i else noTimestampMs := by
  rw [stampOf, getElem?_take]
  split
  · rfl
  · rfl

theorem stampOf_fill {n : Nat} :
    stampOf (stamps ++ List.replicate n noTimestampMs) i = stampOf stamps i := by
  rw [stampOf, getElem?_append]
  split
  · rfl
  · rename_i hi
    rw [stampOf_of_length_le (by omega), getElem?_replicate]
    split
    · rfl
    · rfl

/-- Where the cut is not behind the index, it takes the new time away again. -/
theorem take_stampAt {idx index : Nat} {nowMs : Int} (h : idx ≤ index ∨ index < stamps.length) :
    (Session.stampAt stamps index nowMs).take idx =
      (stamps ++ List.replicate (index - stamps.length) noTimestampMs).take idx := by
  simp only [Session.stampAt]
  split
  · rename_i hlen
    rw [length_append, length_replicate] at hlen
    rw [take_append_of_le_length]
    rw [length_append, length_replicate]
    omega
  · rfl

theorem aligned_nil : Aligned entries [] :=
  ⟨Nat.zero_le _, by simp⟩

theorem aligned_map {α : Type} {rows : List α} {f : α → ThreadEntry} {g : α → Int}
    (h : ∀ row ∈ rows, g row = noTimestampMs ∨ (f row).created = some (g row)) :
    Aligned (rows.map f) (rows.map g) := by
  refine ⟨by simp, ?_⟩
  intro i ms hms
  rw [getElem?_map, map_eq_some_iff] at hms
  obtain ⟨row, hrow, rfl⟩ := hms
  rcases h row (mem_of_getElem? hrow) with h | h
  · exact .inl h
  · exact .inr ⟨f row, by rw [getElem?_map, hrow, map_some], h⟩

theorem Aligned.append (h : Aligned entries stamps) (more : List ThreadEntry) :
    Aligned (entries ++ more) stamps := by
  refine ⟨le_trans h.length_le (by simp), ?_⟩
  intro i ms hms
  rcases h.own i ms hms with h | ⟨e, he, h⟩
  · exact .inl h
  · refine .inr ⟨e, ?_, h⟩
    rw [getElem?_append_left (List.getElem?_eq_some_iff.mp he).1, he]

theorem Aligned.congr (h : Aligned entries stamps) {entries' : List ThreadEntry}
    (hc : entries'.map (·.created) = entries.map (·.created)) : Aligned entries' stamps := by
  have hlen : entries'.length = entries.length := by simpa using congrArg List.length hc
  refine ⟨hlen ▸ h.length_le, ?_⟩
  intro i ms hms
  rcases h.own i ms hms with h | ⟨e, he, h⟩
  · exact .inl h
  · have hi : entries'[i]?.map (·.created) = some e.created := by
      rw [← getElem?_map, hc, getElem?_map, he, map_some]
    obtain ⟨e', he', hcr⟩ := Option.map_eq_some_iff.mp hi
    exact .inr ⟨e', he', hcr.trans h⟩

/-- What an entry that is there is shown with is its own time, however long the vector is. -/
def Owned (entries : List ThreadEntry) (stamps : List Int) : Prop :=
  ∀ (i : Nat) (e : ThreadEntry), entries[i]? = some e →
    stampOf stamps i = noTimestampMs ∨ e.created = some (stampOf stamps i)

section

variable (h : Aligned entries stamps)
include h

theorem Aligned.owned {kept : List ThreadEntry} (hk : kept <+: entries) : Owned kept stamps := by
  intro i e he
  cases hs : stamps[i]? with
  | none => exact .inl (by rw [stampOf, hs, getD_none])
  | some ms =>
    have hms : stampOf stamps i = ms := by rw [stampOf, hs, getD_some]
    rcases h.own i ms hs with h | ⟨e', he', h⟩
    · exact .inl (hms.trans h)
    · obtain ⟨rest, rfl⟩ := hk
      rw [getElem?_append_left (List.getElem?_eq_some_iff.mp he).1, he] at he'
      obtain rfl := some.inj he'
      exact .inr (by rw [hms, h])

theorem Aligned.take {kept : List ThreadEntry} {n : Nat}
    (hn : n ≤ kept.length) (hk : kept <+: entries) : Aligned kept (stamps.take n) := by
  refine ⟨by rw [length_take]; omega, ?_⟩
  intro i ms hms
  rw [getElem?_take] at hms
  split at hms
  · rename_i hi
    rcases h.own i ms hms with h | ⟨e, he, h⟩
    · exact .inl h
    · refine .inr ⟨e, ?_, h⟩
      obtain ⟨rest, rfl⟩ := hk
      rw [← he, getElem?_append_left (by omega)]
  · simp at hms

theorem Aligned.fill {n : Nat} (hn : n ≤ entries.length) :
    Aligned entries (stamps ++ List.replicate (n - stamps.length) noTimestampMs) := by
  refine ⟨?_, ?_⟩
  · have := h.length_le
    rw [length_append, length_replicate]
    omega
  · intro i ms hms
    rw [getElem?_append] at hms
    split at hms
    · exact h.own i ms hms
    · rw [getElem?_replicate] at hms
      split at hms
      · exact .inl (some.inj hms).symm
      · simp at hms

theorem Aligned.stampAt (entry : AgentThreadEntry) (nowMs : Int) :
    Aligned (entries ++ [⟨entry, some nowMs⟩]) (Session.stampAt stamps entries.length nowMs) := by
  have hfill := h.fill (le_refl _)
  have hlen : (stamps ++ List.replicate (entries.length - stamps.length)
      noTimestampMs).length = entries.length := by
    have := h.length_le
    rw [length_append, length_replicate]
    omega
  simp only [Session.stampAt]
  rw [if_pos hlen]
  generalize stamps ++ List.replicate (entries.length - stamps.length) noTimestampMs = filled at *
  refine ⟨by rw [length_append, length_append, hlen]; simp, ?_⟩
  intro i ms hms
  rw [getElem?_append] at hms
  split at hms
  · rename_i hi
    rcases hfill.own i ms hms with h | ⟨e, he, h⟩
    · exact .inl h
    · exact .inr ⟨e, by rw [getElem?_append_left (by omega), he], h⟩
  · rename_i hi
    -- the slot of the new entry
    rw [getElem?_singleton] at hms
    split at hms
    case isFalse => simp at hms
    cases hms
    refine .inr ⟨⟨entry, some nowMs⟩, ?_, rfl⟩
    have hi' : i = entries.length := by omega
    rw [hi', getElem?_append_right (le_refl _), Nat.sub_self]
    rfl

end

end

/-! ## The steps of a session -/

section

variable {cold thread : List ThreadEntry} {stamps : List Int} {idx : Nat} {nowMs : Int}

section

variable (h : Session.Aligned ⟨cold, some thread, stamps⟩) (entry : AgentThreadEntry)
include h

theorem Session.Aligned.push :
    (Session.newEntry ⟨cold, some (thread ++ [⟨entry, some nowMs⟩]), stamps⟩ nowMs).Aligned := by
  have hidx : Session.newEntryIndex ⟨cold, some (thread ++ [⟨entry, some nowMs⟩]), stamps⟩ =
      (cold ++ thread).length := by
    simp [Session.newEntryIndex, Session.live]
  have hs := Aligned.stampAt h entry nowMs
  rw [Session.Aligned, Session.newEntry, hidx]
  simpa [Session.transcript, Session.live] using hs

theorem Session.Aligned.update :
    Session.Aligned ⟨cold, some (thread.modify idx fun e => { e with entry }), stamps⟩ := by
  refine Aligned.congr h ?_
  have hm : (thread.modify idx fun e => { e with entry }).map (·.created) =
      thread.map (·.created) := by
    refine ext_getElem? fun i => ?_
    rw [getElem?_map, getElem?_modify, getElem?_map]
    cases thread[i]? with
    | none => rfl
    | some e =>
      split
      · rfl
      · rfl
  simp only [Session.transcript, Session.live, getD_some, map_append, hm]

end

theorem prefix_of_take : cold ++ thread.take idx <+: cold ++ thread :=
  (prefix_append_right_inj cold).mpr <| take_prefix idx thread

theorem le_length_take (hidx : idx < thread.length) : idx ≤ (cold ++ thread.take idx).length := by
  rw [length_append, length_take]
  omega

theorem length_transcript_take (hidx : idx < thread.length) :
    (Session.transcript ⟨cold, some (thread.take idx), stamps⟩).length = cold.length + idx := by
  simp only [Session.transcript, Session.live, getD_some, length_append, length_take]
  omega

theorem Session.Aligned.rewind (h : Session.Aligned ⟨cold, some thread, stamps⟩)
    (hidx : idx < thread.length) :
    (Session.entriesRemoved ⟨cold, some (thread.take idx), stamps⟩ idx).Aligned := by
  exact Aligned.take h (le_length_take hidx) prefix_of_take

/-- **A rewind keeps the times of the entries that stay exactly where it cuts none.** -/
theorem rewind_keeps_iff (hidx : idx < thread.length) :
    (∀ i, i < (Session.transcript ⟨cold, some (thread.take idx), stamps⟩).length →
        stampOf (stamps.take idx) i = stampOf stamps i) ↔
      Session.CutsNone ⟨cold, some thread, stamps⟩ idx := by
  rw [length_transcript_take hidx]
  constructor
  · intro h i hi hlt
    rw [← h i hlt, stampOf_take, if_neg (by omega)]
  · intro h i hlt
    rw [stampOf_take]
    split
    · rfl
    · exact (h i (by omega) hlt).symm

theorem refused_stamps (hidx : idx < thread.length) (hc : cold = [] → idx ≤ stamps.length) :
    ((Session.newEntry ⟨cold, some (thread.take idx), stamps⟩ nowMs).entriesRemoved
        idx).entryCreatedMs =
      (stamps ++ List.replicate (cold.length + (idx - 1) - stamps.length)
        noTimestampMs).take idx := by
  have hlive : (Session.live ⟨cold, some (thread.take idx), stamps⟩).length = idx := by
    rw [Session.live, getD_some, length_take]
    omega
  simp only [Session.entriesRemoved, Session.newEntry, Session.newEntryIndex, hlive]
  refine take_stampAt ?_
  -- with no cold entries the index is that of the last entry that stays
  cases cold with
  | nil =>
    have := hc rfl
    rcases Nat.eq_zero_or_pos idx with h0 | h0
    · exact .inl (by omega)
    · exact .inr (by simp only [length_nil]; omega)
  | cons e cold => exact .inl (by rw [length_cons]; omega)

theorem Session.Aligned.refuse (h : Session.Aligned ⟨cold, some thread, stamps⟩)
    (hidx : idx < thread.length) (hc : cold = [] → idx ≤ stamps.length) :
    ((Session.newEntry ⟨cold, some (thread.take idx), stamps⟩ nowMs).entriesRemoved
      idx).Aligned := by
  rw [Session.Aligned, refused_stamps hidx hc]
  have hfill : Transcript.Aligned (cold ++ thread) (stamps ++
      List.replicate (cold.length + (idx - 1) - stamps.length) noTimestampMs) := by
    refine Aligned.fill h ?_
    simp only [Session.transcript, Session.live, getD_some, length_append]
    omega
  exact Aligned.take hfill (le_length_take hidx) prefix_of_take

theorem Session.Aligned.resumed {s : Session} (h : s.Aligned) {thread : List AgentThreadEntry}
    (hlen : s.entryCreatedMs.length ≤ s.coldEntries.length + thread.length)
    (hc : ∀ i, s.coldEntries.length ≤ i → stampOf s.entryCreatedMs i = noTimestampMs) :
    Session.Aligned { s with acpThread := some (unseen thread) } := by
  refine ⟨by simpa [Session.transcript, Session.live, unseen] using hlen, ?_⟩
  intro i ms hms
  by_cases hi : i < s.coldEntries.length
  · rcases h.own i ms hms with h | ⟨e, he, h⟩
    · exact .inl h
    · refine .inr ⟨e, ?_, h⟩
      rw [Session.transcript, getElem?_append_left hi] at he ⊢
      exact he
  · left
    rw [← hc i (by omega), stampOf, hms, getD_some]

end

def PersistedSession.Aligned (b : PersistedSession) : Prop :=
  Transcript.Aligned (coldEntriesFromPersisted (some b)).1 (coldEntriesFromPersisted (some b)).2

theorem hydrate_aligned {blob : Option PersistedSession}
    (h : ∀ b, blob = some b → b.Aligned) (acpThread : Option (List ThreadEntry)) :
    (hydrate blob acpThread).Aligned := by
  cases blob with
  | none => exact aligned_nil
  | some b => exact Aligned.append (h b rfl) _

theorem snapshotRows_own {summary : ToolCall → ToolCallContent → List Char} {s : Session}
    (h : Owned s.transcript s.entryCreatedMs) {row : ThreadEntry × PersistedEntryV2 × Int}
    (hrow : row ∈ snapshotRows summary s) :
    row.2.2 = noTimestampMs ∨ row.1.created = some row.2.2 := by
  obtain ⟨e, he, hp⟩ := List.mem_filterMap.mp hrow
  obtain ⟨persisted, -, rfl⟩ := Option.map_eq_some_iff.mp hp
  exact h e.2 e.1 (List.mem_zipIdx_iff_getElem?.mp he)

/-- **A snapshot restores an aligned session**, whatever was dropped and however long the
vector of times was. -/
theorem serializableSnapshot_aligned (summary : ToolCall → ToolCallContent → List Char)
    {s : Session} (h : Owned s.transcript s.entryCreatedMs) :
    (serializableSnapshot summary s).Aligned := by
  by_cases hrows : snapshotRows summary s = []
  · rw [PersistedSession.Aligned]
    simp only [coldEntriesFromPersisted, serializableSnapshot, hrows, map_nil]
    exact aligned_nil
  · have hne : (serializableSnapshot summary s).entriesV2 ≠ [] := by
      simpa [serializableSnapshot] using hrows
    rw [PersistedSession.Aligned]
    simp only [coldEntriesFromPersisted, if_pos hne]
    simp only [serializableSnapshot, List.map_map]
    exact aligned_map fun row hrow => snapshotRows_own h hrow

/-- The session is aligned, and so is what each blob of its row restores. -/
structure Stored.Inv (st : Stored) : Prop where
  session : ∀ s, st.session = some s → s.Aligned
  blobs : ∀ b ∈ st.blobs, b.Aligned

section

variable {summary : ToolCall → ToolCallContent → List Char} {st t : Stored}

theorem Stored.Inv.reads (h : st.Inv) {blob : Option PersistedSession} (hr : st.Reads blob)
    (acpThread : Option (List ThreadEntry)) : (hydrate blob acpThread).Aligned :=
  hydrate_aligned (fun b hb => h.blobs b (hr b hb)) acpThread

theorem Stored.Inv.set (h : st.Inv) {s : Session} (hs : s.Aligned) (resumes : Nat) :
    Stored.Inv { st with session := some s, resumes } :=
  ⟨fun _ he => some.inj he ▸ hs, h.blobs⟩

theorem Stored.Inv.write (h : st.Inv) {s stored : Session} (hs : s.Aligned)
    (hw : Owned stored.transcript stored.entryCreatedMs) :
    Stored.Inv
      { st with session := some s, blobs := serializableSnapshot summary stored :: st.blobs } := by
  refine ⟨fun _ he => some.inj he ▸ hs, ?_⟩
  intro b hb
  rcases List.mem_cons.mp hb with rfl | hb
  · exact serializableSnapshot_aligned summary hw
  · exact h.blobs b hb

theorem Session.Aligned.unstamped {cold thread : List ThreadEntry} {stamps : List Int}
    (h : Session.Aligned ⟨cold, some thread, stamps⟩) (more : List ThreadEntry) :
    Owned (Session.transcript ⟨cold, some (thread ++ more), stamps⟩) stamps := by
  have hmore := Aligned.append h more
  rw [Session.transcript, append_assoc] at hmore
  exact hmore.owned (prefix_refl _)

/-- **One careful step keeps the alignment**, of the session and of what is stored. -/
theorem Stored.Inv.step (h : st.Inv) {op : TranscriptOp} (hs : CarefulStep summary st op t) :
    t.Inv := by
  obtain ⟨hs, hc⟩ := hs
  rw [StoredStep] at hs
  cases op with
  | create thread =>
    simp only [Stored.step] at hs
    split at hs
    · cases hs
      refine h.set ?_ _
      exact aligned_nil
    · simp at hs
  | restore blob =>
    simp only [Stored.step] at hs
    split at hs
    · split at hs
      · rename_i hr
        cases hs
        exact h.set (h.reads hr none) _
      · simp at hs
    · simp at hs
  | resume =>
    simp only [Stored.step] at hs
    split at hs
    · cases hs
      exact h
    · cases hs
      exact ⟨h.session, h.blobs⟩
  | resumed thread blob =>
    simp only [Stored.step] at hs
    split at hs
    · rename_i hr
      split at hs
      · rename_i s hsess
        cases hs
        obtain ⟨hlen, hbeyond⟩ := hc s hsess
        exact h.set ((h.session s hsess).resumed hlen hbeyond) _
      · cases hs
        exact h.set (h.reads hr.2 _) _
    · simp at hs
  | reset thread | rotate thread =>
    obtain ⟨s, -, rfl⟩ := Option.map_eq_some_iff.mp hs
    refine h.set ?_ _
    exact aligned_nil
  | close =>
    cases hs
    exact ⟨by simp, h.blobs⟩
  | persist =>
    obtain ⟨s, hsess, rfl⟩ := Option.map_eq_some_iff.mp hs
    have ha := h.session s hsess
    have hst : Stored.Inv { st with
        session := some s
        blobs := serializableSnapshot summary s :: st.blobs } :=
      h.write ha (Aligned.owned ha (prefix_refl _))
    rwa [← hsess] at hst
  | push entry nowMs =>
    simp only [Stored.step] at hs
    split at hs
    · rename_i cold thread stamps hsess
      cases hs
      have ha := h.session _ hsess
      exact h.write (ha.push entry) (ha.unstamped _)
    · simp at hs
  | update idx entry =>
    simp only [Stored.step] at hs
    split at hs
    · rename_i cold thread stamps hsess
      cases hs
      exact h.set ((h.session _ hsess).update entry) _
    · simp at hs
  | rewind idx =>
    simp only [Stored.step] at hs
    split at hs
    · rename_i cold thread stamps hsess
      split at hs
      · rename_i hidx
        cases hs
        exact h.set ((h.session _ hsess).rewind hidx) _
      · simp at hs
    · simp at hs
  | refuse plan idx nowMs =>
    simp only [Stored.step] at hs
    split at hs
    · rename_i cold thread stamps hsess
      split at hs
      · rename_i hidx
        have ha := h.session _ hsess
        split at hs
        · cases hs
          exact h.set (ha.rewind hidx) _
        · cases hs
          exact h.write (ha.refuse hidx ((hc _ hsess).2 (by simp)))
            (Aligned.owned ha prefix_of_take)
      · simp at hs
    · simp at hs

/-- **One careful step keeps the times of the entries that stay.** -/
theorem CarefulStep.survivorsKeep {op : TranscriptOp} (hs : CarefulStep summary st op t) :
    SurvivorsKeep st t op := by
  obtain ⟨hs, hc⟩ := hs
  rw [StoredStep] at hs
  cases op with
  | rewind idx =>
    intro s s' hsess hsess'
    simp only [Stored.step, hsess] at hs
    split at hs
    · rename_i cold thread stamps heq
      cases heq
      split at hs
      · rename_i hidx
        cases hs
        obtain rfl := some.inj hsess'
        exact (rewind_keeps_iff hidx).mpr (hc _ hsess)
      · simp at hs
    · simp at hs
  | refuse plan idx nowMs =>
    intro s s' hsess hsess'
    simp only [Stored.step, hsess] at hs
    split at hs
    · rename_i cold thread stamps heq
      cases heq
      obtain ⟨hcut, hplan⟩ := hc _ hsess
      split at hs
      · rename_i hidx
        split at hs
        · cases hs
          obtain rfl := some.inj hsess'
          exact (rewind_keeps_iff hidx).mpr hcut
        · cases hs
          obtain rfl := some.inj hsess'
          intro i hi
          -- the slots that were filled up are slots without a time, as they were before
          rw [refused_stamps hidx (hplan (by simp)), stampOf_take, stampOf_fill,
            ← (rewind_keeps_iff hidx).mpr hcut i hi, stampOf_take]
          split
          · rfl
          · rfl
      · simp at hs
    · simp at hs
  | _ => exact True.intro

/-- **The times stay with their entries**: in every careful run the vector is aligned in
every state, and what removes entries leaves the times of the others. -/
theorem stamps_stay_aligned (summary : ToolCall → ToolCallContent → List Char)
    {blobs : List PersistedSession} (hlegacy : ∀ b ∈ blobs, b.entryCreatedMs = [])
    {ops : List TranscriptOp} {st : Stored}
    (h : Run (CarefulStep summary) ⟨none, blobs, 0⟩ ops st) :
    (∀ s, st.session = some s → Aligned s.transcript s.entryCreatedMs) ∧
      ∀ op t, CarefulStep summary st op t → SurvivorsKeep st t op := by
  have hinit : Stored.Inv ⟨none, blobs, 0⟩ := by
    refine ⟨by simp, ?_⟩
    intro b hb
    rw [PersistedSession.Aligned, show (coldEntriesFromPersisted (some b)).2 = _ from hlegacy b hb]
    exact aligned_nil
  have hinv : st.Inv := h.keeps (fun _ _ _ hi hstep => hi.step hstep) hinit
  exact ⟨hinv.session, fun op t hs => hs.survivorsKeep⟩

end

/-- Tool output stored as nothing; no tool is called below. -/
def noSummary : ToolCall → ToolCallContent → List Char := fun _ _ => []

def hi : AgentThreadEntry := .userMessage ⟨none, .markdown ['h', 'i'], [], none⟩

/-- A live session is rewound to its first message, which keeps its time. -/
theorem stamps_stay_aligned_rewound : ∃ st : Stored, Run (CarefulStep noSummary) ⟨none, [], 0⟩
        [.create [], .push hi 1000, .push hi 2000, .rewind 1] st ∧
      st.session = some ⟨[], some [⟨hi, some 1000⟩], [1000]⟩ ∧
      Aligned [⟨hi, some 1000⟩] [1000] := by
  have hrun : ∃ st : Stored, Run (CarefulStep noSummary) ⟨none, [], 0⟩
      [.create [], .push hi 1000, .push hi 2000, .rewind 1] st ∧
      st.session = some ⟨[], some [⟨hi, some 1000⟩], [1000]⟩ := by
    refine ⟨_, .cons ⟨rfl, trivial⟩ (.cons ⟨rfl, trivial⟩ (.cons ⟨rfl, trivial⟩
      (.cons ⟨rfl, ?_⟩ .nil))), rfl⟩
    intro s hs i hi hlt
    cases hs
    have hone : i < 1 := hlt
    omega
  obtain ⟨st, hrun, hst⟩ := hrun
  exact ⟨st, hrun, hst, (stamps_stay_aligned noSummary (by simp) hrun).1 _ hst⟩

def hiBlob : PersistedSession := serializableSnapshot noSummary ⟨[], some [⟨hi, some 1000⟩], [1000]⟩

/-- A message is stored, and the session comes back cold. -/
def comeBack : List TranscriptOp :=
  [.create [], .push hi 1000, .persist, .close, .restore (some hiBlob)]

/-- A rewind of the resumed thread to its start takes away the time of the stored message; and
a second resume that was under way takes away an entry and leaves its time. -/
theorem stamps_lost_after_resume :
    (∃ (ops : List TranscriptOp) (st t : Stored), Run (StoredStep noSummary) ⟨none, [], 0⟩ ops st ∧
        StoredStep noSummary st (.rewind 0) t ∧ ¬ SurvivorsKeep st t (.rewind 0)) ∧
      ∃ (ops : List TranscriptOp) (st : Stored) (s : Session),
        Run (StoredStep noSummary) ⟨none, [], 0⟩ ops st ∧ st.session = some s ∧
          ¬ Aligned s.transcript s.entryCreatedMs := by
  have hback : ∃ st : Stored, Run (StoredStep noSummary) ⟨none, [], 0⟩ comeBack st ∧
      st.session = some ⟨[⟨hi, some 1000⟩], none, [1000]⟩ ∧ st.resumes = 0 :=
    ⟨_, .cons rfl (.cons rfl (.cons rfl (.cons rfl (.cons rfl .nil)))), rfl, rfl⟩
  obtain ⟨⟨session, blobs, resumes⟩, hback, hsession, hresumes⟩ := hback
  subst hsession hresumes
  constructor
  · have hrun : Run (StoredStep noSummary) ⟨some ⟨[⟨hi, some 1000⟩], none, [1000]⟩, blobs, 0⟩
        [.resume, .resumed [] none, .push hi 2000] _ :=
      .cons rfl (.cons rfl (.cons rfl .nil))
    refine ⟨_, _, _, hback.append hrun, rfl, ?_⟩
    intro hkeep
    exact absurd (hkeep _ _ rfl rfl 0 (by decide)) (by decide)
  · have hrun : Run (StoredStep noSummary) ⟨some ⟨[⟨hi, some 1000⟩], none, [1000]⟩, blobs, 0⟩
        [.resume, .resume, .resumed [] none, .push hi 2000, .resumed [] none] _ :=
      .cons rfl (.cons rfl (.cons rfl (.cons rfl (.cons rfl .nil))))
    refine ⟨_, _, _, hback.append hrun, rfl, ?_⟩
    intro hal
    exact absurd hal.length_le (by decide)

end SpkEditor.Transcript
