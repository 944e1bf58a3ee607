import SpkEditor.Agent.SessionPages

/-!
# One entry of a session

`get_session_entry` takes the entry at an index and counts the images before it as the list
does, but in the live thread. In a session without a cold history the two lists are one and so
are the summaries. Behind a cold history the last indices of the list are past the end of the
live thread, and a session that sleeps has no live thread at all; its first indices, when they
do find an entry, find another one.
-/

namespace SpkEditor.Entries

/-- A call for everything that `get_session_entry` reports. -/
def GetSessionParams.everything (includeImages : Bool) : GetSessionParams :=
  ⟨true, includeImages, none, none, none, none⟩

/-- The tool succeeds at an index, with the summary the list has there. -/
def EntryAgrees (w : Wire) (s : Session) (includeImages : Bool) (i : Nat) : Prop :=
  ∃ summary, getSessionEntry w s i includeImages = .ok summary ∧
    (getSession w s (.everything includeImages)).entries[i]? = some summary

section

variable {w : Wire} {s : Session} {includeImages : Bool} {i : Nat}

theorem keeps_everything (x : EntrySummary) : Keeps s (.everything includeImages) x = true := rfl

theorem everything_entries : (getSession w s (.everything includeImages)).entries =
    summaries w s true includeImages := by
  rw [getSession_eq]
  exact List.filter_eq_self.mpr fun x _ => keeps_everything x

theorem everything_totalCount :
    (getSession w s (.everything includeImages)).totalCount = s.entriesRef.length := by
  rw [getSession_eq]
  exact List.countP_eq_length.mpr fun _ _ => rfl

theorem getSessionEntry_live {entries : List AgentThreadEntry} {entry : AgentThreadEntry}
    (hthread : s.acpThread = some entries) (hentry : entries[i]? = some entry) :
    getSessionEntry w s i includeImages =
      .ok (summaryAt w s true includeImages entries i entry) := by
  have hlt : i < entries.length := (List.getElem?_eq_some_iff.mp hentry).1
  rw [getSessionEntry, hthread]
  simp only [if_pos hlt, hentry]
  rfl

theorem getSessionEntry_past (h : (s.acpThread.getD []).length ≤ i) (summary : EntrySummary) :
    getSessionEntry w s i includeImages ≠ .ok summary := by
  intro hok
  rw [getSessionEntry] at hok
  cases hthread : s.acpThread with
  | none =>
    rw [hthread] at hok
    cases hok
  | some entries =>
    rw [hthread, Option.getD_some] at h
    rw [hthread] at hok
    simp only [if_neg (Nat.not_lt.mpr h)] at hok
    cases hok

theorem entryAgrees_of_live (hcold : s.coldEntries = []) (hi : i < s.entriesRef.length) :
    EntryAgrees w s includeImages i := by
  have hlist : s.entriesRef = s.acpThread.getD [] := by
    rw [Session.entriesRef, hcold, List.nil_append]
  cases hthread : s.acpThread with
  | none =>
    rw [hlist, hthread] at hi
    cases hi
  | some entries =>
    rw [hthread, Option.getD_some] at hlist
    rw [hlist] at hi
    have hentry : entries[i]? = some entries[i] := List.getElem?_eq_getElem hi
    refine ⟨_, getSessionEntry_live hthread hentry, ?_⟩
    rw [everything_entries, summaries_getElem?, hlist, hentry]
    rfl

end

/-- **The tool agrees with the list exactly without a cold history.** -/
theorem getSessionEntry_agrees_iff (w : Wire) (s : Session) :
    (∀ includeImages i, i < (getSession w s (.everything includeImages)).totalCount →
      EntryAgrees w s includeImages i) ↔ s.coldEntries = [] := by
  constructor
  · intro h
    by_contra hcold
    have hlen : 0 < s.coldEntries.length := List.length_pos_iff.mpr hcold
    -- the last index of the list lies past the live thread
    have htotal : s.entriesRef.length = s.coldEntries.length + (s.acpThread.getD []).length := by
      rw [Session.entriesRef, List.length_append]
    obtain ⟨summary, hok, -⟩ := h false (s.entriesRef.length - 1) (by
      rw [everything_totalCount]
      omega)
    exact getSessionEntry_past (by omega) summary hok
  · intro hcold includeImages i hi
    rw [everything_totalCount] at hi
    exact entryAgrees_of_live hcold hi

def asleepSession : Session where
  id := "42".toList
  coldEntries := [.userMessage ⟨none, .markdown "hi".toList, [.text "hi".toList none], none⟩]
  acpThread := none
  entryCreatedMs := [1000]
  activeSubagents := []

def resumedSession : Session :=
  { asleepSession with
    acpThread := some [.assistantMessage ⟨[.message (.markdown "hello".toList)], none⟩]
    entryCreatedMs := [1000, 2000] }

/-- The list has the message; the tool fails while the session sleeps, and after the resume it
reports the answer in its place. -/
theorem getSessionEntry_cold_differs :
    let w : Wire := ⟨fun _ => [], fun _ => []⟩
    (getSession w asleepSession (.everything false)).totalCount = 1 ∧
      getSessionEntry w asleepSession 0 false =
        .error "session_has_no_thread: 42".toList ∧
      ¬ EntryAgrees w asleepSession false 0 ∧
      ((getSession w resumedSession (.everything false)).entries.map
        EntrySummary.role) = [.user, .assistant] ∧
      (getSessionEntry w resumedSession 0 false).toOption.map EntrySummary.role =
        some .assistant ∧
      ¬ EntryAgrees w resumedSession false 0 := by
  refine ⟨by decide, rfl, ?_, by decide, by decide, ?_⟩
  · intro h
    obtain ⟨summary, hok, -⟩ := h
    cases hok
  · intro h
    obtain ⟨summary, hok, hlist⟩ := h
    cases hok
    revert hlist
    decide

end SpkEditor.Entries
