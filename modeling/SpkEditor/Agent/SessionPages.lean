import SpkEditor.Agent.SessionTools

/-!
# Pages of a session

`summaries` is the full list: every entry, each with its images numbered from where those of
the entries before it end. The loop of `get_session` moves its cursor by the same amount in
all its branches, so what it keeps is the full list filtered, and the rest is about lists.
-/

namespace SpkEditor.Entries

open Paging

section

variable {α : Type} {payload : α → Option (List Char × List Char)} {isImage : α → Bool}

theorem pushImages_cursor (h : ∀ x, (payload x).isSome = isImage x) (xs : List α) :
    ∀ imageCursor, (pushImages payload imageCursor xs).2 = imageCursor + xs.countP isImage := by
  induction xs with
  | nil =>
    intro imageCursor
    rfl
  | cons x xs ih =>
    intro imageCursor
    have hx := h x
    rw [pushImages, List.countP_cons, ← hx]
    cases payload x with
    | none =>
      rw [ih]
      simp
    | some p =>
      simp only [ih, Option.isSome_some, if_true]
      omega

end

section

variable (w : Wire) (entry : AgentThreadEntry) (imageCursor : Nat)

theorem AcpContentBlock.payload_isSome (block : AcpContentBlock) :
    block.payload.isSome = block.isImage := by
  cases block <;> rfl

theorem ContentBlock.payload_isSome (block : ContentBlock) :
    (block.payload w).isSome = block.isImage := by
  cases block <;> rfl

theorem ToolCallContent.payload_isSome (content : ToolCallContent) :
    (content.payload w).isSome = content.isImage := by
  cases content with
  | contentBlock block => exact block.payload_isSome w
  | diff _ => rfl
  | terminal _ => rfl

theorem extractImages_cursor :
    (extractImagesForEntry w entry imageCursor).2 = imageCursor + countImagesInEntry entry := by
  cases entry with
  | userMessage message => exact pushImages_cursor AcpContentBlock.payload_isSome _ _
  | assistantMessage message =>
    exact pushImages_cursor (fun chunk => chunk.block.payload_isSome w) _ _
  | toolCall call => exact pushImages_cursor (ToolCallContent.payload_isSome w) _ _
  | completedPlan entries => rfl

variable (index : Nat) (createdMs : Option Int) (full images : Bool)

theorem summarizeEntry_cursor : (summarizeEntry w entry index createdMs full images imageCursor).2 =
      imageCursor + countImagesInEntry entry := by
  cases images with
  | false => rfl
  | true => exact extractImages_cursor w entry imageCursor

theorem summarizeEntry_index :
    (summarizeEntry w entry index createdMs full images imageCursor).1.index = index := rfl

theorem summarizeEntry_subagentId :
    (summarizeEntry w entry index createdMs full images imageCursor).1.subagentId =
      entry.subagentId := rfl

end

/-! ## The full list -/

section

variable (w : Wire) (s : Session) (full images : Bool)

def summariesFrom : (index imageCursor : Nat) → List AgentThreadEntry → List EntrySummary
  | _, _, [] => []
  | index, imageCursor, entry :: rest =>
    (summarizeEntry w entry index (s.createdMs index) full images imageCursor).1 ::
      summariesFrom (index + 1) (imageCursor + countImagesInEntry entry) rest

def summaries : List EntrySummary := summariesFrom w s full images 0 0 s.entriesRef

def imagesBefore (entries : List AgentThreadEntry) (i : Nat) : Nat :=
  ((entries.take i).map countImagesInEntry).sum

def summaryAt (entries : List AgentThreadEntry) (i : Nat) (entry : AgentThreadEntry) :
    EntrySummary :=
  (summarizeEntry w entry i (s.createdMs i) full images (imagesBefore entries i)).1

variable {w s full images}

theorem summariesFrom_getElem? (entries : List AgentThreadEntry) :
    ∀ index imageCursor i, (summariesFrom w s full images index imageCursor entries)[i]? =
      entries[i]?.map fun entry =>
        (summarizeEntry w entry (index + i) (s.createdMs (index + i)) full images
          (imageCursor + imagesBefore entries i)).1 := by
  induction entries with
  | nil =>
    intro index imageCursor i
    simp [summariesFrom]
  | cons entry rest ih =>
    intro index imageCursor i
    cases i with
    | zero => simp [summariesFrom, imagesBefore]
    | succ i =>
      have hindex : index + 1 + i = index + (i + 1) := by omega
      have hcursor : imageCursor + countImagesInEntry entry + imagesBefore rest i =
          imageCursor + imagesBefore (entry :: rest) (i + 1) := by
        rw [imagesBefore, imagesBefore, List.take_succ_cons, List.map_cons, List.sum_cons]
        omega
      rw [summariesFrom, List.getElem?_cons_succ, List.getElem?_cons_succ, ih, hindex, hcursor]

theorem summaries_getElem? (i : Nat) : (summaries w s full images)[i]? = s.entriesRef[i]?.map
      (summaryAt w s full images s.entriesRef i) := by
  rw [summaries, summariesFrom_getElem?]
  simp only [Nat.zero_add]
  rfl

theorem summariesFrom_map_index (entries : List AgentThreadEntry) : ∀ index imageCursor,
      (summariesFrom w s full images index imageCursor entries).map EntrySummary.index =
        List.range' index entries.length := by
  induction entries with
  | nil =>
    intro index imageCursor
    rfl
  | cons entry rest ih =>
    intro index imageCursor
    rw [summariesFrom, List.map_cons, ih, summarizeEntry_index, List.length_cons, List.range'_succ]

theorem summariesFrom_map_subagentId (entries : List AgentThreadEntry) : ∀ index imageCursor,
      (summariesFrom w s full images index imageCursor entries).map EntrySummary.subagentId =
        entries.map AgentThreadEntry.subagentId := by
  induction entries with
  | nil =>
    intro index imageCursor
    rfl
  | cons entry rest ih =>
    intro index imageCursor
    rw [summariesFrom, List.map_cons, ih, summarizeEntry_subagentId, List.map_cons]

theorem summaries_increasing : Increasing EntrySummary.index (summaries w s full images) := by
  have hrange : ((summaries w s full images).map EntrySummary.index).Pairwise (· < ·) := by
    rw [summaries, summariesFrom_map_index]
    exact List.pairwise_lt_range'
  exact List.pairwise_map.mp hrange

theorem summaries_index {x : EntrySummary} (hx : x ∈ summaries w s full images) :
    ∃ entry, s.entriesRef[x.index]? = some entry ∧
      x = summaryAt w s full images s.entriesRef x.index entry := by
  obtain ⟨i, hi⟩ := List.mem_iff_getElem?.mp hx
  rw [summaries_getElem?] at hi
  obtain ⟨entry, hentry, rfl⟩ := Option.map_eq_some_iff.mp hi
  exact ⟨entry, hentry, rfl⟩

end

section

variable {w : Wire} {s : Session} {params : GetSessionParams}

def Keeps (s : Session) (params : GetSessionParams) (x : EntrySummary) : Bool :=
  passesFilter s params x.subagentId && params.inBounds x.index

theorem walkEntries_eq (entries : List AgentThreadEntry) :
    ∀ index imageCursor, walkEntries w s params index imageCursor entries =
      ((summariesFrom w s params.includeFullContent params.includeImages index imageCursor
          entries).filter (Keeps s params),
        entries.countP fun entry => passesFilter s params entry.subagentId) := by
  induction entries with
  | nil =>
    intro index imageCursor
    rfl
  | cons entry rest ih =>
    intro index imageCursor
    rw [walkEntries, summariesFrom, List.countP_cons]
    cases hpass : passesFilter s params entry.subagentId with
    | false =>
      have hdrop : Keeps s params (summarizeEntry w entry index (s.createdMs index)
          params.includeFullContent params.includeImages imageCursor).1 = false := by
        rw [Keeps, summarizeEntry_subagentId, hpass, Bool.false_and]
      simp [ih, hdrop]
    | true =>
      have hkeep : Keeps s params (summarizeEntry w entry index (s.createdMs index)
          params.includeFullContent params.includeImages imageCursor).1 =
            params.inBounds index := by
        rw [Keeps, summarizeEntry_subagentId, hpass, Bool.true_and, summarizeEntry_index]
      cases hbounds : params.inBounds index with
      | false => simp [ih, hkeep, hbounds]
      | true => simp [ih, hkeep, hbounds, summarizeEntry_cursor]

theorem getSession_eq (w : Wire) (s : Session) (params : GetSessionParams) : getSession w s params =
      ⟨lastOf params.count ((summaries w s params.includeFullContent
          params.includeImages).filter (Keeps s params)),
        s.entriesRef.countP fun entry => passesFilter s params entry.subagentId⟩ := by
  rw [getSession, walkEntries_eq]
  cases params.count with
  | none => rfl
  | some n =>
    rw [lastOf, List.rtake, summaries]
    simp only
    split
    · rfl
    · rename_i hlen
      rw [Nat.sub_eq_zero_of_le (Nat.not_lt.mp hlen), List.drop_zero]

end

/-! ## Pages -/

/-- The same call without a window. -/
def GetSessionParams.unbounded (params : GetSessionParams) : GetSessionParams :=
  { params with beforeIndex := none, afterIndex := none, count := none }

/-- The page a client asks for: the last `n` entries before a bound. -/
def pageBefore (w : Wire) (s : Session) (params : GetSessionParams) (n : Nat)
    (bound : Option Nat) : List EntrySummary :=
  (getSession w s { params with beforeIndex := bound, count := some n }).entries

/-- Two summaries of one entry: equal but for the markdown and the images, and these are equal
where both calls have asked for them. -/
def EntrySummary.SameEntry (x y : EntrySummary) : Prop :=
  x = { y with markdown := x.markdown, images := x.images } ∧
    (∀ m ∈ x.markdown, ∀ m' ∈ y.markdown, m = m') ∧
    ∀ a ∈ x.images, ∀ b ∈ y.images, a = b

section

variable {w : Wire} {s : Session} {params : GetSessionParams}

theorem getSession_unbounded_entries : (getSession w s params.unbounded).entries =
    (summaries w s params.includeFullContent params.includeImages).filter fun x =>
      passesFilter s params x.subagentId := by
  rw [getSession_eq]
  simp only [GetSessionParams.unbounded, lastOf]
  refine List.filter_congr fun x _ => ?_
  rw [Keeps, GetSessionParams.inBounds, Option.all_none, Option.all_none, Bool.and_self,
    Bool.and_true]
  rfl

/-- **A call reports the end of what the window has of the unbounded response.** -/
theorem getSession_window : (getSession w s params).entries =
    lastOf params.count ((getSession w s params.unbounded).entries.filter fun x =>
      params.inBounds x.index) := by
  rw [getSession_unbounded_entries, getSession_eq, List.filter_filter]
  simp only
  congr 2
  funext x
  rw [Keeps, Bool.and_comm]

theorem lastOf_sublist {α : Type} (n : Option Nat) (xs : List α) : (lastOf n xs).Sublist xs := by
  cases n with
  | none => exact List.Sublist.refl xs
  | some n => exact List.drop_sublist _ xs

theorem getSession_sublist : (getSession w s params).entries.Sublist
    (summaries w s params.includeFullContent params.includeImages) := by
  rw [getSession_eq]
  exact (lastOf_sublist _ _).trans List.filter_sublist

/-- What is asked for changes neither the numbers of the images nor any other field. -/
theorem summaryAt_same (entries : List AgentThreadEntry) (i : Nat) (entry : AgentThreadEntry)
    (full full' images images' : Bool) :
    (summaryAt w s full images entries i entry).SameEntry
      (summaryAt w s full' images' entries i entry) := by
  refine ⟨rfl, ?_, ?_⟩
  · intro m hm m' hm'
    cases full with
    | false => cases hm
    | true =>
      cases full' with
      | false => cases hm'
      | true =>
        cases hm
        cases hm'
        rfl
  · intro a ha b hb
    cases images with
    | false => cases ha
    | true =>
      cases images' with
      | false => cases hb
      | true =>
        cases ha
        cases hb
        rfl

/-- **An entry has one summary, whatever the filter and the window.** -/
theorem getSession_stable {other : GetSessionParams} {x y : EntrySummary}
    (hx : x ∈ (getSession w s params).entries) (hy : y ∈ (getSession w s other).entries)
    (hindex : x.index = y.index) : x.SameEntry y := by
  obtain ⟨entry, hentry, hx⟩ := summaries_index (getSession_sublist.subset hx)
  obtain ⟨entry', hentry', hy⟩ := summaries_index (getSession_sublist.subset hy)
  rw [hindex, hentry', Option.some.injEq] at hentry
  subst hentry
  rw [hx, hy, hindex]
  exact summaryAt_same _ _ _ _ _ _ _

/-- The pages are those of the list that passes the filter and the lower bound. -/
theorem pageBefore_eq (n : Nat) : pageBefore w s params n = fun bound =>
    (below EntrySummary.index bound ((summaries w s params.includeFullContent
      params.includeImages).filter fun x =>
        passesFilter s params x.subagentId && params.afterIndex.all (· < x.index))).rtake n := by
  funext bound
  rw [pageBefore, getSession_eq, below, List.filter_filter]
  simp only [lastOf]
  congr 1
  refine List.filter_congr fun x _ => ?_
  simp only [Keeps, GetSessionParams.inBounds, passesFilter]
  rw [← Bool.and_assoc, Bool.and_comm]

theorem unbounded_count : (getSession w s { params with count := none }).entries =
    below EntrySummary.index params.beforeIndex ((summaries w s params.includeFullContent
      params.includeImages).filter fun x =>
        passesFilter s params x.subagentId && params.afterIndex.all (· < x.index)) := by
  rw [getSession_eq, below, List.filter_filter]
  refine List.filter_congr fun x _ => ?_
  simp only [Keeps, GetSessionParams.inBounds, passesFilter]
  rw [← Bool.and_assoc, Bool.and_comm]

theorem getSession_totalCount : (getSession w s params).totalCount =
    (summaries w s params.includeFullContent params.includeImages).countP fun x =>
      passesFilter s params x.subagentId := by
  have hids : (summaries w s params.includeFullContent params.includeImages).map
      EntrySummary.subagentId = s.entriesRef.map AgentThreadEntry.subagentId :=
    summariesFrom_map_subagentId _ _ _
  have hcount := congrArg (List.countP (passesFilter s params)) hids
  rw [List.countP_map, List.countP_map] at hcount
  rw [getSession_eq]
  exact hcount.symm

theorem getSession_unbounded_index :
    (getSession w s params.unbounded).entries.map EntrySummary.index =
      (List.range s.entriesRef.length).filter fun i =>
        s.entriesRef[i]?.any fun entry => passesFilter s params entry.subagentId := by
  have hindex : (summaries w s params.includeFullContent params.includeImages).map
      EntrySummary.index = List.range s.entriesRef.length := by
    rw [List.range_eq_range']
    exact summariesFrom_map_index _ _ _
  rw [← hindex, List.filter_map, getSession_unbounded_entries]
  congr 1
  refine List.filter_congr fun x hx => ?_
  obtain ⟨entry, hentry, hsummary⟩ := summaries_index hx
  rw [Function.comp_apply, hentry, Option.any_some, hsummary]
  rfl

/-- **Walking backwards reports everything in the bounds, each entry once.** -/
theorem getSession_walk {n fuel : Nat} (hn : 1 ≤ n)
    (hfuel : (getSession w s params).totalCount < fuel) :
    (walkBack EntrySummary.index (pageBefore w s params n) fuel
      params.beforeIndex).reverse.flatten =
        (getSession w s { params with count := none }).entries := by
  rw [pageBefore_eq, unbounded_count]
  refine walkBack_flatten (summaries_increasing.sublist List.filter_sublist) hn fuel _ ?_
  refine Nat.lt_of_le_of_lt ?_ hfuel
  rw [getSession_totalCount, below, List.filter_filter, ← List.countP_eq_length_filter]
  refine List.countP_mono_left fun x _ hx => ?_
  simp only [Bool.and_eq_true] at hx
  exact hx.2.1

variable (w s params)

/-- **Paging loses nothing.** A call reports the end of what its window has of the unbounded
response, whose entries are those that pass the filter and whose number is the total; an entry
has the same summary in every call; and the pages read backwards, of any size, are together
what the call reports without a count. -/
theorem getSession_pages : (getSession w s params).entries =
        lastOf params.count ((getSession w s params.unbounded).entries.filter fun x =>
          params.inBounds x.index) ∧
      (getSession w s params).totalCount =
        (s.entriesRef.countP fun entry => passesFilter s params entry.subagentId) ∧
      (getSession w s params.unbounded).entries.map EntrySummary.index =
        (List.range s.entriesRef.length).filter (fun i =>
          s.entriesRef[i]?.any fun entry => passesFilter s params entry.subagentId) ∧
      (∀ other, ∀ x ∈ (getSession w s params).entries, ∀ y ∈ (getSession w s other).entries,
        x.index = y.index → x.SameEntry y) ∧
      ∀ n fuel, 1 ≤ n → (getSession w s params).totalCount < fuel →
        (walkBack EntrySummary.index (pageBefore w s params n) fuel
          params.beforeIndex).reverse.flatten =
            (getSession w s { params with count := none }).entries := by
  refine ⟨getSession_window, ?_, getSession_unbounded_index, ?_, ?_⟩
  · rw [getSession_eq]
  · intro other x hx y hy hindex
    exact getSession_stable hx hy hindex
  · intro n fuel hn hfuel
    exact getSession_walk hn hfuel

end

/-- A restored message with an image, and an answer with a second one. -/
def photoSession : Session where
  id := "photos".toList
  coldEntries := [.userMessage ⟨none, .markdown "see `Image`".toList,
    [.text "see".toList none, .image "aGk=".toList "image/png".toList none], none⟩]
  acpThread := some [.assistantMessage ⟨[.message (.image ⟨.gif, [104, 105]⟩)], none⟩,
    .completedPlan [⟨"done".toList, [], []⟩]]
  entryCreatedMs := [-1, 1000]
  activeSubagents := []

/-- Two pages of the three entries, and the link to the second image in the answer. -/
theorem getSession_pages_photos :
    let w : Wire := ⟨fun _ => "aGk=".toList, fun _ => []⟩
    let params : GetSessionParams := ⟨true, true, none, none, none, some "__main__".toList⟩
    (walkBack EntrySummary.index (pageBefore w photoSession params 2) 4 none).reverse.flatten =
        (getSession w photoSession params).entries ∧
      ((getSession w photoSession params).entries.map fun x =>
        (x.index, x.images.map (·.map EntryImage.index))) =
          [(0, some [0]), (1, some [1]), (2, some [])] ∧
      ((getSession w photoSession params).entries.map (·.markdown.getD []))[1]? =
        some "## Assistant\n\n[image #1](spk-image://1)\n\n".toList := by
  refine ⟨(getSession_pages _ photoSession _).2.2.2.2 2 4 (by decide) (by decide), ?_, ?_⟩
  · decide
  · decide

/-! ## Without the data -/

def EntrySummary.brief (x : EntrySummary) : Transcript.EntrySummary where
  role := x.role
  index := x.index
  preview := x.preview
  markdown := x.markdown
  clientSendIds := x.clientSendIds
  createdMs := x.createdMs
  subagentId := x.subagentId

def AgentThreadEntry.threadEntry (entry : AgentThreadEntry) : Transcript.ThreadEntry :=
  ⟨entry.brief, none⟩

def Session.brief (s : Session) : Transcript.Session where
  coldEntries := s.coldEntries.map AgentThreadEntry.threadEntry
  acpThread := s.acpThread.map (·.map AgentThreadEntry.threadEntry)
  entryCreatedMs := s.entryCreatedMs

def GetSessionParams.brief (params : GetSessionParams) : Transcript.GetSessionParams where
  includeFullContent := params.includeFullContent
  beforeIndex := params.beforeIndex
  afterIndex := params.afterIndex
  count := params.count
  subagentFilter := params.subagentFilter

section

variable {w : Wire} {s : Session} {params : GetSessionParams}

section

variable (entry : AgentThreadEntry)

theorem countImages_brief :
    Transcript.countImagesInEntry entry.brief = countImagesInEntry entry := by
  cases entry with
  | userMessage message =>
    simp only [AgentThreadEntry.brief, Transcript.countImagesInEntry, UserMessage.brief,
      List.countP_map]
    refine List.countP_congr fun block _ => ?_
    cases block <;> simp [AcpContentBlock.brief, AcpContentBlock.isImage]
  | assistantMessage message =>
    simp only [AgentThreadEntry.brief, Transcript.countImagesInEntry, AssistantMessage.brief,
      List.countP_map]
    refine List.countP_congr fun chunk _ => ?_
    rcases chunk with block | block <;> cases block <;>
      simp [AssistantMessageChunk.brief, Transcript.AssistantMessageChunk.block,
        AssistantMessageChunk.block, ContentBlock.brief, ContentBlock.isImage]
  | toolCall call =>
    simp only [AgentThreadEntry.brief, Transcript.countImagesInEntry, ToolCall.brief,
      List.countP_map]
    refine List.countP_congr fun content _ => ?_
    rcases content with block | d | t
    · cases block <;>
        simp [ToolCallContent.brief, ToolCallContent.isImage, ContentBlock.brief,
          ContentBlock.isImage]
    · simp [ToolCallContent.brief, ToolCallContent.isImage]
    · simp [ToolCallContent.brief, ToolCallContent.isImage]
  | completedPlan entries => rfl

theorem summarizeEntry_brief (index : Nat) (createdMs : Option Int)
    (full images : Bool) (imageCursor : Nat) :
    (summarizeEntry w entry index createdMs full images imageCursor).1.brief =
      Transcript.summarizeEntry entry.brief index createdMs full imageCursor := rfl

theorem passesFilter_brief :
    Transcript.passesFilter s.activeSubagents.isEmpty params.brief entry.brief =
      passesFilter s params entry.subagentId := by
  rw [Transcript.passesFilter, passesFilter, GetSessionParams.brief]
  cases params.subagentFilter with
  | none => rfl
  | some filter =>
    simp only
    split
    · rfl
    · split
      · rw [AgentThreadEntry.subagentId]
        cases entry.brief.subagentId <;> rfl
      · rw [AgentThreadEntry.subagentId, beq_eq_decide]

end

theorem walkEntries_brief (entries : List AgentThreadEntry) : ∀ index imageCursor,
      Transcript.walkEntries s.brief s.activeSubagents.isEmpty params.brief index imageCursor
          (entries.map AgentThreadEntry.threadEntry) =
        ((walkEntries w s params index imageCursor entries).1.map EntrySummary.brief,
          (walkEntries w s params index imageCursor entries).2) := by
  induction entries with
  | nil =>
    intro index imageCursor
    rfl
  | cons entry rest ih =>
    intro index imageCursor
    rw [List.map_cons, Transcript.walkEntries, walkEntries]
    simp only [AgentThreadEntry.threadEntry, passesFilter_brief, countImages_brief, ih]
    have hbounds : (params.brief.afterIndex.all (· < index) &&
        params.brief.beforeIndex.all (index < ·)) = params.inBounds index := rfl
    rw [Bool.and_assoc, hbounds]
    cases passesFilter s params entry.subagentId with
    | false => simp
    | true =>
      cases params.inBounds index with
      | false => simp
      | true =>
        simp only [Bool.and_self, if_true, List.map_cons, summarizeEntry_brief,
          summarizeEntry_cursor]
        rfl

/-- **The tool is that of the transcript, with the data added.** -/
theorem getSession_brief : ((getSession w s params).entries.map EntrySummary.brief,
        (getSession w s params).totalCount) =
      Transcript.getSession s.brief s.activeSubagents.isEmpty params.brief := by
  have htranscript : s.brief.transcript = s.entriesRef.map AgentThreadEntry.threadEntry := by
    rw [Transcript.Session.transcript, Session.entriesRef, List.map_append]
    cases hthread : s.acpThread with
    | none => simp [Session.brief, Transcript.Session.live, hthread]
    | some live => simp [Session.brief, Transcript.Session.live, hthread]
  rw [Transcript.getSession, htranscript, walkEntries_brief (w := w), getSession]
  have hcount : params.brief.count = params.count := rfl
  rw [hcount]
  cases params.count with
  | none => rfl
  | some n =>
    simp only [List.length_map, ← List.map_drop]
    split
    · rfl
    · rename_i hlen
      rw [Nat.sub_eq_zero_of_le (Nat.not_lt.mp hlen), List.drop_zero]

end

end SpkEditor.Entries
