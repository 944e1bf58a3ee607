import SpkEditor.Agent.Queue
import SpkEditor.Lib.Lines
import SpkEditor.Remote.Proxy

/-!
# The tail of a background agent

A background agent writes a line of JSON for each of its turns; the editor shows the last one.
A refresh reads from where the one before stopped, and at most a window from the end, takes
the last line that is not blank and parses it; then the place is the end of the file, wherever
in a line that is.

So a refresh that finds the beginning of the last line in its window shows that line, and the
same as a read of the whole file. If the refresh before stopped inside the line, or the window
begins inside it, a part of the line is parsed instead; and if the window begins inside a
character, nothing is read at all.
-/

namespace SpkEditor.AgentTail

open Lines

open Remote (JsonValue)

variable {ba : BackgroundAgent} {after before content line text : List Char}

/-- `Value::as_str`. -/
def asStr : JsonValue → Option (List Char)
  | .str s => some s
  | _ => none

/-- `Value::as_array`. -/
def asArray : JsonValue → Option (List JsonValue)
  | .arr items => some items
  | _ => none

/-- `Value::as_object`. -/
def asObject : JsonValue → Option (List (List Char × JsonValue))
  | .obj fields => some fields
  | _ => none

structure BackgroundAgentSnapshot where
  mtime : Nat
  activityLabel : List Char
  stopReason : Option (List Char)
  deriving DecidableEq

def GENERATING : List Char := "Generating…".toList

def generatingSnapshot (now : Nat) : BackgroundAgentSnapshot := ⟨now, GENERATING, none⟩

def strField (key : List Char) (value : JsonValue) : List Char :=
  ((value.get key).bind asStr).getD []

def ARG_BUDGET : Nat := 30

/-- The label of a `tool_use` block. -/
def toolUseLabel (block : JsonValue) : List Char :=
  let name := ((block.get "name".toList).bind asStr).getD ['?']
  let inputPreview :=
    ((((block.get "input".toList).bind asObject).bind List.head?).bind fun p => asStr p.2).getD []
  if ARG_BUDGET < inputPreview.length then
    name ++ [':', ' '] ++ inputPreview.take ARG_BUDGET ++ ['…']
  else if inputPreview = [] then name
  else name ++ [':', ' '] ++ inputPreview

/-- `derive_assistant_label`. -/
def deriveAssistantLabel (message : JsonValue) : List Char :=
  let content := ((message.get "content".toList).bind asArray).getD []
  match content.find? fun block => strField "type".toList block == "tool_use".toList with
  | some block => toolUseLabel block
  | none => GENERATING

/-- `parse_jsonl_snapshot`. `fromStr` is `serde_json::from_str`. -/
def parseJsonlSnapshot (fromStr : List Char → Option JsonValue) (now : Nat) (line : List Char) :
    BackgroundAgentSnapshot :=
  match fromStr line with
  | none => generatingSnapshot now
  | some value =>
    if strField "type".toList value = "system".toList then
      if strField "subtype".toList value = "init".toList then ⟨now, "Starting…".toList, none⟩
      else generatingSnapshot now
    else if strField "type".toList value = "assistant".toList then
      let message := (value.get "message".toList).getD .null
      let stopReason :=
        ((message.get "stop_reason".toList).bind asStr).filter fun reason => reason ≠ []
      ⟨now, deriveAssistantLabel message, stopReason⟩
    else generatingSnapshot now

def JSONL_LINE_CAP : Nat := 64 * 1024

def SLACK : Nat := JSONL_LINE_CAP + 4096

def isBlank (line : List Char) : Bool := (trimText line).isEmpty

def lastLine (text : List Char) : Option (List Char) :=
  (splitBy '\n' text).reverse.find? fun line => !isBlank line

structure Tail where
  lastLine : Option (List Char)
  newOffset : Nat
  mtime : Nat

def readStart (sinceOffset len : Nat) : Nat := max sinceOffset (len - SLACK)

/-- A line past the cap is dropped. -/
def capped (line : Option (List Char)) : Option (List Char) :=
  match line with
  | some l => if JSONL_LINE_CAP < byteLen l then none else some l
  | none => none

/-- `tail_jsonl` on what the file holds; none if that is no text. -/
def tailJsonl (file : List UInt8) (mtime sinceOffset : Nat) : Option Tail :=
  let len := file.length
  let sinceOffset := if len < sinceOffset then 0 else sinceOffset
  if sinceOffset = len then some ⟨none, len, mtime⟩
  else
    let start := readStart sinceOffset len
    (fromUtf8 ((file.drop start).take (len - start))).map fun buf =>
      ⟨capped (lastLine buf), len, mtime⟩

structure BackgroundAgent where
  latest : Option BackgroundAgentSnapshot
  lastOffset : Nat
  deriving DecidableEq

def snapshotOf (fromStr : List Char → Option JsonValue) (now : Nat) (tail : Tail) :
    Option BackgroundAgentSnapshot :=
  tail.lastLine.map fun line => { parseJsonlSnapshot fromStr now line with mtime := tail.mtime }

/-- `refresh_background_agent_snapshot`. -/
def BackgroundAgent.refresh (fromStr : List Char → Option JsonValue) (now : Nat)
    (file : List UInt8) (mtime : Nat) (ba : BackgroundAgent) : BackgroundAgent :=
  match tailJsonl file mtime ba.lastOffset with
  | none => ba
  | some tail =>
    { latest := (snapshotOf fromStr now tail).or ba.latest
      lastOffset := tail.newOffset }

/-! ## The last line -/

theorem isBlank_iff : isBlank line ↔ ∀ c ∈ line, isWhitespace c := by
  rw [isBlank, List.isEmpty_iff, trimText, List.reverse_eq_nil_iff, List.dropWhile_eq_nil_iff]
  constructor
  · intro h c hc
    by_contra hnot
    have hmem : c ∈ line.dropWhile isWhitespace := by
      have := List.takeWhile_append_dropWhile (p := isWhitespace) (l := line)
      rw [← this] at hc
      rcases List.mem_append.mp hc with hc | hc
      · exact absurd (List.mem_takeWhile_imp hc) hnot
      · exact hc
    exact hnot (h c (List.mem_reverse.mpr hmem))
  · intro h c hc
    exact h c ((List.dropWhile_sublist _).subset (List.mem_reverse.mp hc))

theorem lastLine_append (text more : List Char) :
    lastLine (text ++ '\n' :: more) = (lastLine more).or (lastLine text) := by
  rw [lastLine, splitBy_append, List.reverse_append, List.find?_append]
  rfl

theorem lastLine_line (h : '\n' ∉ line) :
    lastLine line = if isBlank line then none else some line := by
  rw [lastLine, splitBy_of_not_mem h]
  by_cases hb : isBlank line <;> simp [hb]

theorem lastLine_eq_none : lastLine text = none ↔ ∀ c ∈ text, isWhitespace c := by
  induction hn : text.length using Nat.strong_induction_on generalizing text with
  | _ n ih =>
    by_cases hnl : '\n' ∈ text
    · obtain ⟨front, more, rfl⟩ := List.append_of_mem hnl
      have hlen : front.length < n ∧ more.length < n := by
        rw [← hn, List.length_append, List.length_cons]
        omega
      rw [lastLine_append, Option.or_eq_none_iff, ih _ hlen.2 rfl, ih _ hlen.1 rfl]
      simp only [List.mem_append, List.mem_cons]
      constructor
      · rintro ⟨h₁, h₂⟩ c (hc | rfl | hc)
        · exact h₂ c hc
        · decide
        · exact h₁ c hc
      · exact fun h => ⟨fun c hc => h c (.inr (.inr hc)), fun c hc => h c (.inl hc)⟩
    · rw [lastLine_line hnl, ← isBlank_iff]
      by_cases hb : isBlank text <;> simp [hb]

/-- The last line that is not blank, its place and what is behind it. -/
structure LastAt (text before line after : List Char) : Prop where
  text_eq : text = before ++ (line ++ '\n' :: after)
  begins : before = [] ∨ before.getLast? = some '\n'
  closed : '\n' ∉ line
  not_blank : isBlank line = false
  blank_after : lastLine after = none

theorem LastAt.lastLine (h : LastAt text before line after) : lastLine text = some line := by
  have hline : AgentTail.lastLine line = some line := by
    rw [lastLine_line h.closed, h.not_blank]
    rfl
  have hfront : AgentTail.lastLine (before ++ line) = some line := by
    rcases h.begins with rfl | hlast
    · exact hline
    · rw [← List.dropLast_append_getLast? '\n' hlast, List.append_assoc, List.singleton_append,
        lastLine_append, hline]
      rfl
  rw [h.text_eq, ← List.append_assoc, lastLine_append, h.blank_after, hfront]
  rfl

theorem LastAt.window {front window : List Char}
    (h : LastAt text before line after) (htext : text = front ++ window)
    (hle : byteLen front ≤ byteLen before) : AgentTail.lastLine window = some line := by
  obtain ⟨gap, hgap, hwindow⟩ := exists_append_of_byteLen_le (htext.symm.trans h.text_eq) hle
  suffices hlast : LastAt window gap line after from hlast.lastLine
  refine ⟨hwindow, ?_, h.closed, h.not_blank, h.blank_after⟩
  rcases h.begins with hnil | hlast
  · rw [hnil] at hgap
    exact .inl (List.append_eq_nil_iff.mp hgap.symm).2
  · by_cases hnil : gap = []
    · exact .inl hnil
    · rw [hgap, List.getLast?_append_of_ne_nil _ hnil] at hlast
      exact .inr hlast

theorem LastAt.mem_lines (h : LastAt text before line after) : line ∈ splitBy '\n' text := by
  rw [h.text_eq, ← List.append_assoc, splitBy_append]
  refine List.mem_append_left _ ?_
  rcases h.begins with rfl | hlast
  · rw [List.nil_append, splitBy_of_not_mem h.closed]
    exact List.mem_singleton_self _
  · rw [← List.dropLast_append_getLast? '\n' hlast, List.append_assoc, List.singleton_append,
      splitBy_append, splitBy_of_not_mem h.closed]
    simp

/-! ## One refresh -/

variable {fromStr : List Char → Option JsonValue}

theorem tailJsonl_end (file : List UInt8) (mtime : Nat) :
    tailJsonl file mtime file.length = some ⟨none, file.length, mtime⟩ := by
  simp [tailJsonl]

theorem tailJsonl_window {front window : List Char} {mtime sinceOffset : Nat}
    (hcontent : content = front ++ window) (hlt : sinceOffset < byteLen content)
    (hstart : byteLen front = readStart sinceOffset (byteLen content)) :
    tailJsonl (utf8 content) mtime sinceOffset =
      some ⟨capped (lastLine window), byteLen content, mtime⟩ := by
  have hdrop : ((utf8 content).drop (byteLen front)).take (byteLen content - byteLen front) =
      utf8 window := by
    rw [hcontent, utf8_append, ← length_utf8 front, List.drop_left, length_utf8, byteLen_append,
      Nat.add_sub_cancel_left, ← length_utf8 window, List.take_length]
  rw [tailJsonl, length_utf8]
  simp only [if_neg (Nat.not_lt.mpr (Nat.le_of_lt hlt)), if_neg (Nat.ne_of_lt hlt), ← hstart, hdrop,
    fromUtf8_utf8]
  rfl

theorem tailJsonl_some {mtime sinceOffset : Nat} {tail : Tail}
    (h : tailJsonl (utf8 content) mtime sinceOffset = some tail)
    (hlt : sinceOffset < byteLen content) :
    ∃ front window, content = front ++ window ∧
      byteLen front = readStart sinceOffset (byteLen content) ∧
      tail = ⟨capped (lastLine window), byteLen content, mtime⟩ := by
  rw [tailJsonl, length_utf8] at h
  simp only [if_neg (Nat.not_lt.mpr (Nat.le_of_lt hlt)), if_neg (Nat.ne_of_lt hlt)] at h
  obtain ⟨window, hwindow, rfl⟩ := Option.map_eq_some_iff.mp h
  have hle : readStart sinceOffset (byteLen content) ≤ byteLen content := by
    rw [readStart]
    omega
  rw [List.take_of_length_le (by rw [List.length_drop, length_utf8])] at hwindow
  have hbytes := fromUtf8_eq_some_iff.mp hwindow
  have hall : utf8 content = (utf8 content).take (readStart sinceOffset (byteLen content)) ++
      utf8 window := by
    rw [← hbytes, List.take_append_drop]
  obtain ⟨front, hcontent, hfront⟩ := utf8_suffix hall
  refine ⟨front, window, hcontent, ?_, rfl⟩
  rw [← length_utf8, ← hfront, List.length_take, length_utf8, Nat.min_eq_left hle]

/-- The stored snapshot is that of a read of the whole file, if it can be read, and has the
stop reason of the last line. -/
def Agrees (fromStr : List Char → Option JsonValue) (content : List Char) (mtime : Nat)
    (latest : Option BackgroundAgentSnapshot) : Prop :=
  (∀ now tail, tailJsonl (utf8 content) mtime 0 = some tail → latest = snapshotOf fromStr now tail) ∧
  ∀ now line reason, lastLine content = some line →
    (parseJsonlSnapshot fromStr now line).stopReason = some reason →
      ∃ snapshot, latest = some snapshot ∧ snapshot.stopReason = some reason

/-- What a refresh needs that finds a file ending in a newline: the file is as the refresh
before left it; or there is no line in it, and nothing is stored; or the window begins
between two characters, and not behind the beginning of the last line. -/
def Meets (ba : BackgroundAgent) (content : List Char) : Prop :=
  ba.lastOffset = byteLen content ∨
  (ba.latest = none ∧ lastLine content = none) ∨
  ∃ before line after front window, LastAt content before line after ∧
    content = front ++ window ∧ byteLen front = readStart ba.lastOffset (byteLen content) ∧
    byteLen front ≤ byteLen before

theorem parseJsonlSnapshot_now (fromStr : List Char → Option JsonValue) (now now' mtime : Nat) (line : List Char) :
    ({ parseJsonlSnapshot fromStr now line with mtime := mtime } : BackgroundAgentSnapshot) =
      { parseJsonlSnapshot fromStr now' line with mtime := mtime } := by
  simp only [parseJsonlSnapshot, generatingSnapshot]
  cases fromStr line with
  | none => rfl
  | some value =>
    dsimp only
    split
    · split <;> rfl
    · split <;> rfl

theorem agrees_blank {mtime : Nat} (h : lastLine content = none) :
    Agrees fromStr content mtime none := by
  refine ⟨fun now tail htail => ?_, fun now line reason hline => ?_⟩
  · rcases Nat.eq_zero_or_pos (byteLen content) with hzero | hpos
    · rw [← hzero, ← length_utf8, tailJsonl_end] at htail
      cases htail
      rfl
    · obtain ⟨front, window, hcontent, -, rfl⟩ := tailJsonl_some htail hpos
      have hwindow : lastLine window = none := lastLine_eq_none.mpr fun c hc =>
        lastLine_eq_none.mp h c (by rw [hcontent]; exact List.mem_append_right _ hc)
      simp [snapshotOf, hwindow, capped]
  · rw [h] at hline
    cases hline

theorem agrees_line (h : LastAt content before line after)
    (hcap : byteLen line ≤ JSONL_LINE_CAP) (hwindow : byteLen content - SLACK ≤ byteLen before)
    (now mtime : Nat) :
    Agrees fromStr content mtime
      (some { parseJsonlSnapshot fromStr now line with mtime := mtime }) := by
  refine ⟨fun now' tail htail => ?_, fun now' line' reason hline hreason => ?_⟩
  · have hpos : 0 < byteLen content := by
      rw [h.text_eq]
      exact byteLen_pos (by simp)
    obtain ⟨front, window, hcontent, hfront, rfl⟩ := tailJsonl_some htail hpos
    have hlast := h.window hcontent (by rw [hfront, readStart, Nat.zero_max]; exact hwindow)
    rw [snapshotOf, hlast, capped, if_neg (Nat.not_lt.mpr hcap), Option.map_some,
      parseJsonlSnapshot_now fromStr now' now]
  · rw [h.lastLine] at hline
    cases hline
    refine ⟨_, rfl, ?_⟩
    have := congrArg BackgroundAgentSnapshot.stopReason
      (parseJsonlSnapshot_now fromStr now now' mtime line)
    exact this.trans hreason

/-- **A refresh that meets the condition agrees with a read of the whole file.** -/
theorem BackgroundAgent.refresh_agrees {mtime : Nat}
    (hcap : ∀ line ∈ splitBy '\n' content, byteLen line ≤ JSONL_LINE_CAP)
    (hle : ba.lastOffset ≤ byteLen content)
    (hsame : ba.lastOffset = byteLen content → Agrees fromStr content mtime ba.latest)
    (hmeets : Meets ba content) (now : Nat) :
    Agrees fromStr content mtime (ba.refresh fromStr now (utf8 content) mtime).latest := by
  by_cases heq : ba.lastOffset = byteLen content
  · have htail : tailJsonl (utf8 content) mtime ba.lastOffset =
        some ⟨none, byteLen content, mtime⟩ := by
      rw [heq, ← length_utf8, tailJsonl_end]
    rw [BackgroundAgent.refresh, htail]
    exact hsame heq
  · have hlt : ba.lastOffset < byteLen content := Nat.lt_of_le_of_ne hle heq
    rcases hmeets with h | ⟨hnone, hblank⟩ | ⟨before, line, after, front, window, hlast, hcontent,
      hfront, hbefore⟩
    · exact absurd h heq
    · rw [BackgroundAgent.refresh]
      split
      · rw [hnone]
        exact agrees_blank hblank
      · rename_i tail htail
        obtain ⟨front, window, hcontent, -, rfl⟩ := tailJsonl_some htail hlt
        have hwindow : lastLine window = none := lastLine_eq_none.mpr fun c hc =>
          lastLine_eq_none.mp hblank c (by rw [hcontent]; exact List.mem_append_right _ hc)
        simp only [snapshotOf, hwindow, capped, Option.map_none, Option.none_or, hnone]
        exact agrees_blank hblank
    · have hline := hcap line hlast.mem_lines
      rw [BackgroundAgent.refresh, tailJsonl_window hcontent hlt hfront]
      simp only [snapshotOf, hlast.window hcontent hbefore, capped,
        if_neg (Nat.not_lt.mpr hline), Option.map_some, Option.some_or]
      refine agrees_line hlast hline ?_ now mtime
      rw [hfront, readStart] at hbefore
      omega

/-! ## Schedules -/

/-- A refresh finds the first `len` bytes, at the time `now`. -/
structure Observation where
  len : Nat
  now : Nat

def Observation.file (o : Observation) (text : List Char) : List UInt8 := (utf8 text).take o.len

/-- The file is appended to only, so its time is known by its length. -/
def BackgroundAgent.observe (fromStr : List Char → Option JsonValue) (text : List Char)
    (mtimeAt : Nat → Nat) (ba : BackgroundAgent) (o : Observation) : BackgroundAgent :=
  ba.refresh fromStr o.now (o.file text) (mtimeAt (o.file text).length)

def BackgroundAgent.run (fromStr : List Char → Option JsonValue) (text : List Char)
    (mtimeAt : Nat → Nat) (ba : BackgroundAgent) (observations : List Observation) :
    BackgroundAgent :=
  observations.foldl (BackgroundAgent.observe fromStr text mtimeAt) ba

def BackgroundAgent.registered : BackgroundAgent := ⟨none, 0⟩

theorem take_newline {n : Nat} (h : ((utf8 text).take n).getLast? = some newline) :
    ∃ before after, text = before ++ '\n' :: after ∧
      (utf8 text).take n = utf8 (before ++ ['\n']) := by
  obtain ⟨front, hfront⟩ : ∃ front, (utf8 text).take n = front ++ [newline] :=
    ⟨_, (List.dropLast_append_getLast? newline h).symm⟩
  have hall : utf8 text = front ++ newline :: (utf8 text).drop n := by
    conv_lhs => rw [← List.take_append_drop n (utf8 text), hfront]
    rw [List.append_assoc, List.singleton_append]
  obtain ⟨before, after, htext, hbefore⟩ := utf8_newline hall
  refine ⟨before, after, htext, ?_⟩
  rw [hfront, hbefore, utf8_append, utf8_cons, utf8EncodeChar_newline]
  rfl

section Runs

variable {mtimeAt : Nat → Nat}

/-- The lines of a first part are short if all lines are. -/
theorem capped_part (hcap : ∀ line ∈ splitBy '\n' text, byteLen line ≤ JSONL_LINE_CAP) {n : Nat}
    (hcontent : (utf8 text).take n = utf8 content)
    (hlast : content.getLast? = some '\n') :
    ∀ line ∈ splitBy '\n' content, byteLen line ≤ JSONL_LINE_CAP := by
  have hbytes : ((utf8 text).take n).getLast? = some newline := by
    rw [hcontent, ← List.dropLast_append_getLast? '\n' hlast, utf8_append, utf8_cons,
      utf8EncodeChar_newline, utf8_nil]
    simp
  obtain ⟨before, after, htext, htake⟩ := take_newline hbytes
  obtain rfl := utf8_injective (hcontent.symm.trans htake)
  intro line hline
  rw [splitBy_append] at hline
  rcases List.mem_append.mp hline with hline | hline
  · refine hcap line ?_
    rw [htext, splitBy_append]
    exact List.mem_append_left _ hline
  · rw [splitBy_of_not_mem List.not_mem_nil] at hline
    rw [List.mem_singleton.mp hline]
    exact Nat.zero_le _

/-- The stored snapshot is right for the file as it was at the stored offset. -/
def Kept (fromStr : List Char → Option JsonValue) (text : List Char) (mtimeAt : Nat → Nat)
    (ba : BackgroundAgent) : Prop :=
  ∀ content, (utf8 text).take ba.lastOffset = utf8 content → content.getLast? = some '\n' →
    Agrees fromStr content (mtimeAt (byteLen content)) ba.latest

theorem kept_registered : Kept fromStr text mtimeAt .registered := by
  intro content hcontent hlast
  have hnil : content = [] := byteLen_eq_zero.mp (by rw [← length_utf8, ← hcontent]; rfl)
  rw [hnil] at hlast
  cases hlast

theorem newOffset_eq {file : List UInt8} {mtime sinceOffset : Nat} {tail : Tail}
    (h : tailJsonl file mtime sinceOffset = some tail) : tail.newOffset = file.length := by
  rw [tailJsonl] at h
  generalize (if file.length < sinceOffset then 0 else sinceOffset) = since at h
  split at h
  · cases h
    rfl
  · obtain ⟨buf, -, rfl⟩ := Option.map_eq_some_iff.mp h
    rfl

theorem BackgroundAgent.refresh_offset (fromStr : List Char → Option JsonValue)
    (ba : BackgroundAgent) (now : Nat) (file : List UInt8) (mtime : Nat) :
    ba.refresh fromStr now file mtime = ba ∨
      (ba.refresh fromStr now file mtime).lastOffset = file.length := by
  rw [BackgroundAgent.refresh]
  split
  · exact .inl rfl
  · rename_i tail htail
    exact .inr (newOffset_eq htail)

/-- What an observation needs. -/
def MeetsAt (text : List Char) (ba : BackgroundAgent) (o : Observation) : Prop :=
  ∀ content, o.file text = utf8 content → content.getLast? = some '\n' → Meets ba content

theorem take_length_file (o : Observation) :
    (utf8 text).take (o.file text).length = o.file text := by
  rw [Observation.file, List.length_take, ← List.take_eq_take_min]

section

variable (hcap : ∀ line ∈ splitBy '\n' text, byteLen line ≤ JSONL_LINE_CAP) {o : Observation}
  (hkept : Kept fromStr text mtimeAt ba) (hle : ba.lastOffset ≤ (o.file text).length)
  (hmeets : MeetsAt text ba o)
include hcap hkept hle hmeets

theorem agrees_observe (hcontent : o.file text = utf8 content) (hlast : content.getLast? = some '\n') :
    Agrees fromStr content (mtimeAt (o.file text).length)
      (ba.observe fromStr text mtimeAt o).latest := by
  have hlen : (o.file text).length = byteLen content := by rw [hcontent, length_utf8]
  rw [BackgroundAgent.observe, hlen, hcontent]
  refine BackgroundAgent.refresh_agrees (capped_part hcap hcontent hlast) (hlen ▸ hle)
    (fun heq => ?_) (hmeets content hcontent hlast) o.now
  refine hkept content ?_ hlast
  rw [heq, ← hlen, take_length_file, hcontent]

theorem Kept.observe :
    Kept fromStr text mtimeAt (ba.observe fromStr text mtimeAt o) := by
  rcases ba.refresh_offset fromStr o.now (o.file text) (mtimeAt (o.file text).length)
    with hsame | hend
  · rw [BackgroundAgent.observe, hsame]
    exact hkept
  · intro content hcontent hlast
    rw [BackgroundAgent.observe, hend, take_length_file] at hcontent
    have := agrees_observe hcap hkept hle hmeets hcontent hlast
    rwa [hcontent, length_utf8] at this

end

theorem observe_le {o next : Observation}
    (hle : ba.lastOffset ≤ (o.file text).length) (hgrows : o.len ≤ next.len) :
    (ba.observe fromStr text mtimeAt o).lastOffset ≤ (next.file text).length := by
  have hfile : (o.file text).length ≤ (next.file text).length := by
    rw [Observation.file, Observation.file, List.length_take, List.length_take]
    omega
  rcases ba.refresh_offset fromStr o.now (o.file text) (mtimeAt (o.file text).length)
    with hsame | hend
  · rw [BackgroundAgent.observe, hsame]
    omega
  · rw [BackgroundAgent.observe, hend]
    exact hfile

theorem agrees_run (hcap : ∀ line ∈ splitBy '\n' text, byteLen line ≤ JSONL_LINE_CAP)
    (hkept : Kept fromStr text mtimeAt ba)
    {before after : List Observation} {o : Observation}
    (hgrows : (before ++ o :: after).Pairwise fun a b => a.len ≤ b.len)
    (hle : ∀ a ∈ before ++ [o], ba.lastOffset ≤ (a.file text).length)
    (hmeets : ∀ front a back, before ++ [o] = front ++ a :: back →
      MeetsAt text (ba.run fromStr text mtimeAt front) a) (hcontent : o.file text = utf8 content)
    (hlast : content.getLast? = some '\n') :
    Agrees fromStr content (mtimeAt (o.file text).length)
      (ba.run fromStr text mtimeAt (before ++ [o])).latest := by
  induction before generalizing ba with
  | nil => exact agrees_observe hcap hkept (hle o (by simp)) (hmeets [] o [] rfl) hcontent hlast
  | cons first before ih =>
    rw [List.cons_append, List.pairwise_cons] at hgrows
    have hfirst := hle first (by simp)
    refine ih (hkept.observe hcap hfirst (hmeets [] first _ rfl)) hgrows.2 (fun a ha => ?_)
      fun front a back he => hmeets (first :: front) a back (by rw [List.cons_append, he]; rfl)
    refine observe_le hfirst (hgrows.1 a ?_)
    rcases List.mem_append.mp ha with ha | ha
    · exact List.mem_append_left _ ha
    · rw [List.mem_singleton.mp ha]
      simp

end Runs

/-- **Incremental tails agree with a full read** in every schedule in which each refresh of a
file that ends in a newline meets the condition. -/
theorem refreshes_agree (fromStr : List Char → Option JsonValue) (text : List Char)
    (mtimeAt : Nat → Nat) (hcap : ∀ line ∈ splitBy '\n' text, byteLen line ≤ JSONL_LINE_CAP)
    (observations : List Observation)
    (hgrows : observations.Pairwise fun a b => a.len ≤ b.len)
    (hmeets : ∀ before o after, observations = before ++ o :: after →
      ∀ content, o.file text = utf8 content → content.getLast? = some '\n' →
        Meets (BackgroundAgent.registered.run fromStr text mtimeAt before) content) :
    ∀ before o after, observations = before ++ o :: after →
      (o.file text).getLast? = some newline →
        ∃ content, o.file text = utf8 content ∧
          Agrees fromStr content (mtimeAt (o.file text).length)
            (BackgroundAgent.registered.run fromStr text mtimeAt (before ++ [o])).latest := by
  intro before o after hobs hnewline
  obtain ⟨line, rest, -, hcontent⟩ := take_newline hnewline
  refine ⟨line ++ ['\n'], hcontent, ?_⟩
  refine agrees_run hcap kept_registered (hobs ▸ hgrows) (fun a _ => Nat.zero_le _) ?_ hcontent
    (by simp)
  intro front a back he
  refine hmeets front a (back ++ after) ?_
  rw [hobs, List.append_cons, he]
  simp

theorem refreshes_agree_whole :
    ∃ content, (Observation.mk 2 0).file ['7', '\n'] = utf8 content ∧
      Agrees (fun _ => some (.int 7)) content (id ((Observation.mk 2 0).file ['7', '\n']).length)
        (BackgroundAgent.registered.run (fun _ => some (.int 7)) ['7', '\n'] id
          ([] ++ [⟨2, 0⟩])).latest := by
  refine refreshes_agree (fun _ => some (.int 7)) ['7', '\n'] id (by decide) [⟨2, 0⟩] (by decide) ?_
    [] ⟨2, 0⟩ [] rfl (by decide)
  intro before o after h content hcontent _
  match before with
  | [] =>
    obtain rfl : o = ⟨2, 0⟩ := (List.cons.inj h).1.symm
    have hfile : (Observation.mk 2 0).file ['7', '\n'] = utf8 ['7', '\n'] := by decide
    obtain rfl := utf8_injective (hcontent.symm.trans hfile)
    exact .inr (.inr ⟨[], ['7'], [], [], ['7', '\n'],
      ⟨rfl, .inl rfl, by decide, by decide, by decide⟩, rfl, by decide, Nat.le_refl _⟩)
  | first :: before => simp at h

def endTurn : List Char := "\x7b\"type\":\"assistant\",\"message\":\x7b\"stop_reason\":\"end_turn\"\x7d\x7d".toList

/-- What `serde_json` makes of that line, and of parts of it. -/
def serdeOfEndTurn (line : List Char) : Option JsonValue :=
  if line = endTurn then
    some (.obj [("type".toList, .str "assistant".toList),
      ("message".toList, .obj [("stop_reason".toList, .str "end_turn".toList)])])
  else none

/-- A refresh inside the line and one at its end: the second parses what is left of the line,
and the end of the turn is not seen. -/
theorem stop_reason_missed :
    let ba := BackgroundAgent.registered.run serdeOfEndTurn (endTurn ++ ['\n']) id [⟨5, 0⟩, ⟨58, 1⟩]
    ((Observation.mk 58 1).file (endTurn ++ ['\n'])).getLast? = some newline ∧
    ba.latest = some ⟨58, GENERATING, none⟩ ∧
    ∃ tail, tailJsonl ((Observation.mk 58 1).file (endTurn ++ ['\n'])) 58 0 = some tail ∧
      snapshotOf serdeOfEndTurn 1 tail = some ⟨58, GENERATING, some "end_turn".toList⟩ := by
  have hopen : (Observation.mk 5 0).file (endTurn ++ ['\n']) = utf8 (endTurn.take 5) := by decide
  have hall : (Observation.mk 58 1).file (endTurn ++ ['\n']) = utf8 (endTurn ++ ['\n']) := by decide
  have hfirst : BackgroundAgent.registered.observe serdeOfEndTurn (endTurn ++ ['\n']) id ⟨5, 0⟩ =
      ⟨some ⟨5, GENERATING, none⟩, 5⟩ := by
    have htail := @tailJsonl_window (endTurn.take 5) [] (endTurn.take 5) 5 0 rfl (by decide)
      (by decide)
    decide
  have hsecond : BackgroundAgent.observe serdeOfEndTurn (endTurn ++ ['\n']) id
      ⟨some ⟨5, GENERATING, none⟩, 5⟩ ⟨58, 1⟩ = ⟨some ⟨58, GENERATING, none⟩, 58⟩ := by
    have htail := @tailJsonl_window (endTurn ++ ['\n']) (endTurn.take 5) (endTurn.drop 5 ++ ['\n'])
      58 5 (by decide) (by decide) (by decide)
    rw [BackgroundAgent.observe, hall, show id (utf8 (endTurn ++ ['\n'])).length = 58 by decide,
      BackgroundAgent.refresh]
    decide
  have hwhole := @tailJsonl_window (endTurn ++ ['\n']) [] (endTurn ++ ['\n']) 58 0 rfl (by decide)
    (by decide)
  refine ⟨by rw [hall]; decide, ?_, _, by rw [hall]; exact hwhole, by decide⟩
  rfl

end SpkEditor.AgentTail
