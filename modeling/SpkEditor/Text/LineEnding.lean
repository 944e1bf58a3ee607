import SpkEditor.Rope.ChunksProof
import SpkEditor.Text.Operation

/-!
# Line endings

A buffer holds its text with `\n` only; `LineEnding::detect` remembers what the text had, and
`chunks_with_line_ending` puts it back when the text is written. The writer goes over the lines of each
chunk of the rope (`str::lines`), and a newline at the end of a chunk is not between two of its lines.

What it writes for a chunk is the chunk with every newline replaced (`flatten_chunkWithLineEnding`), so the
chunks do not matter.
-/

namespace SpkEditor.Chunked

open List Option

variable {text u : List Char}

inductive LineEnding where
  | unix
  | windows

namespace LineEnding

def asStr : LineEnding → List Char
  | unix => ['\n']
  | windows => ['\r', '\n']

/-- Where the part of the text that is looked at ends. -/
def maxIx (text : List Char) : Nat := prevBoundary (isCharBoundary text) (min (byteLen text) 1000)

/-- `LineEnding::detect`. Without a newline it is the ending of the platform. -/
def detect (default : LineEnding) (text : List Char) : Option LineEnding := do
  let window ← strSlice text 0 (maxIx text)
  match strFind '\n' window with
  | some ix =>
    if 0 < ix then do
      let byte ← (utf8 text)[ix - 1]?
      some (if byte = 13 then windows else unix)
    else some unix
  | none => some default

end LineEnding

/-- `str::split_inclusive` at newlines. -/
def splitInclusive : List Char → List (List Char)
  | [] => []
  | c :: text =>
    if c = '\n' then [c] :: splitInclusive text
    else
      match splitInclusive text with
      | [] => [[c]]
      | line :: lines => (c :: line) :: lines

/-- `str::strip_suffix` of a character. -/
def stripSuffix (a : Char) (text : List Char) : Option (List Char) :=
  if text.getLast? = some a then some text.dropLast else none

/-- A line without its newline, and without a carriage return before that. -/
def stripLine (line : List Char) : List Char :=
  match stripSuffix '\n' line with
  | none => line
  | some line => (stripSuffix '\r' line).getD line

/-- `str::lines`. -/
def strLines (text : List Char) : List (List Char) := (splitInclusive text).map stripLine

def withEndings (ending : LineEnding) : Bool → List (List Char) → List (List Char)
  | _, [] => []
  | false, line :: lines => line :: withEndings ending true lines
  | true, line :: lines => ending.asStr :: line :: withEndings ending true lines

/-- What `chunks_with_line_ending` gives for a chunk. -/
def chunkWithLineEnding (ending : LineEnding) (chunk : List Char) : List (List Char) :=
  withEndings ending false (strLines chunk) ++ if chunk.getLast? = some '\n' then [ending.asStr] else []

/-- `chunks_with_line_ending`. -/
def chunksWithLineEnding (rope : Rope) (ending : LineEnding) : Option (List (List Char)) :=
  rope.chunkTexts.map (·.flatMap (chunkWithLineEnding ending))

/-- A text with its newlines replaced. -/
def restore (ending : LineEnding) (text : List Char) : List Char :=
  text.flatMap fun c => if c = '\n' then ending.asStr else [c]

section

variable (ending : LineEnding)

theorem restore_append (s t : List Char) :
    restore ending (s ++ t) = restore ending s ++ restore ending t := flatMap_append

theorem restore_of_not_mem (h : '\n' ∉ text) :
    restore ending text = text := by
  induction text with
  | nil => rfl
  | cons c text ih =>
    obtain ⟨hc, htext⟩ := ne_and_not_mem_of_not_mem_cons h
    rw [restore, flatMap_cons, if_neg hc.symm]
    exact congrArg (c :: ·) (ih htext)

theorem restore_line (hu : '\n' ∉ u) (w : List Char) :
    restore ending (u ++ '\n' :: w) = u ++ (ending.asStr ++ restore ending w) := by
  rw [restore_append, restore_of_not_mem ending hu]
  rfl

theorem restore_flatten (chunks : List (List Char)) :
    restore ending chunks.flatten = (chunks.map (restore ending)).flatten := by
  induction chunks with
  | nil => rfl
  | cons chunk chunks ih => rw [flatten_cons, restore_append, ih, map_cons, flatten_cons]

end

theorem splitInclusive_of_not_mem (hu : '\n' ∉ u) (hne : u ≠ []) : splitInclusive u = [u] := by
  induction u with
  | nil => exact absurd rfl hne
  | cons c u ih =>
    obtain ⟨hc, hmem⟩ := ne_and_not_mem_of_not_mem_cons hu
    rw [splitInclusive, if_neg hc.symm]
    cases u with
    | nil => rfl
    | cons d u => rw [ih hmem (by simp)]

theorem splitInclusive_line (hu : '\n' ∉ u) (w : List Char) :
    splitInclusive (u ++ '\n' :: w) = (u ++ ['\n']) :: splitInclusive w := by
  induction u with
  | nil => exact if_pos rfl
  | cons c u ih =>
    obtain ⟨hc, hmem⟩ := ne_and_not_mem_of_not_mem_cons hu
    rw [cons_append, splitInclusive, if_neg hc.symm, ih hmem]
    rfl

theorem stripSuffix_of_not_mem {a : Char} (h : a ∉ text) : stripSuffix a text = none :=
  if_neg fun hlast => h (List.mem_of_getLast? hlast)

theorem strLines_of_not_mem (hu : '\n' ∉ u) (hne : u ≠ []) : strLines u = [u] := by
  rw [strLines, splitInclusive_of_not_mem hu hne, map_singleton, stripLine, stripSuffix_of_not_mem hu]

theorem strLines_line (hu : '\n' ∉ u) (hr : '\r' ∉ u) (w : List Char) :
    strLines (u ++ '\n' :: w) = u :: strLines w := by
  have hstrip : stripSuffix '\n' (u ++ ['\n']) = some u := by simp [stripSuffix]
  have hline : stripLine (u ++ ['\n']) = u := by
    rw [stripLine, hstrip]
    simp only [stripSuffix_of_not_mem hr, getD_none]
  rw [strLines, splitInclusive_line hu, map_cons, hline]
  rfl

/-- **A chunk is written with every newline replaced**, also at its front and at its end. -/
theorem flatten_chunkWithLineEnding (ending : LineEnding) (chunk : List Char) (hr : '\r' ∉ chunk) :
    (chunkWithLineEnding ending chunk).flatten = restore ending chunk := by
  by_cases hmem : '\n' ∈ chunk
  · obtain ⟨u, w, rfl, hu⟩ := eq_append_cons_of_mem hmem
    have hru : '\r' ∉ u := fun h => hr (mem_append_left _ h)
    have hrw : '\r' ∉ w := fun h => hr (mem_append_right _ (mem_cons_of_mem _ h))
    rw [restore_line ending hu, ← flatten_chunkWithLineEnding ending w hrw, chunkWithLineEnding,
      strLines_line hu hru]
    cases w with
    | nil => simp [chunkWithLineEnding, strLines, splitInclusive, withEndings]
    | cons c w =>
      -- the ending is written in front of the next line, which there is
      obtain ⟨line, lines, hlines⟩ : ∃ line lines, strLines (c :: w) = line :: lines := by
        apply exists_cons_of_ne_nil
        rw [strLines, ne_eq, map_eq_nil_iff, splitInclusive]
        split
        · simp
        · split <;> simp
      have hlast : (u ++ '\n' :: c :: w).getLast? = (c :: w).getLast? := by
        simp [List.getLast?_append, List.getLast?_eq_some_getLast (cons_ne_nil c w)]
      rw [chunkWithLineEnding, hlines, hlast]
      simp [withEndings]
  · rw [restore_of_not_mem ending hmem, chunkWithLineEnding]
    cases chunk with
    | nil => rfl
    | cons c chunk =>
      rw [strLines_of_not_mem hmem (by simp), if_neg fun hlast => hmem (List.mem_of_getLast? hlast)]
      simp [withEndings]
termination_by chunk.length
decreasing_by simp_all; omega

/-! ## The round trip -/

/-- Every line ends in a carriage return and a newline, and these are nowhere else. -/
def CrlfOnly : List Char → Prop
  | [] => True
  | '\r' :: '\n' :: text => CrlfOnly text
  | c :: text => c ≠ '\r' ∧ c ≠ '\n' ∧ CrlfOnly text

/-- The first newline, and what is before it, is in the part that is looked at. -/
def FirstInWindow (text : List Char) : Prop :=
  ∀ u w, text = u ++ '\n' :: w → '\n' ∉ u → byteLen (u ++ ['\n']) ≤ LineEnding.maxIx text

theorem normalize_cons {c : Char} (hc : c ≠ '\r') (text : List Char) : normalize (c :: text) = c :: normalize text := by
  rw [normalize]
  · rintro _ rfl
    exact absurd rfl hc
  · exact fun h => absurd h hc

theorem normalize_eq_self (h : '\r' ∉ text) : normalize text = text := by
  induction text with
  | nil => rfl
  | cons c text ih =>
    obtain ⟨hc, htext⟩ := ne_and_not_mem_of_not_mem_cons h
    rw [normalize_cons hc.symm, ih htext]

theorem restore_cons (ending : LineEnding) {c : Char} (hc : c ≠ '\n') (text : List Char) :
    restore ending (c :: text) = c :: restore ending text := by
  rw [restore, flatMap_cons, if_neg hc]
  rfl

theorem restore_normalize (h : '\r' ∉ text ∨ CrlfOnly text) :
    ∃ ending, '\r' ∉ normalize text ∧ text = restore ending (normalize text) := by
  rcases h with h | h
  · refine ⟨.unix, by rwa [normalize_eq_self h], ?_⟩
    rw [normalize_eq_self h, restore]
    conv_lhs => rw [← flatMap_singleton' text]
    refine flatMap_congr fun c _ => ?_
    by_cases hc : c = '\n'
    · rw [if_pos hc, hc]
      rfl
    · rw [if_neg hc]
  · refine ⟨.windows, ?_⟩
    induction text using CrlfOnly.induct with
    | case1 => exact ⟨not_mem_nil, rfl⟩
    | case2 text ih =>
      obtain ⟨hmem, hrestore⟩ := ih h
      rw [normalize]
      refine ⟨by simpa using hmem, ?_⟩
      conv_lhs => rw [hrestore]
      rfl
    | case3 c text hne ih =>
      rw [CrlfOnly] at h
      · obtain ⟨hr, hn, htext⟩ := h
        obtain ⟨hmem, hrestore⟩ := ih htext
        rw [normalize_cons hr, restore_cons _ hn]
        refine ⟨?_, by rw [← hrestore]⟩
        rw [mem_cons]
        exact not_or.mpr ⟨hr.symm, hmem⟩
      · exact hne

theorem maxIx_spec (text : List Char) :
    isCharBoundary text (LineEnding.maxIx text) = true ∧ LineEnding.maxIx text ≤ byteLen text := by
  obtain ⟨hboundary, -, hle⟩ := prevBoundary_spec (p := isCharBoundary text) (n := min (byteLen text) 1000) (i := 0)
    (Nat.zero_le _) (isCharBoundary_iff.mpr (.zero text))
  exact ⟨hboundary, le_trans hle (min_le_left _ _)⟩

theorem exists_window (text : List Char) :
    ∃ window rest, text = window ++ rest ∧ byteLen window = LineEnding.maxIx text ∧
      strSlice text 0 (LineEnding.maxIx text) = some window := by
  obtain ⟨window, rest, htext, hlen⟩ := isCharBoundary_iff.mp (maxIx_spec text).1
  refine ⟨window, rest, htext, hlen, ?_⟩
  have hslice := strSlice_append [] window rest
  rw [← hlen]
  conv_lhs => rw [htext]
  simpa using hslice

theorem detect_restore (default ending : LineEnding) (hr : '\r' ∉ text)
    (hwindow : FirstInWindow (restore ending text)) :
    ∃ found, LineEnding.detect default (restore ending text) = some found ∧
      restore found text = restore ending text := by
  obtain ⟨window, rest, htext, hlen, hslice⟩ := exists_window (restore ending text)
  by_cases hmem : '\n' ∈ text
  · obtain ⟨u, w, rfl, hu⟩ := eq_append_cons_of_mem hmem
    have hru : '\r' ∉ u := fun h => hr (mem_append_left _ h)
    refine ⟨ending, ?_, rfl⟩
    -- the text in front of the first newline
    obtain ⟨v, hv, hfirst, hcase⟩ : ∃ v, '\n' ∉ v ∧
        restore ending (u ++ '\n' :: w) = v ++ '\n' :: restore ending w ∧
        (ending = .unix ∧ v = u ∨ ending = .windows ∧ v = u ++ ['\r']) := by
      rw [restore_line ending hu]
      cases ending with
      | unix => exact ⟨u, hu, rfl, .inl ⟨rfl, rfl⟩⟩
      | windows => exact ⟨u ++ ['\r'], by simpa using hu, by simp [LineEnding.asStr], .inr ⟨rfl, rfl⟩⟩
    have hfind : strFind '\n' window = some (byteLen v) := by
      have hle := hwindow v _ hfirst hv
      rw [← hlen] at hle
      have hcut : (v ++ ['\n']) ++ restore ending w = window ++ rest := by
        rw [← htext, hfirst]
        simp
      obtain ⟨m, rfl, -⟩ := exists_append_of_byteLen_le hcut hle
      rw [show v ++ ['\n'] ++ m = v ++ '\n' :: m by simp, strFind_append hv]
    rw [LineEnding.detect, hslice]
    simp only [bind_eq_bind, bind_some, hfind]
    rcases eq_nil_or_concat' v with rfl | ⟨y, a, rfl⟩
    · rcases hcase with ⟨rfl, -⟩ | ⟨-, hnil⟩
      · rfl
      · simp at hnil
    · -- the character in front of it
      have hpos := byteLen_pos (show y ++ [a] ≠ [] by simp)
      obtain ⟨b, hb, hiff⟩ : ∃ b, (utf8 (y ++ [a] ++ '\n' :: restore ending w))[byteLen (y ++ [a]) - 1]? = some b ∧
          (b = 13 ↔ a = '\r') := @Chunks.last_byte '\r' (by decide) y a _
      rw [if_pos hpos, hfirst, hb, bind_some]
      rcases hcase with ⟨rfl, rfl⟩ | ⟨rfl, hv'⟩
      · have ha : a ≠ '\r' := by
          rintro rfl
          exact hru (by simp)
        rw [if_neg fun h => ha (hiff.mp h)]
      · obtain ⟨-, ha⟩ := append_inj' hv' rfl
        rw [if_pos (hiff.mpr (List.cons.inj ha).1)]
  · -- without a newline, every ending gives the same
    refine ⟨default, ?_, by rw [restore_of_not_mem _ hmem, restore_of_not_mem _ hmem]⟩
    have hnone : '\n' ∉ window := by
      rw [restore_of_not_mem ending hmem] at htext
      exact fun h => hmem (htext ▸ mem_append_left _ h)
    rw [LineEnding.detect, hslice]
    simp only [bind_eq_bind, bind_some, strFind_of_not_mem hnone]

/-- **Line endings survive.** A text that has one kind of line ending, the first of them where `detect` looks,
is what is written for its normalized text, for every way that this is cut into chunks. -/
theorem line_ending_round_trip (default : LineEnding) (text : List Char) (hsep : '\r' ∉ text ∨ CrlfOnly text)
    (hwindow : FirstInWindow text) (ts : List (List Char)) (hts : ∀ t ∈ ts, Piece t)
    (hflat : ts.flatten = normalize text) :
    ∃ ending out, LineEnding.detect default text = some ending ∧
      chunksWithLineEnding (ropeOf ts) ending = some out ∧ out.flatten = text := by
  obtain ⟨ending, hr, htext⟩ := restore_normalize hsep
  rw [htext] at hwindow
  obtain ⟨found, hdetect, hfound⟩ := detect_restore default ending hr hwindow
  rw [← htext] at hdetect hfound
  obtain ⟨us, hus, hus'⟩ := chunkTexts_spec hts
  refine ⟨found, us.flatMap (chunkWithLineEnding found), hdetect, by rw [chunksWithLineEnding, hus]; rfl, ?_⟩
  have hchunk : ∀ u ∈ us, (chunkWithLineEnding found u).flatten = restore found u := by
    intro u hu
    refine flatten_chunkWithLineEnding found u fun hmem => hr ?_
    rw [← hflat, ← hus']
    exact List.mem_flatten.mpr ⟨u, hu, hmem⟩
  rw [← hfound, ← hflat, ← hus', restore_flatten, List.flatMap, flatten_flatten, List.map_map]
  exact congrArg List.flatten (map_congr_left hchunk)

/-- A newline in front, two at a time, and a chunk that begins with one. -/
theorem line_ending_round_trip_crlf :
    ∃ ending out, LineEnding.detect .unix ['a', '\r', '\n', '\r', '\n', 'b', '\r', '\n'] = some ending ∧
      chunksWithLineEnding (ropeOf [['a', '\n'], ['\n', 'b'], ['\n']]) ending = some out ∧
      out.flatten = ['a', '\r', '\n', '\r', '\n', 'b', '\r', '\n'] := by
  have hpieces : ∀ t ∈ [['a', '\n'], ['\n', 'b'], ['\n']], t ≠ [] ∧ byteLen t ≤ MAX_BASE := by decide
  refine line_ending_round_trip .unix ['a', '\r', '\n', '\r', '\n', 'b', '\r', '\n'] (.inr ?_) ?_ _
    (fun t ht => ⟨(hpieces t ht).1, (hpieces t ht).2⟩) (by decide)
  · simp [CrlfOnly]
  · intro u w h hu
    have hall : LineEnding.maxIx ['a', '\r', '\n', '\r', '\n', 'b', '\r', '\n'] = 8 := by decide +kernel
    have hlen : byteLen ['a', '\r', '\n', '\r', '\n', 'b', '\r', '\n'] = 8 := by decide
    rw [hall, ← hlen, h, show u ++ '\n' :: w = (u ++ ['\n']) ++ w by simp, byteLen_append (u ++ ['\n'])]
    omega

end SpkEditor.Chunked
