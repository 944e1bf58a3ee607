import SpkEditor.Rope.Chunk
import SpkEditor.Rope.TextSummary

/-!
# The summary of a chunk

`ChunkSlice::text_summary`: every field of the summary is read off the bitmaps, by counting bits, by the
zeros in front of the last newline and behind the first, and for the longest row by a loop that shifts a
row away at a time. For the chunk of a text that is the summary of the text (`textSummary_chunkOf`).
-/

namespace SpkEditor.Chunked

open Bits List

variable {text u w : List Char} {f : Char → List Bool}

/-- `saturating_shl_mask`. -/
def saturatingShlMask (offset : Nat) : Bitmap := lowMask 128 offset

/-- `saturating_shr_mask`. -/
def saturatingShrMask (offset : Nat) : Bitmap := ~~~(BitVec.allOnes 128 >>> offset)

namespace ChunkSlice

/-- `len_utf16`. -/
def lenUtf16 (c : ChunkSlice) : Nat := countOnes c.charsUtf16

/-- `lines`. -/
def lines (c : ChunkSlice) : Point :=
  ⟨countOnes c.newlines, leadingZeros c.newlines - (128 - c.len)⟩

/-- `first_line_chars`. -/
def firstLineChars (c : ChunkSlice) : Nat :=
  countOnes (c.chars &&& saturatingShlMask (trailingZeros c.newlines))

/-- `last_line_chars`. -/
def lastLineChars (c : ChunkSlice) : Nat :=
  countOnes (c.chars &&& saturatingShrMask (leadingZeros c.newlines))

/-- `last_line_len_utf16`. -/
def lastLineLenUtf16 (c : ChunkSlice) : Nat :=
  countOnes (c.charsUtf16 &&& saturatingShrMask (leadingZeros c.newlines))

/-- The variables of the loop of `longest_row`. -/
structure RowLoop where
  chars : Bitmap
  newlines : Bitmap
  totalChars : Nat
  row : Nat
  longestRow : Nat
  longestRowChars : Nat

def RowLoop.round (l : RowLoop) : RowLoop :=
  let newlineIx := trailingZeros l.newlines
  let rowChars := countOnes (l.chars &&& lowMask 128 newlineIx)
  { chars := l.chars >>> newlineIx >>> 1
    newlines := l.newlines >>> newlineIx >>> 1
    totalChars := l.totalChars + rowChars + 1
    row := l.row + 1
    longestRow := if l.longestRowChars < rowChars then l.row else l.longestRow
    longestRowChars := if l.longestRowChars < rowChars then rowChars else l.longestRowChars }

/-- The loop, as long as there is a newline. It stops in time if there are no more newlines than rounds. -/
def RowLoop.run : Nat → RowLoop → Option RowLoop
  | 0, l => if l.newlines = 0#128 then some l else none
  | rounds + 1, l => if l.newlines = 0#128 then some l else RowLoop.run rounds l.round

/-- `longest_row`, with the number of characters. -/
def longestRow (c : ChunkSlice) : Option ((Nat × Nat) × Nat) :=
  (RowLoop.run 128 ⟨c.chars, c.newlines, 0, 0, 0, 0⟩).map fun l =>
    let rowChars := countOnes l.chars
    let longest :=
      if l.longestRowChars < rowChars then (l.row, rowChars) else (l.longestRow, l.longestRowChars)
    (longest, l.totalChars + rowChars)

/-- `text_summary`. -/
def textSummary (c : ChunkSlice) : Option TextSummary :=
  c.longestRow.map fun longest =>
    { len := c.len
      chars := longest.2
      lenUtf16 := c.lenUtf16
      lines := c.lines
      firstLineChars := c.firstLineChars
      lastLineChars := c.lastLineChars
      lastLineLenUtf16 := c.lastLineLenUtf16
      longestRow := longest.1.1
      longestRowChars := longest.1.2 }

end ChunkSlice

/-! ## Counting characters and units -/

def unitsOf (text : List Char) : Nat := (text.map SpkEditor.lenUtf16).sum

theorem count_leading (b : Bool) (c : Char) : (leading b c).count true = if b then 1 else 0 := by
  rw [leading, count_cons, count_replicate]
  cases b <;> simp

theorem count_charBits (text : List Char) : (charBits text).count true = text.length := by
  induction text with
  | nil => rfl
  | cons c text ih =>
    have hcons : charBits (c :: text) = leading true c ++ charBits text := rfl
    rw [hcons, count_append, count_leading, ih, length_cons, if_pos rfl, add_comm]

theorem val_lt_iff {c : Char} : c.val < 0x10000 ↔ c.utf8Size ≠ 4 := by
  rw [Ne, utf8Size_eq_four, Decidable.not_not, UInt32.lt_iff_toNat_lt]
  exact Nat.lt_succ_iff

theorem count_unitBits (text : List Char) : (unitBits text).count true = unitsOf text := by
  induction text with
  | nil => rfl
  | cons c text ih =>
    have hcons : unitBits (c :: text) = utf16Bits c ++ unitBits text := rfl
    have hc : (utf16Bits c).count true = SpkEditor.lenUtf16 c := by
      rw [utf16Bits, SpkEditor.lenUtf16]
      by_cases hwide : c.utf8Size = 4
      · rw [if_pos hwide, if_neg (fun h => val_lt_iff.mp h hwide)]
        rfl
      · rw [if_neg hwide, if_pos (val_lt_iff.mpr hwide), count_leading]
        rfl
    rw [hcons, count_append, hc, ih, unitsOf, unitsOf, map_cons, sum_cons]

theorem countOnes_charBits (h : byteLen text ≤ MAX_BASE) :
    countOnes (ofBits 128 (charBits text)) = text.length := by
  rw [countOnes_ofBits (by rw [length_charBits]; exact h), count_charBits]

theorem countOnes_unitBits (h : byteLen text ≤ MAX_BASE) :
    countOnes (ofBits 128 (unitBits text)) = unitsOf text := by
  rw [countOnes_ofBits (by rw [length_unitBits]; exact h), count_unitBits]

/-! ## Newlines -/

theorem markBits_of_not_mem {a : Char} (h : a ∉ text) :
    markBits a text = List.replicate (byteLen text) false := by
  induction text with
  | nil => rfl
  | cons c text ih =>
    have hc : ¬ c = a := fun hc => h (hc ▸ mem_cons_self)
    have hcons : markBits a (c :: text) = leading (decide (c = a)) c ++ markBits a text := rfl
    have hleading : leading false c = List.replicate c.utf8Size false := by
      rw [leading, ← replicate_succ, Nat.sub_add_cancel c.utf8Size_pos]
    rw [hcons, ih fun hmem => h (mem_cons_of_mem c hmem), decide_eq_false hc, hleading, byteLen_cons,
      replicate_add]

theorem count_markBits (a : Char) (text : List Char) : (markBits a text).count true = text.count a := by
  induction text with
  | nil => rfl
  | cons c text ih =>
    have hcons : markBits a (c :: text) = leading (decide (c = a)) c ++ markBits a text := rfl
    rw [hcons, count_append, count_leading, ih, count_cons]
    by_cases hc : c = a
    · simp [hc, add_comm]
    · simp [hc]

theorem markBits_newline (u w : List Char) :
    markBits '\n' (u ++ '\n' :: w) = markBits '\n' u ++ true :: markBits '\n' w := by
  have hcons : markBits '\n' ('\n' :: w) = true :: markBits '\n' w := rfl
  rw [markBits_append, hcons]

theorem byteLen_newline (u w : List Char) : byteLen (u ++ '\n' :: w) = byteLen u + 1 + byteLen w := by
  have hsize : ('\n' : Char).utf8Size = 1 := rfl
  rw [byteLen_append, byteLen_cons, hsize, add_assoc]

theorem newline_first (text : List Char) :
    '\n' ∉ text ∨ ∃ u w, text = u ++ '\n' :: w ∧ '\n' ∉ u := by
  by_cases h : '\n' ∈ text
  · obtain ⟨u, w, heq, hu⟩ := eq_append_cons_of_mem h
    exact .inr ⟨u, w, heq, hu⟩
  · exact .inl h

theorem newline_last (text : List Char) :
    '\n' ∉ text ∨ ∃ u w, text = u ++ '\n' :: w ∧ '\n' ∉ w := by
  rcases newline_first text.reverse with h | ⟨u, w, heq, hu⟩
  · exact .inl fun hmem => h (List.mem_reverse.mpr hmem)
  · refine .inr ⟨w.reverse, u.reverse, ?_, fun hmem => hu (List.mem_reverse.mp hmem)⟩
    have := congrArg List.reverse heq
    simpa using this

/-! ## Masks -/

theorem ofBits_and_shrMask (l : List Bool) {n : Nat} (hn : n ≤ 128) :
    ofBits 128 l &&& saturatingShrMask (128 - n) = ofBits 128 (List.replicate n false ++ l.drop n) := by
  apply BitVec.eq_of_getLsbD_eq
  intro i hi
  rw [saturatingShrMask, BitVec.getLsbD_and, BitVec.getLsbD_not, BitVec.getLsbD_ushiftRight,
    BitVec.getLsbD_allOnes, getLsbD_ofBits, getLsbD_ofBits]
  by_cases hin : i < n
  · rw [getElem?_append_left (by simpa using hin), getElem?_replicate]
    have : 128 - n + i < 128 := by omega
    simp [hin, this]
  · rw [getElem?_append_right (by simpa using hin), length_replicate, getElem?_drop]
    have h₁ : ¬ 128 - n + i < 128 := by omega
    have h₂ : n + (i - n) = i := by omega
    simp [hi, h₁, h₂]

theorem countOnes_and_shrMask {l : List Bool} (hl : l.length ≤ 128) {n : Nat} (hn : n ≤ 128) :
    countOnes (ofBits 128 l &&& saturatingShrMask (128 - n)) = (l.drop n).count true := by
  rw [ofBits_and_shrMask l hn, countOnes_ofBits, count_append, count_replicate]
  · simp
  · rw [length_append, length_replicate, length_drop]
    omega

theorem countOnes_and_shlMask {l : List Bool} (hl : l.length ≤ 128) (n : Nat) :
    countOnes (ofBits 128 l &&& lowMask 128 n) = (l.take n).count true := by
  rw [ofBits_and_lowMask, countOnes_ofBits]
  rw [length_take]
  omega

/-! ## The fields of the summary of a text -/

section

open TextSummary

theorem chars_ofText (text : List Char) : (ofText text).chars = text.length := by
  induction text using List.reverseRecOn with
  | nil => rfl
  | append_singleton text c ih =>
    rw [ofText_append_singleton, length_append, ← ih]
    rfl

theorem lenUtf16_ofText (text : List Char) : (ofText text).lenUtf16 = unitsOf text := by
  induction text using List.reverseRecOn with
  | nil => rfl
  | append_singleton text c ih =>
    rw [ofText_append_singleton, unitsOf, map_append, List.sum_append, map_singleton,
      List.sum_singleton, ← unitsOf, ← ih]
    rfl

theorem row_ofText (text : List Char) : (ofText text).lines.row = text.count '\n' := by
  induction text using List.reverseRecOn with
  | nil => rfl
  | append_singleton text c ih =>
    rw [ofText_append_singleton, count_append, ← ih]
    by_cases hc : c = '\n'
    · simp [push, hc, Point.add]
    · simp [push, hc]

theorem ofText_of_not_mem (h : '\n' ∉ text) :
    ofText text = ⟨byteLen text, text.length, unitsOf text, ⟨0, byteLen text⟩, text.length, text.length,
      unitsOf text, 0, text.length⟩ := by
  induction text using List.reverseRecOn with
  | nil => rfl
  | append_singleton text c ih =>
    have hc : c ≠ '\n' := fun hc => h (by simp [hc])
    rw [ofText_append_singleton, ih fun hmem => h (mem_append_left _ hmem)]
    have hlen : byteLen (text ++ [c]) = byteLen text + c.utf8Size := by rw [byteLen_append]; rfl
    have hunits : unitsOf (text ++ [c]) = unitsOf text + SpkEditor.lenUtf16 c := by simp [unitsOf]
    rw [hlen, hunits]
    simp [push, hc, longer]

theorem firstLineChars_ofText (hu : '\n' ∉ u) (w : List Char) :
    (ofText (u ++ '\n' :: w)).firstLineChars = u.length := by
  have hrest : (ofText ('\n' :: w)).firstLineChars = 0 := by
    rw [show '\n' :: w = ['\n'] ++ w from rfl, ofText_append]
    rfl
  rw [ofText_append, ofText_of_not_mem hu, TextSummary.add]
  simp [hrest]

theorem lastLine_ofText (u : List Char) (hw : '\n' ∉ w) :
    (ofText (u ++ '\n' :: w)).lines.column = byteLen w ∧
      (ofText (u ++ '\n' :: w)).lastLineChars = w.length ∧
      (ofText (u ++ '\n' :: w)).lastLineLenUtf16 = unitsOf w := by
  have hcut : u ++ '\n' :: w = u ++ ['\n'] ++ w := by simp
  rw [hcut, ofText_append, ofText_of_not_mem hw, ofText_append_singleton]
  simp [TextSummary.add, push, Point.add]

theorem longest_ofText {before : List Char} (hlast : (ofText before).lastLineChars = 0) (hu : '\n' ∉ u) :
    ((ofText (before ++ u)).longestRow, (ofText (before ++ u)).longestRowChars) =
      longer ((ofText before).longestRow, (ofText before).longestRowChars)
        ((ofText before).lines.row, u.length) := by
  rw [ofText_append, ofText_of_not_mem hu, TextSummary.add]
  simp only [hlast, Nat.zero_add, Nat.add_zero]
  rw [longer_assoc, longer_of_le (Nat.le_refl _)]

theorem longest_push_newline (text : List Char) :
    ((ofText (text ++ ['\n'])).longestRow, (ofText (text ++ ['\n'])).longestRowChars) =
      ((ofText text).longestRow, (ofText text).longestRowChars) := by
  rw [ofText_append_singleton]
  simp [push, longer]

end

/-! ## The bitmaps of a text without, before and behind newlines -/

section

variable {text : List Char}

theorem newlines_of_not_mem (h : '\n' ∉ text) : ofBits 128 (markBits '\n' text) = 0#128 := by
  rw [markBits_of_not_mem h, ofBits_replicate_false]

theorem trailingZeros_newlines (hu : '\n' ∉ u) (h : byteLen (u ++ '\n' :: w) ≤ MAX_BASE) :
    trailingZeros (ofBits 128 (markBits '\n' (u ++ '\n' :: w))) = byteLen u := by
  rw [byteLen_newline] at h
  rw [markBits_newline, markBits_of_not_mem hu, trailingZeros_ofBits]
  have : MAX_BASE = 128 := rfl
  omega

theorem leadingZeros_newlines (hw : '\n' ∉ w) (h : byteLen (u ++ '\n' :: w) ≤ MAX_BASE) :
    leadingZeros (ofBits 128 (markBits '\n' (u ++ '\n' :: w))) = 128 - (byteLen u + 1) := by
  rw [byteLen_newline] at h
  rw [markBits_newline, markBits_of_not_mem hw, leadingZeros_ofBits, length_markBits]
  have : MAX_BASE = 128 := rfl
  rw [length_markBits]
  omega

theorem drop_bits (hf : ∀ c, (f c).length = c.utf8Size) (u w : List Char) :
    ((u ++ '\n' :: w).flatMap f).drop (byteLen u + 1) = w.flatMap f := by
  have hlen : (u.flatMap f).length = byteLen u := by
    simp [length_flatMap, byteLen, hf]
  have hnewline : (f '\n').length = 1 := hf '\n'
  have hlen' : ((u ++ ['\n']).flatMap f).length = byteLen u + 1 := by
    rw [flatMap_append, length_append, hlen, flatMap_singleton, hnewline]
  rw [show u ++ '\n' :: w = u ++ ['\n'] ++ w by simp, flatMap_append, ← hlen', drop_left]

section

variable (h : byteLen text ≤ MAX_BASE)
include h

theorem lines_chunkOf : ChunkSlice.lines (chunkOf text) = (TextSummary.ofText text).lines := by
  have hmax : MAX_BASE = 128 := rfl
  have hrow : countOnes (ofBits 128 (markBits '\n' text)) = (TextSummary.ofText text).lines.row := by
    rw [countOnes_ofBits (by rw [length_markBits]; exact h), count_markBits, row_ofText]
  change Point.mk (countOnes (ofBits 128 (markBits '\n' text)))
    (leadingZeros (ofBits 128 (markBits '\n' text)) - (128 - byteLen text)) = _
  rw [hrow]
  suffices leadingZeros (ofBits 128 (markBits '\n' text)) - (128 - byteLen text) =
      (TextSummary.ofText text).lines.column by rw [this]
  rcases newline_last text with hnone | ⟨u, w, rfl, hw⟩
  · rw [newlines_of_not_mem hnone, leadingZeros_zero, ofText_of_not_mem hnone]
    simp only
    omega
  · rw [leadingZeros_newlines hw h, (lastLine_ofText u hw).1]
    rw [byteLen_newline] at h ⊢
    omega

theorem firstLineChars_chunkOf :
    ChunkSlice.firstLineChars (chunkOf text) = (TextSummary.ofText text).firstLineChars := by
  have hlen : (charBits text).length ≤ 128 := by rw [length_charBits]; exact h
  change countOnes (ofBits 128 (charBits text) &&&
    saturatingShlMask (trailingZeros (ofBits 128 (markBits '\n' text)))) = _
  rw [saturatingShlMask, countOnes_and_shlMask hlen]
  rcases newline_first text with hnone | ⟨u, w, rfl, hu⟩
  · rw [newlines_of_not_mem hnone, trailingZeros_zero, take_of_length_le hlen, count_charBits,
      ofText_of_not_mem hnone]
  · rw [trailingZeros_newlines hu h, firstLineChars_ofText hu, charBits_append, ← length_charBits u,
      take_left, count_charBits]

theorem countOnes_lastLine (hf : ∀ c, (f c).length = c.utf8Size) {m : Nat} (hnone : '\n' ∉ text → (text.flatMap f).count true = m)
    (hlast : ∀ u w, text = u ++ '\n' :: w → '\n' ∉ w → (w.flatMap f).count true = m) :
    countOnes (ofBits 128 (text.flatMap f) &&&
      saturatingShrMask (leadingZeros (ofBits 128 (markBits '\n' text)))) = m := by
  have hlen : (text.flatMap f).length ≤ 128 := by
    have heq : (text.flatMap f).length = byteLen text := by simp [length_flatMap, byteLen, hf]
    rw [heq]
    exact h
  rcases newline_last text with hmem | ⟨u, w, rfl, hw⟩
  · have hmask := countOnes_and_shrMask hlen (Nat.zero_le 128)
    rw [newlines_of_not_mem hmem, leadingZeros_zero]
    exact hmask.trans (hnone hmem)
  · have hle : byteLen u + 1 ≤ 128 := by
      rw [byteLen_newline] at h
      have : MAX_BASE = 128 := rfl
      omega
    rw [leadingZeros_newlines hw h, countOnes_and_shrMask hlen hle, drop_bits hf]
    exact hlast u w rfl hw

theorem lastLineChars_chunkOf :
    ChunkSlice.lastLineChars (chunkOf text) = (TextSummary.ofText text).lastLineChars := by
  refine countOnes_lastLine h (length_leading true) (fun hnone => ?_) fun u w htext hw => ?_
  · rw [ofText_of_not_mem hnone]
    exact count_charBits text
  · rw [htext, (lastLine_ofText u hw).2.1]
    exact count_charBits w

theorem lastLineLenUtf16_chunkOf :
    ChunkSlice.lastLineLenUtf16 (chunkOf text) = (TextSummary.ofText text).lastLineLenUtf16 := by
  refine countOnes_lastLine h length_utf16Bits (fun hnone => ?_) fun u w htext hw => ?_
  · rw [ofText_of_not_mem hnone]
    exact count_unitBits text
  · rw [htext, (lastLine_ofText u hw).2.2]
    exact count_unitBits w

end

/-! ## The loop over the rows -/

/-- What the loop has when it is behind the rows of `before`: the bitmaps of the rest, and what is known of
the rows. -/
def rowLoopAt (before rest : List Char) : ChunkSlice.RowLoop :=
  ⟨ofBits 128 (charBits rest), ofBits 128 (markBits '\n' rest), before.length,
    (TextSummary.ofText before).lines.row, (TextSummary.ofText before).longestRow,
    (TextSummary.ofText before).longestRowChars⟩

theorem ushiftRight_bits (hf : ∀ c, (f c).length = c.utf8Size)
    (h : byteLen (u ++ '\n' :: w) ≤ MAX_BASE) :
    ofBits 128 ((u ++ '\n' :: w).flatMap f) >>> byteLen u >>> 1 = ofBits 128 (w.flatMap f) := by
  have hlen : ((u ++ '\n' :: w).flatMap f).length ≤ 128 := by
    have heq : ((u ++ '\n' :: w).flatMap f).length = byteLen (u ++ '\n' :: w) := by
      simp [length_flatMap, byteLen, hf]
    rw [heq]
    exact h
  rw [← BitVec.shiftRight_add, ofBits_ushiftRight hlen, drop_bits hf]

theorem round_rowLoopAt {before : List Char} (hlast : (TextSummary.ofText before).lastLineChars = 0)
    (hu : '\n' ∉ u) (h : byteLen (u ++ '\n' :: w) ≤ MAX_BASE) :
    (rowLoopAt before (u ++ '\n' :: w)).round = rowLoopAt (before ++ u ++ ['\n']) w := by
  have hlen : (charBits (u ++ '\n' :: w)).length ≤ 128 := by rw [length_charBits]; exact h
  have hchars : countOnes (ofBits 128 (charBits (u ++ '\n' :: w)) &&& lowMask 128 (byteLen u)) = u.length := by
    rw [countOnes_and_shlMask hlen, charBits_append, ← length_charBits u, take_left, count_charBits]
  have hbits := ushiftRight_bits (length_leading true) h
  have hmarks := ushiftRight_bits (fun c => length_leading (decide (c = '\n')) c) h
  have hrow : (TextSummary.ofText (before ++ u ++ ['\n'])).lines.row =
      (TextSummary.ofText before).lines.row + 1 := by
    rw [row_ofText, row_ofText, count_append, count_append, List.count_eq_zero.mpr hu]
    rfl
  have hlongest := (longest_push_newline (before ++ u)).trans (longest_ofText hlast hu)
  have hlongest₁ := congrArg Prod.fst hlongest
  have hlongest₂ := congrArg Prod.snd hlongest
  simp only at hlongest₁ hlongest₂
  have htotal : (before ++ u ++ ['\n']).length = before.length + u.length + 1 := by
    rw [length_append, length_append]
    rfl
  rw [rowLoopAt, rowLoopAt, ChunkSlice.RowLoop.round]
  rw [trailingZeros_newlines hu h, hchars, hrow, hlongest₁, hlongest₂, htotal]
  rw [show ofBits 128 (charBits (u ++ '\n' :: w)) >>> byteLen u >>> 1 = ofBits 128 (charBits w) from hbits,
    show ofBits 128 (markBits '\n' (u ++ '\n' :: w)) >>> byteLen u >>> 1 = ofBits 128 (markBits '\n' w) from
      hmarks]
  unfold TextSummary.longer
  split <;> rfl

theorem run_rowLoopAt (rounds : Nat) {before rest : List Char}
    (hlast : (TextSummary.ofText before).lastLineChars = 0) (h : byteLen rest ≤ MAX_BASE)
    (hrounds : rest.count '\n' ≤ rounds) :
    ∃ passed row, before ++ rest = passed ++ row ∧ '\n' ∉ row ∧
      (TextSummary.ofText passed).lastLineChars = 0 ∧ byteLen row ≤ MAX_BASE ∧
      ChunkSlice.RowLoop.run rounds (rowLoopAt before rest) = some (rowLoopAt passed row) := by
  induction rounds generalizing before rest with
  | zero =>
    have hnone : '\n' ∉ rest := List.count_eq_zero.mp (Nat.le_zero.mp hrounds)
    exact ⟨before, rest, rfl, hnone, hlast, h, if_pos (newlines_of_not_mem hnone)⟩
  | succ rounds ih =>
    rcases newline_first rest with hnone | ⟨u, w, rfl, hu⟩
    · exact ⟨before, rest, rfl, hnone, hlast, h, if_pos (newlines_of_not_mem hnone)⟩
    · have hne : ¬ ofBits 128 (markBits '\n' (u ++ '\n' :: w)) = 0#128 := by
        intro hzero
        have hix := trailingZeros_newlines hu h
        rw [hzero, trailingZeros_zero] at hix
        rw [byteLen_newline] at h
        have : MAX_BASE = 128 := rfl
        omega
      have hlast' : (TextSummary.ofText (before ++ u ++ ['\n'])).lastLineChars = 0 := by
        rw [TextSummary.ofText_append_singleton]
        rfl
      have hw : byteLen w ≤ MAX_BASE := by
        rw [byteLen_newline] at h
        omega
      have hcount : w.count '\n' ≤ rounds := by
        rw [count_append, count_cons_self] at hrounds
        omega
      obtain ⟨passed, row, heq, hrow, hpassed, hfits, hrun⟩ := ih hlast' hw hcount
      refine ⟨passed, row, by simpa using heq, hrow, hpassed, hfits, ?_⟩
      have hstep : ChunkSlice.RowLoop.run (rounds + 1) (rowLoopAt before (u ++ '\n' :: w)) =
          ChunkSlice.RowLoop.run rounds (rowLoopAt before (u ++ '\n' :: w)).round := if_neg hne
      rw [hstep, round_rowLoopAt hlast hu h]
      exact hrun

theorem longestRow_chunkOf (h : byteLen text ≤ MAX_BASE) :
    ChunkSlice.longestRow (chunkOf text) =
      some (((TextSummary.ofText text).longestRow, (TextSummary.ofText text).longestRowChars), text.length) := by
  have hcount : text.count '\n' ≤ 128 := by
    refine le_trans count_le_length (le_trans ?_ h)
    induction text with
    | nil => exact Nat.zero_le _
    | cons c text ih =>
      have := c.utf8Size_pos
      rw [byteLen_cons] at h ⊢
      have := ih (by omega)
      rw [length_cons]
      omega
  obtain ⟨passed, row, heq, hrow, hpassed, hfits, hrun⟩ :=
    @run_rowLoopAt 128 [] text rfl h hcount
  subst heq
  have hstart : ChunkSlice.longestRow (chunkOf (passed ++ row)) =
      (ChunkSlice.RowLoop.run 128 (rowLoopAt [] (passed ++ row))).map fun l =>
        let rowChars := countOnes l.chars
        let longest :=
          if l.longestRowChars < rowChars then (l.row, rowChars) else (l.longestRow, l.longestRowChars)
        (longest, l.totalChars + rowChars) := rfl
  rw [hstart, hrun, Option.map_some, longest_ofText hpassed hrow]
  simp only [rowLoopAt, countOnes_charBits hfits]
  rw [length_append]
  rfl

/-- **The summary of a chunk is the summary of its text.** -/
theorem textSummary_chunkOf (h : byteLen text ≤ MAX_BASE) :
    ChunkSlice.textSummary (chunkOf text) = some (TextSummary.ofText text) := by
  rw [ChunkSlice.textSummary, longestRow_chunkOf h, Option.map_some, lines_chunkOf h, firstLineChars_chunkOf h,
    lastLineChars_chunkOf h, lastLineLenUtf16_chunkOf h, chunkOf_len, ← chars_ofText]
  have hunits : ChunkSlice.lenUtf16 (chunkOf text) = (TextSummary.ofText text).lenUtf16 := by
    rw [lenUtf16_ofText]
    exact countOnes_unitBits h
  rw [hunits, ← TextSummary.len_ofText]

end

end SpkEditor.Chunked
