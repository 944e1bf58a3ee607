import SpkEditor.Rope.ChunkBits
import SpkEditor.Rope.Scale

/-!
# Clipping within a chunk

`clip_offset_utf16`, `clip_point` and `clip_point_utf16` of `rope/src/chunk.rs`: a position that need not be
there is taken to one that is. A row of the chunk is found by its newlines (`offset_range_for_row`), and in it
the column is moved, left or right, until it is fine: a character starts there, and for `clip_point` a grapheme
too, as far as the row in this chunk tells.

The columns of a row are clipped lawfully, in bytes (`clipColumn_laws`) and in UTF-16 units
(`clipOffsetUtf16_laws`), and so are the points of the chunk with them (`clipRows_laws`).
-/

namespace SpkEditor.Chunked

open Bits List
open Chunks (LineStart)

variable {l : List Bool}

/-- The loops over offsets and columns, to the next one that is fine. -/
def seekOffset (fine : Nat → Bool) (bias : Bias) : Nat → Nat → Option Nat
  | 0, _ => none
  | fuel + 1, offset =>
    if fine offset then some offset
    else
      match bias with
      | .left => if offset = 0 then none else seekOffset fine bias fuel (offset - 1)
      | .right => seekOffset fine bias fuel (offset + 1)

namespace ChunkSlice

/-- `offset_to_offset_utf16`. -/
def offsetToOffsetUtf16 (c : ChunkSlice) (offset : Nat) : Nat := countOnes (c.charsUtf16 &&& lowMask 128 offset)

def bytesToNext (c : ChunkSlice) (bits : Bitmap) (ix : Nat) : Option Nat :=
  if ix = MAX_BASE then some 0
  else if c.len < ix then none
  else some (min (trailingZeros (bits >>> ix)) (c.len - ix))

/-- `offset_utf16_to_offset`. -/
def offsetUtf16ToOffset (c : ChunkSlice) (target : Nat) : Option Nat :=
  if target = 0 then some 0
  else
    (nthSetBit c.charsUtf16 target).bind fun ix =>
      (c.bytesToNext c.charsUtf16 (ix + 1)).map fun additional => ix + 1 + additional

/-- `offset_range_for_row`. -/
def offsetRangeForRow (c : ChunkSlice) (row : Nat) : Option Range :=
  (if 0 < row then (nthSetBit c.newlines row).map (· + 1) else some 0).bind fun rowStart =>
    (c.bytesToNext c.newlines rowStart).map fun rowLen => ⟨rowStart, rowStart + rowLen⟩

/-- `clip_offset_utf16`. -/
def clipOffsetUtf16 (c : ChunkSlice) (target : Nat) (bias : Bias) : Option Nat :=
  if target = 0 then some 0
  else if c.lenUtf16 ≤ target then some c.lenUtf16
  else
    (c.offsetUtf16ToOffset target).bind fun offset =>
      (seekOffset (Chunked.isCharBoundary c.text) bias (MAX_BASE + 1) offset).map c.offsetToOffsetUtf16

/-- Where the loop of `clip_point` stops. `isBoundary` is `GraphemeCursor::is_boundary`, for the row's text. -/
def fineColumn (isBoundary : List Char → Nat → Bool) (line : ChunkSlice) (column : Nat) : Bool :=
  line.isCharBoundary column && isBoundary line.text column

/-- The column of `clip_point` in its row. -/
def clipColumn (isBoundary : List Char → Nat → Bool) (line : ChunkSlice) (column : Nat) (bias : Bias) :
    Option Nat :=
  if column = 0 then some 0
  else if line.len ≤ column then some line.len
  else do
    let before ← (utf8 line.text)[column - 1]?
    let after ← (utf8 line.text)[column]?
    if before < 128 && after < 128 then some column
    else seekOffset (fineColumn isBoundary line) bias (MAX_BASE + 1) column

def clipInRow (clip : ChunkSlice → Nat → Bias → Option Nat) (c : ChunkSlice) (point : Point) (bias : Bias) :
    Option Point := do
  let range ← c.offsetRangeForRow point.row
  let line ← c.slice range.start range.stop
  (clip line point.column bias).map (⟨point.row, ·⟩)

/-- `clip_point`. -/
def clipPoint (isBoundary : List Char → Nat → Bool) (c : ChunkSlice) (point : Point) (bias : Bias) :
    Option Point :=
  if c.lines.row < point.row then some c.lines else clipInRow (clipColumn isBoundary) c point bias

/-- `clip_point_utf16`. -/
def clipPointUtf16 (c : ChunkSlice) (point : Point) (bias : Bias) : Option Point :=
  if c.lines.row < point.row then some ⟨c.lines.row, c.lastLineLenUtf16⟩
  else clipInRow clipOffsetUtf16 c point bias

end ChunkSlice

/-! ## The loops -/

section

variable {fine : Nat → Bool} {n : Nat}

theorem seekOffset_fine {fuel : Nat} (bias : Bias) (h : fine n = true) :
    seekOffset fine bias (fuel + 1) n = some n := if_pos h

theorem seekOffset_left (hzero : fine 0 = true) {fuel : Nat} (hfuel : n < fuel) :
    ∃ i, seekOffset fine .left fuel n = some i ∧ fine i = true ∧ i ≤ n := by
  induction fuel generalizing n with
  | zero => omega
  | succ fuel ih =>
    by_cases h : fine n = true
    · exact ⟨n, seekOffset_fine .left h, h, le_refl n⟩
    · have hn : n ≠ 0 := fun hn => h (hn ▸ hzero)
      obtain ⟨i, hi, hfine, hle⟩ := @ih (n - 1) (by omega)
      refine ⟨i, ?_, hfine, by omega⟩
      rw [seekOffset, if_neg h]
      simp only [if_neg hn]
      exact hi

theorem seekOffset_right {stop : Nat} (hstop : fine stop = true) (hle : n ≤ stop) {fuel : Nat}
    (hfuel : stop - n < fuel) : ∃ i, seekOffset fine .right fuel n = some i ∧ fine i = true ∧ n ≤ i := by
  induction fuel generalizing n with
  | zero => omega
  | succ fuel ih =>
    by_cases h : fine n = true
    · exact ⟨n, seekOffset_fine .right h, h, le_refl n⟩
    · have hn : n ≠ stop := fun hn => h (hn ▸ hstop)
      obtain ⟨i, hi, hfine, hle'⟩ := @ih (n + 1) (by omega) (by omega)
      refine ⟨i, ?_, hfine, by omega⟩
      rw [seekOffset, if_neg h]
      exact hi

end

/-! ## Set bits -/

theorem countP_range_ofBits (hl : l.length ≤ 128) (i : Nat) :
    (List.range i).countP (ofBits 128 l).getLsbD = (l.take i).count true := by
  induction i with
  | zero => rfl
  | succ i ih =>
    rw [range_succ, countP_append, ih, take_add_one, count_append]
    have hbit := getLsbD_ofBits_fits hl i
    cases h : l[i]? with
    | none => simp [hbit, h]
    | some b => cases b <;> simp [hbit, h]

theorem getElem?_of_getD {i : Nat} (h : l[i]?.getD false = true) : l[i]? = some true := by
  cases hi : l[i]? with
  | none => simp [hi] at h
  | some b => simpa [hi] using h

/-- `nth_set_bit` of a bitmap, for the bits that it is made of. -/
theorem nthSetBit_ofBits (hl : l.length ≤ 128) {n : Nat} (hpos : 1 ≤ n) (hn : n ≤ l.count true) :
    ∃ i, nthSetBit (ofBits 128 l) n = some i ∧ l[i]? = some true ∧ (l.take i).count true + 1 = n := by
  obtain ⟨i, hi, hset, hrank⟩ := nthSetBit_spec (ofBits 128 l) hpos (by rwa [countOnes_ofBits hl])
  rw [getLsbD_ofBits_fits hl] at hset
  rw [countP_range_ofBits hl] at hrank
  exact ⟨i, hi, getElem?_of_getD hset, hrank⟩

theorem count_take_le {i j : Nat} (h : i ≤ j) : (l.take i).count true ≤ (l.take j).count true :=
  (take_prefix_take_left h).sublist.count_le true

theorem set_bit_unique {i j : Nat} (hi : l[i]? = some true) (hj : l[j]? = some true)
    (h : (l.take i).count true = (l.take j).count true) : i = j := by
  have hlt : ∀ {i j}, l[i]? = some true → i < j → (l.take i).count true < (l.take j).count true := by
    intro i j hi hij
    have hle : (l.take (i + 1)).count true ≤ (l.take j).count true := count_take_le hij
    rw [take_add_one, hi, count_append] at hle
    exact hle
  rcases Nat.lt_trichotomy i j with hij | hij | hij
  · exact absurd h (ne_of_lt (hlt hi hij))
  · exact hij
  · exact absurd h.symm (ne_of_lt (hlt hj hij))

/-- What is behind some set bits starts with zeros up to the next one. -/
theorem zeros_of_count (h : 0 < l.count true) : ∃ k r, l = List.replicate k false ++ true :: r := by
  obtain ⟨a, r, rfl, ha⟩ := eq_append_cons_of_mem (List.count_pos_iff.mp h)
  refine ⟨a.length, r, ?_⟩
  rw [← eq_replicate_of_mem fun b hb => ?_]
  cases b with
  | false => rfl
  | true => exact absurd hb ha

namespace ChunkSlice

section

variable {t : List Char} {l : List Bool} {ix : Nat}

section

variable (hl : l.length = byteLen t) (ht : byteLen t ≤ MAX_BASE)
include hl ht

theorem bytesToNext_set {k : Nat} {r : List Bool}
    (h : l.drop ix = List.replicate k false ++ true :: r) :
    bytesToNext (chunkOf t) (ofBits 128 l) ix = some k := by
  have hlen := congrArg List.length h
  rw [length_drop, length_append, length_replicate, length_cons, hl] at hlen
  have hmax : MAX_BASE = 128 := rfl
  rw [bytesToNext, if_neg (by omega), chunkOf_len, if_neg (by omega), ofBits_ushiftRight (by omega), h,
    trailingZeros_ofBits (by omega)]
  exact congrArg some (by omega)

theorem bytesToNext_none (hix : ix ≤ byteLen t)
    (h : l.drop ix = List.replicate (byteLen t - ix) false) :
    bytesToNext (chunkOf t) (ofBits 128 l) ix = some (byteLen t - ix) := by
  have hmax : MAX_BASE = 128 := rfl
  rw [bytesToNext]
  split
  · next hfull => exact congrArg some (by omega)
  · rw [chunkOf_len, if_neg (by omega), ofBits_ushiftRight (by omega), h, ofBits_replicate_false,
      trailingZeros_zero]
    exact congrArg some (by omega)

end

end

/-! ## UTF-16 units -/

section

variable {t x z : List Char}

theorem unitsOf_append (x z : List Char) : unitsOf (x ++ z) = unitsOf x + unitsOf z := by
  rw [unitsOf, map_append, List.sum_append]
  rfl

theorem count_units (x z : List Char) : ((unitBits (x ++ z)).take (byteLen x)).count true = unitsOf x := by
  rw [unitBits_append, ← length_unitBits x, take_left, count_unitBits]

theorem unit_set (x : List Char) {z : List Char} (hz : z ≠ []) : (unitBits (x ++ z))[byteLen x]? = some true := by
  obtain ⟨c, z, rfl⟩ := exists_cons_of_ne_nil hz
  exact getElem?_of_getD ((unitBits_getElem? _ _).mpr (.inl ⟨c, x, z, rfl, rfl⟩))

theorem offsetToOffsetUtf16_chunkOf (ht : byteLen (x ++ z) ≤ MAX_BASE) :
    offsetToOffsetUtf16 (chunkOf (x ++ z)) (byteLen x) = unitsOf x := by
  have hlen : (unitBits (x ++ z)).length ≤ 128 := by rwa [length_unitBits]
  exact (countOnes_and_shlMask hlen (byteLen x)).trans (count_units x z)

theorem offsetUtf16ToOffset_spec (ht : byteLen t ≤ MAX_BASE) {n : Nat} (hn : n < unitsOf t) :
    ∃ j, offsetUtf16ToOffset (chunkOf t) n = some j ∧ (unitBits t)[j]? = some true ∧
      ((unitBits t).take j).count true = n := by
  have hlen : (unitBits t).length ≤ 128 := by rwa [length_unitBits]
  rw [← count_unitBits] at hn
  by_cases hzero : n = 0
  · refine ⟨0, if_pos hzero, unit_set [] (z := t) ?_, hzero.symm⟩
    rintro rfl
    exact Nat.not_lt_zero n hn
  · obtain ⟨i, hi, hset, hrank⟩ := nthSetBit_ofBits hlen (Nat.pos_of_ne_zero hzero) (Nat.le_of_lt hn)
    -- one unit more is in front of the next bit
    have hsplit : ((unitBits t).take (i + 1)).count true = n := by
      rw [take_add_one, hset, count_append]
      exact hrank
    have hrest : 0 < ((unitBits t).drop (i + 1)).count true := by
      have htotal := congrArg (List.count true) (take_append_drop (i + 1) (unitBits t))
      rw [count_append] at htotal
      omega
    obtain ⟨k, r, hr⟩ := zeros_of_count hrest
    have hnext := bytesToNext_set (length_unitBits t) ht hr
    have hj : (unitBits t)[i + 1 + k]? = some true := by
      rw [← getElem?_drop, hr, getElem?_append_right (by simp), length_replicate, Nat.sub_self]
      rfl
    refine ⟨i + 1 + k, ?_, hj, ?_⟩
    · rw [offsetUtf16ToOffset, if_neg hzero]
      refine Option.bind_eq_some_iff.mpr ⟨i, hi, ?_⟩
      exact Option.map_eq_some_iff.mpr ⟨k, hnext, rfl⟩
    · rw [take_add, count_append, hsplit, hr, take_left' (by simp), count_replicate]
      rfl

theorem clipOffsetUtf16_keeps (ht : byteLen (x ++ z) ≤ MAX_BASE) (bias : Bias) :
    clipOffsetUtf16 (chunkOf (x ++ z)) (unitsOf x) bias = some (unitsOf x) := by
  have hunits : ChunkSlice.lenUtf16 (chunkOf (x ++ z)) = unitsOf (x ++ z) := countOnes_unitBits ht
  have happend := unitsOf_append x z
  rw [clipOffsetUtf16]
  split
  · next hzero => rw [hzero]
  · split
    · next hle => exact congrArg some (by omega)
    · next hlt =>
      have hz : z ≠ [] := by
        rintro rfl
        exact hlt (le_of_eq (hunits.trans happend))
      obtain ⟨j, hj, hset, hcount⟩ := offsetUtf16ToOffset_spec ht (show unitsOf x < unitsOf (x ++ z) by omega)
      obtain rfl : byteLen x = j := set_bit_unique (unit_set x hz) hset ((count_units x z).trans hcount.symm)
      refine Option.bind_eq_some_iff.mpr ⟨_, hj, ?_⟩
      refine Option.map_eq_some_iff.mpr ⟨_, seekOffset_fine bias (isCharBoundary_iff.mpr ⟨x, z, rfl, rfl⟩), ?_⟩
      exact offsetToOffsetUtf16_chunkOf ht

open Scale

theorem settled_units (ht : byteLen (x ++ z) ≤ MAX_BASE) :
    (offsets .offsetUtf16).Settled (x ++ z) (clipOffsetUtf16 (chunkOf (x ++ z))) (unitsOf x) :=
  ⟨⟨x, z, rfl, pos_offsetUtf16 x⟩, clipOffsetUtf16_keeps ht⟩

/-- A target within the text goes to a character on the side of the bias. -/
theorem clipOffsetUtf16_inside (ht : byteLen t ≤ MAX_BASE) {n : Nat} (hzero : n ≠ 0) (hn : n < unitsOf t) :
    ∃ x z x' z', t = x ++ z ∧ t = x' ++ z' ∧ clipOffsetUtf16 (chunkOf t) n .left = some (unitsOf x) ∧
      clipOffsetUtf16 (chunkOf t) n .right = some (unitsOf x') ∧ unitsOf x ≤ n ∧ n ≤ unitsOf x' := by
  obtain ⟨j, hj, hset, hcount⟩ := offsetUtf16ToOffset_spec ht hn
  have hclip : ∀ {bias i}, seekOffset (Chunked.isCharBoundary t) bias (MAX_BASE + 1) j = some i →
      clipOffsetUtf16 (chunkOf t) n bias = some (offsetToOffsetUtf16 (chunkOf t) i) := by
    intro bias i hi
    have hlt : ¬ ChunkSlice.lenUtf16 (chunkOf t) ≤ n := by
      rw [ChunkSlice.lenUtf16, show countOnes (chunkOf t).charsUtf16 = _ from countOnes_unitBits ht]
      omega
    rw [clipOffsetUtf16, if_neg hzero, if_neg hlt]
    refine Option.bind_eq_some_iff.mpr ⟨j, hj, ?_⟩
    exact Option.map_eq_some_iff.mpr ⟨i, hi, rfl⟩
  have hjlen : j < byteLen t := by
    rw [← length_unitBits]
    exact (List.getElem?_eq_some_iff.mp hset).1
  obtain ⟨i, hi, hfine, hle⟩ := seekOffset_left (isCharBoundary_iff.mpr (Boundary.zero t))
    (show j < MAX_BASE + 1 by omega)
  obtain ⟨i', hi', hfine', hle'⟩ := seekOffset_right
    (isCharBoundary_iff.mpr ⟨t, [], (append_nil t).symm, rfl⟩) (le_of_lt hjlen)
    (show byteLen t - j < MAX_BASE + 1 by omega)
  obtain ⟨x, z, hx, rfl⟩ := isCharBoundary_iff.mp hfine
  obtain ⟨x', z', hx', rfl⟩ := isCharBoundary_iff.mp hfine'
  have hleft := hclip hi
  have hright := hclip hi'
  -- fewer units are in front of an earlier byte
  have hcountx := @count_take_le (unitBits t) _ _ hle
  have hcountx' := @count_take_le (unitBits t) _ _ hle'
  rw [hcount] at hcountx hcountx'
  refine ⟨x, z, x', z', hx, hx', ?_, ?_, ?_, ?_⟩
  · rw [hleft, hx, offsetToOffsetUtf16_chunkOf (hx ▸ ht)]
  · rw [hright, hx', offsetToOffsetUtf16_chunkOf (hx' ▸ ht)]
  · rwa [hx, count_units] at hcountx
  · rwa [hx', count_units] at hcountx'

theorem clipOffsetUtf16_laws (ht : byteLen t ≤ MAX_BASE) :
    (offsets .offsetUtf16).ClipLaws t (clipOffsetUtf16 (chunkOf t)) := by
  refine .of fun n => ?_
  simp only [le_offsets, past_offsets offsetUtf16_lawful]
  have hpos : TextDimension.offsetUtf16.ofText t = unitsOf t := pos_offsetUtf16 t
  rw [hpos]
  by_cases hzero : n = 0
  · have hclip : ∀ bias, clipOffsetUtf16 (chunkOf t) n bias = some 0 := fun bias => if_pos hzero
    have hsettled := @settled_units [] t ht
    exact ⟨0, 0, hclip .left, hclip .right, hsettled, hsettled, Nat.zero_le n, .inl (le_of_eq hzero),
      le_refl 0⟩
  · by_cases hn : n < unitsOf t
    · obtain ⟨x, z, x', z', rfl, hx', hleft, hright, hle, hle'⟩ := clipOffsetUtf16_inside ht hzero hn
      have hsettled' := @settled_units x' z' (hx' ▸ ht)
      rw [← hx'] at hsettled'
      exact ⟨_, _, hleft, hright, settled_units ht, hsettled', hle, .inl hle', le_trans hle hle'⟩
    · have hunits : ChunkSlice.lenUtf16 (chunkOf t) = unitsOf t := countOnes_unitBits ht
      have hclip : ∀ bias, clipOffsetUtf16 (chunkOf t) n bias = some (unitsOf t) := by
        intro bias
        rw [clipOffsetUtf16, if_neg hzero, if_pos (hunits ▸ Nat.le_of_not_lt hn), hunits]
      have hsettled := @settled_units t [] (by rwa [append_nil])
      rw [append_nil] at hsettled
      have hpast : n ≤ unitsOf t ∨ unitsOf t < n := Nat.lt_or_ge (unitsOf t) n |>.symm
      exact ⟨_, _, hclip .left, hclip .right, hsettled, hsettled, Nat.le_of_not_lt hn, hpast, Nat.le_refl _⟩

end

/-! ## Columns in bytes -/

section

variable {t x z : List Char} {isBoundary : List Char → Nat → Bool}

theorem boundary_of_ascii {k : Nat} {b : UInt8} (hb : (utf8 t)[k]? = some b) (hascii : b < 128) :
    Boundary t k := by
  have hbit : (charBits t)[k]?.getD false = true := by
    rw [charBits, ← map_utf8 map_boundary, getElem?_map, hb]
    simp [isUtf8CharBoundary, hascii]
  exact ((charBits_getElem? t k).mp hbit).2

/-- Within the row, a column is between two ASCII characters, or it is moved to one that is fine. -/
theorem clipColumn_inside {k : Nat} (hzero : k ≠ 0) (hk : k < byteLen t) :
    (Boundary t k ∧ ∀ bias, clipColumn isBoundary (chunkOf t) k bias = some k) ∨
      ∀ bias, clipColumn isBoundary (chunkOf t) k bias =
        seekOffset (fineColumn isBoundary (chunkOf t)) bias (MAX_BASE + 1) k := by
  obtain ⟨before, hbefore⟩ : ∃ b, (utf8 t)[k - 1]? = some b :=
    ⟨_, getElem?_eq_getElem (by rw [length_utf8]; omega)⟩
  obtain ⟨after, hafter⟩ : ∃ b, (utf8 t)[k]? = some b :=
    ⟨_, getElem?_eq_getElem (by rw [length_utf8]; exact hk)⟩
  have hclip : ∀ bias, clipColumn isBoundary (chunkOf t) k bias =
      if before < 128 && after < 128 then some k
      else seekOffset (fineColumn isBoundary (chunkOf t)) bias (MAX_BASE + 1) k := by
    intro bias
    rw [clipColumn, if_neg hzero, chunkOf_len, if_neg (Nat.not_le.mpr hk)]
    change (utf8 t)[k - 1]?.bind _ = _
    rw [hbefore, Option.bind_some]
    change (utf8 t)[k]?.bind _ = _
    rw [hafter]
    rfl
  by_cases hascii : before < 128 && after < 128
  · refine .inl ⟨?_, fun bias => (hclip bias).trans (if_pos hascii)⟩
    exact boundary_of_ascii hafter (of_decide_eq_true ((Bool.and_eq_true _ _).mp hascii).2)
  · exact .inr fun bias => (hclip bias).trans (if_neg hascii)

open Scale

theorem clipColumn_zero (bias : Bias) : clipColumn isBoundary (chunkOf t) 0 bias = some 0 := if_pos rfl

theorem clipColumn_full {k : Nat} (hk : byteLen t ≤ k) (bias : Bias) :
    clipColumn isBoundary (chunkOf t) k bias = some (byteLen t) := by
  rw [clipColumn]
  split
  · next hzero => exact congrArg some (by omega)
  · exact if_pos hk

theorem settled_of_keeps {k : Nat} (hbound : Boundary t k)
    (hkeeps : ∀ bias, clipColumn isBoundary (chunkOf t) k bias = some k) :
    (offsets .usize).Settled t (clipColumn isBoundary (chunkOf t)) k := by
  obtain ⟨x, z, rfl, rfl⟩ := hbound
  exact ⟨⟨x, z, rfl, pos_usize x⟩, hkeeps⟩

theorem boundary_end (t : List Char) : Boundary t (byteLen t) := ⟨t, [], (append_nil t).symm, rfl⟩

/-- A column that the loop stops at, it stops at again at once. -/
theorem settled_of_fine (ht : byteLen t ≤ MAX_BASE) {k : Nat}
    (hfine : fineColumn isBoundary (chunkOf t) k = true) :
    (offsets .usize).Settled t (clipColumn isBoundary (chunkOf t)) k := by
  have hbound := (isCharBoundary_chunkOf ht k).mp ((Bool.and_eq_true _ _).mp hfine).1
  refine settled_of_keeps hbound fun bias => ?_
  by_cases hzero : k = 0
  · exact hzero ▸ clipColumn_zero bias
  · rcases Nat.lt_or_eq_of_le hbound.le with hlt | heq
    · rcases @clipColumn_inside t isBoundary k hzero hlt with ⟨-, hkeeps⟩ | hseek
      · exact hkeeps bias
      · exact (hseek bias).trans (seekOffset_fine bias hfine)
    · rw [clipColumn_full (le_of_eq heq.symm), heq]

/-- **Columns in bytes** are clipped lawfully, wherever graphemes have their boundaries within the row. -/
theorem clipColumn_laws (hstart : ∀ text, isBoundary text 0 = true)
    (hend : ∀ text, isBoundary text (byteLen text) = true) (ht : byteLen t ≤ MAX_BASE) :
    (offsets .usize).ClipLaws t (clipColumn isBoundary (chunkOf t)) := by
  refine .of fun k => ?_
  simp only [le_offsets, past_offsets usize_lawful]
  have hpos : TextDimension.usize.ofText t = byteLen t := pos_usize t
  rw [hpos]
  by_cases hzero : k = 0
  · subst hzero
    have hsettled := settled_of_keeps (Boundary.zero t) (@clipColumn_zero t isBoundary)
    exact ⟨0, 0, clipColumn_zero .left, clipColumn_zero .right, hsettled, hsettled, le_refl 0,
      .inl (le_refl 0), le_refl 0⟩
  · by_cases hk : byteLen t ≤ k
    · have hsettled := settled_of_keeps (boundary_end t) (@clipColumn_full t isBoundary _ (le_refl _))
      have hpast : k ≤ byteLen t ∨ byteLen t < k := lt_or_ge (byteLen t) k |>.symm
      exact ⟨_, _, clipColumn_full hk .left, clipColumn_full hk .right, hsettled, hsettled, hk, hpast,
        Nat.le_refl _⟩
    · rcases @clipColumn_inside t isBoundary k hzero (Nat.lt_of_not_le hk) with ⟨hbound, hkeeps⟩ | hseek
      · have hsettled := settled_of_keeps hbound hkeeps
        exact ⟨k, k, hkeeps .left, hkeeps .right, hsettled, hsettled, Nat.le_refl k, .inl (Nat.le_refl k),
          Nat.le_refl k⟩
      · have hmax : MAX_BASE = 128 := rfl
        obtain ⟨l, hl, hlfine, hle⟩ := @seekOffset_left (fineColumn isBoundary (chunkOf t)) k
          ((Bool.and_eq_true _ _).mpr ⟨(isCharBoundary_chunkOf ht 0).mpr (Boundary.zero t), hstart t⟩)
          (MAX_BASE + 1) (by omega)
        obtain ⟨r, hr, hrfine, hle'⟩ := @seekOffset_right (fineColumn isBoundary (chunkOf t)) k _
          ((Bool.and_eq_true _ _).mpr ⟨(isCharBoundary_chunkOf ht _).mpr (boundary_end t), hend t⟩)
          (by omega) (MAX_BASE + 1) (by omega)
        exact ⟨l, r, (hseek .left).trans hl, (hseek .right).trans hr, settled_of_fine ht hlfine,
          settled_of_fine ht hrfine, hle, .inl hle', le_trans hle hle'⟩

end

section

variable {t : List Char}

/-- What is behind a row: nothing, or its newline. -/
def RowEnd (after : List Char) : Prop := after = [] ∨ ∃ rest, after = '\n' :: rest

theorem mark_set {a : Char} {i : Nat} (h : (markBits a t)[i]? = some true) :
    ∃ u w, t = u ++ a :: w ∧ byteLen u = i := by
  induction t generalizing i with
  | nil => exact absurd h (by simp [markBits])
  | cons c t ih =>
    have hcons : markBits a (c :: t) = leading (decide (c = a)) c ++ markBits a t := rfl
    rw [hcons] at h
    by_cases hi : i < c.utf8Size
    · rw [getElem?_append_left (by rwa [length_leading])] at h
      cases i with
      | zero =>
        obtain rfl : c = a := of_decide_eq_true (Option.some.inj h)
        exact ⟨[], t, rfl, rfl⟩
      | succ i =>
        exact absurd (eq_of_mem_replicate (mem_of_getElem? h)) (by simp)
    · rw [getElem?_append_right (by rw [length_leading]; omega), length_leading] at h
      obtain ⟨u, w, rfl, hu⟩ := ih h
      exact ⟨c :: u, w, rfl, by rw [byteLen_cons, hu]; omega⟩

theorem bytesToNext_row {before rest : List Char} (ht : byteLen (before ++ rest) ≤ MAX_BASE) :
    ∃ u after, rest = u ++ after ∧ '\n' ∉ u ∧ RowEnd after ∧
      bytesToNext (chunkOf (before ++ rest)) (chunkOf (before ++ rest)).newlines (byteLen before) =
        some (byteLen u) := by
  have hlen := length_markBits '\n' (before ++ rest)
  have hdrop : (markBits '\n' (before ++ rest)).drop (byteLen before) = markBits '\n' rest := by
    rw [markBits_append, ← length_markBits '\n' before, drop_left]
  rcases newline_first rest with hnone | ⟨u, w, rfl, hu⟩
  · refine ⟨rest, [], (append_nil rest).symm, hnone, .inl rfl, ?_⟩
    have happend := byteLen_append before rest
    have hrest : byteLen (before ++ rest) - byteLen before = byteLen rest := by omega
    refine (bytesToNext_none hlen ht (by omega) ?_).trans (congrArg some hrest)
    rw [hdrop, markBits_of_not_mem hnone, hrest]
  · refine ⟨u, '\n' :: w, rfl, hu, .inr ⟨w, rfl⟩, bytesToNext_set (r := markBits '\n' w) hlen ht ?_⟩
    rw [hdrop, markBits_newline, markBits_of_not_mem hu]

/-- A row of a chunk, between what is in front of it and what is behind it. -/
structure RowAt (t before u after : List Char) (row : Nat) : Prop where
  text : t = before ++ u ++ after
  start : LineStart before
  count : before.count '\n' = row
  line : '\n' ∉ u
  stop : RowEnd after
  range : offsetRangeForRow (chunkOf t) row = some ⟨byteLen before, byteLen (before ++ u)⟩

theorem exists_row (ht : byteLen t ≤ MAX_BASE) {row : Nat} (hrow : row ≤ t.count '\n') :
    ∃ before u after, RowAt t before u after row := by
  obtain ⟨before, rest, rfl, hstart, hcount, hix⟩ : ∃ before rest, t = before ++ rest ∧ LineStart before ∧
      before.count '\n' = row ∧
      (if 0 < row then (nthSetBit (chunkOf t).newlines row).map (· + 1) else some 0) = some (byteLen before) := by
    by_cases hzero : row = 0
    · exact ⟨[], t, rfl, .inl rfl, hzero.symm, if_neg (by omega)⟩
    · have hlen : (markBits '\n' t).length ≤ 128 := by rwa [length_markBits]
      obtain ⟨i, hi, hset, hrank⟩ := nthSetBit_ofBits hlen (Nat.pos_of_ne_zero hzero) (by rwa [count_markBits])
      obtain ⟨u, w, rfl, rfl⟩ := mark_set hset
      rw [markBits_append, ← length_markBits '\n' u, take_left, count_markBits] at hrank
      refine ⟨u ++ ['\n'], w, by simp, .inr ⟨u, rfl⟩, ?_, ?_⟩
      · rw [count_append, ← hrank]
        rfl
      · rw [if_pos (Nat.pos_of_ne_zero hzero), byteLen_append]
        exact Option.map_eq_some_iff.mpr ⟨_, hi, rfl⟩
  obtain ⟨u, after, rfl, hu, hafter, hnext⟩ := bytesToNext_row ht
  refine ⟨before, u, after, (append_assoc ..).symm, hstart, hcount, hu, hafter, ?_⟩
  refine Option.bind_eq_some_iff.mpr ⟨_, hix, ?_⟩
  exact Option.map_eq_some_iff.mpr ⟨_, hnext, by rw [byteLen_append]⟩

variable {before u after : List Char} {row : Nat}

section

variable (h : RowAt t before u after row)
include h

theorem RowAt.fits (ht : byteLen t ≤ MAX_BASE) : byteLen u ≤ MAX_BASE := by
  rw [h.text, byteLen_append, byteLen_append] at ht
  omega

theorem RowAt.slice (ht : byteLen t ≤ MAX_BASE) :
    ChunkSlice.slice (chunkOf t) (byteLen before) (byteLen (before ++ u)) = some (chunkOf u) := by
  rw [h.text] at ht ⊢
  exact slice_chunkOf ht

theorem RowAt.cut {x z : List Char} (htext : t = x ++ z)
    (hcount : x.count '\n' = row) : ∃ x' y, x = before ++ x' ∧ u = x' ++ y := by
  have happend := h.text.symm.trans htext
  rw [append_assoc] at happend
  rw [← h.count] at hcount
  rcases List.append_eq_append_iff.mp happend with ⟨r, rfl, hr⟩ | ⟨r, hr, -⟩
  · -- it goes on behind the start of the row, and not as far as the newline
    rw [count_append] at hcount
    have hnone : '\n' ∉ r := List.count_eq_zero.mp (by omega)
    rcases List.append_eq_append_iff.mp hr with ⟨s, rfl, hs⟩ | ⟨y, hy, -⟩
    · cases s with
      | nil => exact ⟨u, [], by rw [append_nil], (append_nil u).symm⟩
      | cons a s =>
        rcases h.stop with rfl | ⟨rest, rfl⟩
        · cases hs
        · obtain ⟨rfl, -⟩ := List.cons.inj hs
          exact absurd (mem_append_right u mem_cons_self) hnone
    · exact ⟨r, y, rfl, hy⟩
  · rcases eq_nil_or_concat' r with rfl | ⟨r, a, rfl⟩
    · exact ⟨[], u, by rw [append_nil, hr, append_nil], rfl⟩
    · rcases h.start with rfl | ⟨p, rfl⟩
      · exact absurd hr (by simp)
      · rw [← append_assoc] at hr
        obtain ⟨rfl, -⟩ := append_inj' hr rfl
        rw [count_append, count_append] at hcount
        have hone : ['\n'].count '\n' = 1 := rfl
        omega

end

end

section

open Scale

variable {d : TextDimension Point} {e : TextDimension Nat} {clip : ChunkSlice → Nat → Bias → Option Nat}
  {t before u after : List Char} {row : Nat} {clipAt : Point → Bias → Option Point}

section

variable (h : RowAt t before u after row)
include h

theorem RowAt.pos (hrowed : Rowed d e) {x y : List Char} (hu : u = x ++ y) :
    d.ofText (before ++ x) = ⟨row, e.ofText x⟩ := by
  rw [hrowed.line h.start fun hmem => h.line (hu ▸ mem_append_left y hmem), h.count]

theorem RowAt.clipInRow (ht : byteLen t ≤ MAX_BASE) (column : Nat)
    (bias : Bias) :
    ChunkSlice.clipInRow clip (chunkOf t) ⟨row, column⟩ bias = (clip (chunkOf u) column bias).map (⟨row, ·⟩) := by
  rw [ChunkSlice.clipInRow]
  rw [h.range]
  change (ChunkSlice.slice (chunkOf t) (byteLen before) (byteLen (before ++ u))).bind _ = _
  rw [h.slice ht]
  rfl

theorem RowAt.settled (ht : byteLen t ≤ MAX_BASE) (hrowed : Rowed d e)
    (hrows : ∀ p bias, p.row ≤ t.count '\n' → clipAt p bias = ChunkSlice.clipInRow clip (chunkOf t) p bias)
    {c : Nat} (hc : (offsets e).Settled u (clip (chunkOf u)) c) : (points d).Settled t clipAt ⟨row, c⟩ := by
  obtain ⟨⟨x, y, hu, rfl⟩, hkeeps⟩ := hc
  have hle : row ≤ t.count '\n' := by
    rw [h.text, count_append, count_append, h.count]
    omega
  refine ⟨⟨before ++ x, y ++ after, by rw [h.text, hu]; simp, h.pos hrowed hu⟩, fun bias => ?_⟩
  rw [hrows _ bias hle, h.clipInRow ht, hkeeps bias]
  rfl

theorem RowAt.past (hrowed : Rowed d e) (he : (offsets e).Lawful) {column : Nat}
    (hpast : e.ofText u < column) : (points d).Past t ⟨row, column⟩ := by
  intro x z htext hrow
  have hcount : x.count '\n' = row := (hrowed.row x).symm.trans hrow
  obtain ⟨x', y, rfl, rfl⟩ := h.cut htext hcount
  have hlt : e.ofText x' < column := of_decide_eq_true (he.pos_lt_of_lt x' y (decide_eq_true hpast))
  change decide ((d.ofText (before ++ x')).lt ⟨row, column⟩) = true
  rw [h.pos hrowed rfl]
  exact decide_eq_true (.inr ⟨rfl, hlt⟩)

end

theorem settled_end (hrowed : Rowed d e) (he : (offsets e).Lawful)
    (hcolumns : ∀ u, byteLen u ≤ MAX_BASE → (offsets e).ClipLaws u (clip (chunkOf u))) (ht : byteLen t ≤ MAX_BASE)
    (hrows : ∀ p bias, p.row ≤ t.count '\n' → clipAt p bias = ChunkSlice.clipInRow clip (chunkOf t) p bias) :
    (points d).Settled t clipAt (d.ofText t) := by
  obtain ⟨before, u, after, h⟩ := exists_row ht (le_refl _)
  have hafter : after = [] := by
    rcases h.stop with hnil | ⟨rest, rfl⟩
    · exact hnil
    · have hcount := congrArg (List.count '\n') h.text
      rw [count_append, count_append, count_cons_self, h.count] at hcount
      omega
  have hend : d.ofText t = ⟨t.count '\n', e.ofText u⟩ := by
    have htext := h.text
    rw [hafter, append_nil] at htext
    exact (congrArg d.ofText htext).trans (h.pos hrowed (append_nil u).symm)
  rw [hend]
  exact h.settled ht hrowed hrows ⟨⟨u, [], (append_nil u).symm, rfl⟩, (hcolumns u (h.fits ht)).stop he⟩

/-- **Points** are clipped lawfully if the columns of each row are: behind the last row at the end, and within
a row as its columns. -/
theorem clipRows_laws (hrowed : Rowed d e) (hd : (points d).Lawful) (he : (offsets e).Lawful)
    (hcolumns : ∀ u, byteLen u ≤ MAX_BASE → (offsets e).ClipLaws u (clip (chunkOf u))) (ht : byteLen t ≤ MAX_BASE)
    (hbelow : ∀ p bias, t.count '\n' < p.row → clipAt p bias = some (d.ofText t))
    (hrows : ∀ p bias, p.row ≤ t.count '\n' → clipAt p bias = ChunkSlice.clipInRow clip (chunkOf t) p bias) :
    (points d).ClipLaws t clipAt := by
  refine .of fun p => ?_
  by_cases hp : p.row ≤ t.count '\n'
  · obtain ⟨before, u, after, h⟩ := exists_row ht hp
    obtain ⟨l, r, hl, hr, hlsettled, hrsettled, hle, hle', hlr⟩ := (hcolumns u (h.fits ht)).clips p.column
    rw [le_offsets] at hle hle' hlr
    rw [past_offsets he] at hle'
    have hclip : ∀ {bias c}, clip (chunkOf u) p.column bias = some c → clipAt p bias = some ⟨p.row, c⟩ := by
      intro bias c hc
      rw [hrows p bias hp, show p = ⟨p.row, p.column⟩ from rfl, h.clipInRow ht, hc]
      rfl
    refine ⟨_, _, hclip hl, hclip hr, h.settled ht hrowed hrows hlsettled,
      h.settled ht hrowed hrows hrsettled, ?_, ?_, ?_⟩
    · exact le_points.mpr (.inr ⟨rfl, hle⟩)
    · rcases hle' with hle' | hpast
      · exact .inl (le_points.mpr (.inr ⟨rfl, hle'⟩))
      · exact .inr (h.past hrowed he hpast)
    · exact le_points.mpr (.inr ⟨rfl, hlr⟩)
  · have hclip : ∀ bias, clipAt p bias = some (d.ofText t) := fun bias => hbelow p bias (Nat.lt_of_not_le hp)
    have hrow : (d.ofText t).row < p.row := by
      rw [hrowed.row]
      exact Nat.lt_of_not_le hp
    have hsettled := settled_end hrowed he hcolumns ht hrows
    refine ⟨_, _, hclip .left, hclip .right, hsettled, hsettled, le_points.mpr (.inl hrow), ?_, hd.irrefl _⟩
    exact .inr (hd.past_of_lt (decide_eq_true (.inl hrow)))

theorem clipPoint_laws {isBoundary : List Char → Nat → Bool} (hstart : ∀ text, isBoundary text 0 = true)
    (hend : ∀ text, isBoundary text (byteLen text) = true) (ht : byteLen t ≤ MAX_BASE) :
    (points .point).ClipLaws t (clipPoint isBoundary (chunkOf t)) := by
  have hlines : ChunkSlice.lines (chunkOf t) = TextDimension.point.ofText t := lines_chunkOf ht
  have hrow : (ChunkSlice.lines (chunkOf t)).row = t.count '\n' := by rw [hlines, point_rowed.row]
  refine clipRows_laws point_rowed point_lawful usize_lawful (fun u hu => clipColumn_laws hstart hend hu) ht
    (fun p bias hp => ?_) fun p bias hp => ?_
  · rw [clipPoint, hrow, if_pos hp, hlines]
  · rw [clipPoint, hrow, if_neg (Nat.not_lt.mpr hp)]

theorem clipPointUtf16_laws (ht : byteLen t ≤ MAX_BASE) :
    (points .pointUtf16).ClipLaws t (clipPointUtf16 (chunkOf t)) := by
  have hlines : Point.mk (ChunkSlice.lines (chunkOf t)).row (ChunkSlice.lastLineLenUtf16 (chunkOf t)) =
      TextDimension.pointUtf16.ofText t := Option.some.inj (TextDimension.pointUtf16_lawful.fromChunk t ht)
  have hrow : (ChunkSlice.lines (chunkOf t)).row = t.count '\n' :=
    (congrArg Point.row hlines).trans (pointUtf16_rowed.row t)
  refine clipRows_laws pointUtf16_rowed pointUtf16_lawful offsetUtf16_lawful
    (fun u hu => clipOffsetUtf16_laws hu) ht (fun p bias hp => ?_) fun p bias hp => ?_
  · rw [clipPointUtf16, hrow, if_pos hp, ← hlines, hrow]
  · rw [clipPointUtf16, hrow, if_neg (Nat.not_lt.mpr hp)]

end

end ChunkSlice

end SpkEditor.Chunked
