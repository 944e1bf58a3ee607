import SpkEditor.Rope.Clip

/-!
# Converting coordinates

Offsets in bytes and in UTF-16 units, points in bytes and in UTF-16 units: `offset_to_point` and its siblings in
`rope/src/rope.rs`. Each looks for the chunk by one dimension with `Bias::Left`, carries another one, and leaves
the rest to the bitmaps of the chunk (`rope/src/chunk.rs`). Where a part of the text ends, all of them give what
is counted in that part.

A point that is not in the chunk is a `debug_panic!` unless it is to be clipped; that is `none` here.
-/

namespace SpkEditor.Chunked

open Bits List
open Chunks (LineStart)

namespace ChunkSlice

/-- `offset_to_point`. -/
def offsetToPoint (c : ChunkSlice) (offset : Nat) : Option Point :=
  let newlines := c.newlines &&& lowMask 128 offset
  (Patch.checkedSub offset (128 - leadingZeros newlines)).map (⟨countOnes newlines, ·⟩)

/-- `point_to_offset`. -/
def pointToOffset (c : ChunkSlice) (point : Point) : Option Nat :=
  if c.lines.row < point.row then none
  else
    (c.offsetRangeForRow point.row).bind fun range =>
      if range.stop - range.start < point.column then none else some (range.start + point.column)

/-- `offset_to_point_utf16`. -/
def offsetToPointUtf16 (c : ChunkSlice) (offset : Nat) : Point :=
  let newlines := c.newlines &&& saturatingShlMask offset
  let newlineIx := 128 - leadingZeros newlines
  ⟨countOnes newlines,
    if newlineIx = MAX_BASE then 0 else countOnes ((c.charsUtf16 &&& saturatingShlMask offset) >>> newlineIx)⟩

/-- `point_to_point_utf16`. -/
def pointToPointUtf16 (c : ChunkSlice) (point : Point) : Option Point :=
  (c.pointToOffset point).map c.offsetToPointUtf16

/-- The column of `point_utf16_to_offset`; within a character it is moved back to its start, to be clipped. -/
def columnUtf16ToOffset (c line : ChunkSlice) (rowStart column : Nat) (clip : Bool) : Option Nat :=
  if column = 0 then some rowStart
  else
    (line.offsetUtf16ToOffset column).bind fun column =>
      let offset := rowStart + column
      if Chunked.isCharBoundary c.text offset then some offset
      else if clip then
        (Patch.checkedSub offset 1).bind (seekOffset (Chunked.isCharBoundary c.text) .left (MAX_BASE + 1))
      else none

/-- `point_utf16_to_offset`. -/
def pointUtf16ToOffset (c : ChunkSlice) (point : Point) (clip : Bool) : Option Nat :=
  if c.lines.row < point.row then if clip then some c.len else none
  else do
    let range ← c.offsetRangeForRow point.row
    let line ← c.slice range.start range.stop
    if line.lastLineLenUtf16 < point.column then if clip then some range.stop else none
    else columnUtf16ToOffset c line range.start point.column clip

end ChunkSlice

namespace Rope

/-- A conversion: up to the chunk by what the tree adds up, and from there by the chunk. -/
def convert {K V : Type} (k : Scale K) (v : TextDimension V) (convertIn : ChunkSlice → K → Option V) (r : Rope)
    (position : K) : Option V := do
  let summary ← r.summary
  if !k.lt position (k.dim.fromTextSummary summary) then some (v.fromTextSummary summary)
  else
    let found ← findChunk (.dimensions k.dim v) (fun stop => k.lt stop.1 position) (k.dim.zero, v.zero) r.chunks
    let overshoot ← k.sub position found.1.1
    match found.2 with
    | some chunk => (convertIn chunk overshoot).map (v.addAssign found.1.2)
    | none => some (v.addAssign found.1.2 v.zero)

/-- `offset_to_offset_utf16`. -/
def offsetToOffsetUtf16 : Rope → Nat → Option Nat :=
  convert (.offsets .usize) .offsetUtf16 fun chunk offset => some (chunk.offsetToOffsetUtf16 offset)

/-- `offset_utf16_to_offset`. -/
def offsetUtf16ToOffset : Rope → Nat → Option Nat :=
  convert (.offsets .offsetUtf16) .usize ChunkSlice.offsetUtf16ToOffset

/-- `offset_to_point`. -/
def offsetToPoint : Rope → Nat → Option Point := convert (.offsets .usize) .point ChunkSlice.offsetToPoint

/-- `offset_to_point_utf16`. -/
def offsetToPointUtf16 : Rope → Nat → Option Point :=
  convert (.offsets .usize) .pointUtf16 fun chunk offset => some (chunk.offsetToPointUtf16 offset)

/-- `point_to_point_utf16`. -/
def pointToPointUtf16 : Rope → Point → Option Point :=
  convert (.points .point) .pointUtf16 ChunkSlice.pointToPointUtf16

/-- `point_utf16_to_point`. -/
def pointUtf16ToPoint : Rope → Point → Option Point :=
  convert (.points .pointUtf16) .point fun chunk point =>
    (chunk.pointUtf16ToOffset point false).bind chunk.offsetToPoint

/-- `point_to_offset`. -/
def pointToOffset : Rope → Point → Option Nat := convert (.points .point) .usize ChunkSlice.pointToOffset

/-- `point_utf16_to_offset_impl`. -/
def pointUtf16ToOffsetImpl (clip : Bool) : Rope → Point → Option Nat :=
  convert (.points .pointUtf16) .usize fun chunk point => chunk.pointUtf16ToOffset point clip

/-- `point_utf16_to_offset`. -/
def pointUtf16ToOffset : Rope → Point → Option Nat := pointUtf16ToOffsetImpl false

/-- `point_utf16_to_offset_utf16_impl`. -/
def pointUtf16ToOffsetUtf16Impl (clip : Bool) : Rope → Point → Option Nat :=
  convert (.points .pointUtf16) .offsetUtf16 fun chunk point =>
    (chunk.pointUtf16ToOffset point clip).map chunk.offsetToOffsetUtf16

/-- `point_utf16_to_offset_utf16`. -/
def pointUtf16ToOffsetUtf16 : Rope → Point → Option Nat := pointUtf16ToOffsetUtf16Impl false

end Rope

/-! ## In a chunk -/

theorem exists_lastLine (x : List Char) : ∃ before u, x = before ++ u ∧ LineStart before ∧ '\n' ∉ u := by
  rcases newline_last x with hnone | ⟨u, w, rfl, hw⟩
  · exact ⟨[], x, rfl, .inl rfl, hnone⟩
  · exact ⟨u ++ ['\n'], w, by simp, .inr ⟨u, rfl⟩, hw⟩

namespace ChunkSlice

variable {x z : List Char}

theorem newlines_mask (x z : List Char) :
    (chunkOf (x ++ z)).newlines &&& lowMask 128 (byteLen x) = (chunkOf x).newlines :=
  (congrArg Chunk.newlines (chunkOf_left x z)).symm

theorem charsUtf16_mask (x z : List Char) :
    (chunkOf (x ++ z)).charsUtf16 &&& lowMask 128 (byteLen x) = (chunkOf x).charsUtf16 :=
  (congrArg Chunk.charsUtf16 (chunkOf_left x z)).symm

theorem charsUtf16_shift (hx : byteLen (x ++ z) ≤ MAX_BASE) :
    (chunkOf (x ++ z)).charsUtf16 >>> byteLen x = (chunkOf z).charsUtf16 :=
  (congrArg Chunk.charsUtf16 (chunkOf_right hx)).symm

theorem lastLine_start {before u : List Char} (hx : byteLen (before ++ u) ≤ MAX_BASE) (hbefore : LineStart before)
    (hu : '\n' ∉ u) : 128 - leadingZeros (chunkOf (before ++ u)).newlines = byteLen before := by
  rcases hbefore with rfl | ⟨p, rfl⟩
  · rw [show (chunkOf ([] ++ u)).newlines = 0#128 from newlines_of_not_mem hu, leadingZeros_zero]
    rfl
  · have hcut : p ++ ['\n'] ++ u = p ++ '\n' :: u := by simp
    have hone : byteLen ['\n'] = 1 := rfl
    have hmax : MAX_BASE = 128 := rfl
    rw [hcut] at hx ⊢
    have hzeros : leadingZeros (chunkOf (p ++ '\n' :: u)).newlines = 128 - (byteLen p + 1) :=
      leadingZeros_newlines hu hx
    rw [byteLen_newline] at hx
    rw [hzeros, byteLen_append]
    omega

open Scale

section

variable (ht : byteLen (x ++ z) ≤ MAX_BASE)
include ht

theorem offsetToPoint_spec :
    offsetToPoint (chunkOf (x ++ z)) (byteLen x) = some (TextDimension.point.ofText x) := by
  have hx : byteLen x ≤ MAX_BASE := by
    rw [byteLen_append] at ht
    omega
  have hrow : countOnes (chunkOf x).newlines = x.count '\n' :=
    (congrArg Point.row (lines_chunkOf hx)).trans (row_ofText x)
  obtain ⟨before, u, rfl, hbefore, hu⟩ := exists_lastLine x
  have hstart := lastLine_start hx hbefore hu
  have hpos : TextDimension.point.ofText (before ++ u) = ⟨before.count '\n', byteLen u⟩ :=
    (point_rowed.line hbefore hu).trans (congrArg (Point.mk _) (pos_usize u))
  rw [count_append, List.count_eq_zero.mpr hu, add_zero] at hrow
  rw [offsetToPoint, newlines_mask, hstart, hrow, hpos, byteLen_append]
  have hsub : Patch.checkedSub (byteLen before + byteLen u) (byteLen before) = some (byteLen u) := by
    rw [Patch.checkedSub, if_pos (Nat.le_add_right _ _), Nat.add_sub_cancel_left]
  simp only [hsub, Option.map_some]

theorem offsetToPointUtf16_spec :
    offsetToPointUtf16 (chunkOf (x ++ z)) (byteLen x) = TextDimension.pointUtf16.ofText x := by
  have hx : byteLen x ≤ MAX_BASE := by
    rw [byteLen_append] at ht
    omega
  have hrow : countOnes (chunkOf x).newlines = x.count '\n' :=
    (congrArg Point.row (lines_chunkOf hx)).trans (row_ofText x)
  obtain ⟨before, u, rfl, hbefore, hu⟩ := exists_lastLine x
  have hstart := lastLine_start hx hbefore hu
  have hpos : TextDimension.pointUtf16.ofText (before ++ u) = ⟨before.count '\n', unitsOf u⟩ :=
    (pointUtf16_rowed.line hbefore hu).trans (congrArg (Point.mk _) (pos_offsetUtf16 u))
  have hcolumn : countOnes ((chunkOf (before ++ u)).charsUtf16 >>> byteLen before) = unitsOf u := by
    rw [charsUtf16_shift hx]
    exact countOnes_unitBits (by rw [byteLen_append] at hx; omega)
  rw [count_append, List.count_eq_zero.mpr hu, add_zero] at hrow
  rw [offsetToPointUtf16, saturatingShlMask, newlines_mask, charsUtf16_mask, hstart, hrow, hpos, hcolumn]
  split
  · next hfull =>
    -- nothing is behind the last newline of a full chunk
    rw [byteLen_append] at hx
    have hnil : u = [] := byteLen_eq_zero.mp (by omega)
    rw [hnil]
    rfl
  · rfl

theorem exists_row_of_part :
    ∃ before u after x' y, RowAt (x ++ z) before u after (x.count '\n') ∧ x = before ++ x' ∧ u = x' ++ y := by
  have hle : x.count '\n' ≤ (x ++ z).count '\n' := by
    rw [count_append]
    omega
  obtain ⟨before, u, after, h⟩ := exists_row ht hle
  obtain ⟨x', y, hx, hu⟩ := h.cut rfl rfl
  exact ⟨before, u, after, x', y, h, hx, hu⟩

theorem row_le_lines :
    ¬ (ChunkSlice.lines (chunkOf (x ++ z))).row < x.count '\n' := by
  rw [lines_chunkOf ht, row_ofText, count_append]
  omega

theorem pointToOffset_spec :
    pointToOffset (chunkOf (x ++ z)) (TextDimension.point.ofText x) = some (byteLen x) := by
  obtain ⟨before, u, after, x', y, h, hx, hu⟩ := exists_row_of_part ht
  have hpos : TextDimension.point.ofText x = ⟨x.count '\n', byteLen x'⟩ := by
    conv_lhs => rw [hx]
    exact (h.pos point_rowed hu).trans (congrArg (Point.mk _) (pos_usize x'))
  have hlen : byteLen x = byteLen before + byteLen x' := by
    conv_lhs => rw [hx]
    exact byteLen_append ..
  have hle : byteLen (before ++ u) - byteLen before = byteLen x' + byteLen y := by
    rw [byteLen_append, hu, byteLen_append]
    omega
  rw [hpos, pointToOffset]
  rw [if_neg (row_le_lines ht), h.range, Option.bind_some]
  simp only
  rw [hle, if_neg (by omega), hlen]

end

theorem offsetUtf16ToOffset_end (hx : byteLen x ≤ MAX_BASE) :
    offsetUtf16ToOffset (chunkOf x) (unitsOf x) = some (byteLen x) := by
  by_cases hnil : x = []
  · subst hnil
    rfl
  · have hlen : (unitBits x).length ≤ 128 := by rwa [length_unitBits]
    have htotal := count_unitBits x
    obtain ⟨i, hi, hset, hrank⟩ := nthSetBit_ofBits hlen (unitsOf_pos hnil) (le_of_eq htotal.symm)
    have hlt : i < byteLen x := by
      rw [← length_unitBits]
      exact (List.getElem?_eq_some_iff.mp hset).1
    have hnone : ((unitBits x).drop (i + 1)).count true = 0 := by
      have hsplit := congrArg (List.count true) (take_append_drop (i + 1) (unitBits x))
      rw [count_append, take_add_one, hset, count_append] at hsplit
      have hone : [true].count true = 1 := rfl
      simp only [Option.toList_some] at hsplit
      omega
    have hzeros : (unitBits x).drop (i + 1) = List.replicate (byteLen x - (i + 1)) false := by
      rw [eq_replicate_iff]
      refine ⟨by rw [length_drop, length_unitBits], fun b hb => ?_⟩
      cases b with
      | false => rfl
      | true => exact absurd hb (List.count_eq_zero.mp hnone)
    have hnext := bytesToNext_none (length_unitBits x) hx (show i + 1 ≤ byteLen x from hlt) hzeros
    rw [offsetUtf16ToOffset, if_neg (ne_of_gt (unitsOf_pos hnil))]
    refine Option.bind_eq_some_iff.mpr ⟨i, hi, ?_⟩
    exact Option.map_eq_some_iff.mpr ⟨_, hnext, by omega⟩

theorem offsetUtf16ToOffset_part (ht : byteLen (x ++ z) ≤ MAX_BASE) :
    offsetUtf16ToOffset (chunkOf (x ++ z)) (unitsOf x) = some (byteLen x) := by
  by_cases hz : z = []
  · subst hz
    rw [append_nil] at ht ⊢
    exact offsetUtf16ToOffset_end ht
  · have hlt : unitsOf x < unitsOf (x ++ z) := by
      rw [unitsOf_append]
      have := unitsOf_pos hz
      omega
    obtain ⟨j, hj, hset, hcount⟩ := offsetUtf16ToOffset_spec ht hlt
    rw [hj, set_bit_unique hset (unit_set x hz) (hcount.trans (count_units x z).symm)]

theorem pointUtf16ToOffset_spec (ht : byteLen (x ++ z) ≤ MAX_BASE) (clip : Bool) :
    pointUtf16ToOffset (chunkOf (x ++ z)) (TextDimension.pointUtf16.ofText x) clip = some (byteLen x) := by
  obtain ⟨before, u, after, x', y, h, hx, hu⟩ := exists_row_of_part ht
  have hpos : TextDimension.pointUtf16.ofText x = ⟨x.count '\n', unitsOf x'⟩ := by
    conv_lhs => rw [hx]
    exact (h.pos pointUtf16_rowed hu).trans (congrArg (Point.mk _) (pos_offsetUtf16 x'))
  have hlen : byteLen before + byteLen x' = byteLen x := by
    conv_rhs => rw [hx]
    exact (byteLen_append ..).symm
  have hfits := h.fits ht
  have hline : ChunkSlice.lastLineLenUtf16 (chunkOf u) = unitsOf x' + unitsOf y := by
    rw [lastLineLenUtf16_chunkOf hfits, ofText_of_not_mem h.line, hu, unitsOf_append]
  rw [hpos, pointUtf16ToOffset]
  simp only
  rw [if_neg (row_le_lines ht), h.range]
  change (ChunkSlice.slice (chunkOf (x ++ z)) (byteLen before) (byteLen (before ++ u))).bind _ = _
  rw [h.slice ht, Option.bind_some, hline, if_neg (by omega)]
  rw [columnUtf16ToOffset]
  split
  · next hzero =>
    have hnil : x' = [] := by
      by_contra hne
      exact ne_of_gt (unitsOf_pos hne) hzero
    rw [← hlen, hnil, byteLen_nil, add_zero]
  · have hcolumn : offsetUtf16ToOffset (chunkOf u) (unitsOf x') = some (byteLen x') := by
      rw [hu] at hfits ⊢
      exact offsetUtf16ToOffset_part hfits
    have hbound : Chunked.isCharBoundary (chunkOf (x ++ z)).text (byteLen x) = true :=
      isCharBoundary_iff.mpr ⟨x, z, rfl, rfl⟩
    rw [hcolumn, Option.bind_some, hlen]
    exact if_pos hbound

end ChunkSlice

section

open Scale

variable {K V : Type} {k : Scale K} {v : TextDimension V} {convertIn : ChunkSlice → K → Option V}
  {ts : List (List Char)} {x z : List Char}

section

variable (hk : k.Lawful) (hv : v.Lawful) (hts : ∀ t ∈ ts, byteLen t ≤ MAX_BASE)
include hk hv hts

theorem findChunk_part (htext : ts.flatten = x ++ z) (hz : z ≠ []) :
    ∃ us t vs x' y, ts = us ++ t :: vs ∧ x = us.flatten ++ x' ∧ t = x' ++ y ∧
      findChunk (.dimensions k.dim v) (fun stop => k.lt stop.1 (k.pos x)) (k.dim.zero, v.zero) (ts.map chunkOf) =
        some ((k.pos us.flatten, v.ofText us.flatten), some (chunkOf t)) := by
  have hmono : ∀ s t : List Char, k.lt ((TextDimension.dimensions k.dim v).ofText (s ++ t)).1 (k.pos x) = true →
      k.lt ((TextDimension.dimensions k.dim v).ofText s).1 (k.pos x) = true := fun s t h => hk.pos_lt_of_lt s t h
  have hend : ts ≠ [] → ¬ k.lt ((TextDimension.dimensions k.dim v).ofText ts.flatten).1 (k.pos x) = true := by
    rw [htext]
    exact fun _ => hk.pos_le x z
  rcases @findChunk_spec (K × V) (.dimensions k.dim v) (fun stop => k.lt stop.1 (k.pos x)) ts
    (TextDimension.dimensions_lawful hk.dim hv) hmono hts hend with rfl | ⟨us, t, vs, rfl, hus, ht, hfound⟩
  · exact absurd (List.append_eq_nil_iff.mp htext.symm).2 hz
  · have hflatten : (us ++ t :: vs).flatten = us.flatten ++ (t ++ vs.flatten) := by simp
    -- what is passed is in front of the end of the part
    have hle : byteLen us.flatten ≤ byteLen x := by
      by_cases hnil : us = []
      · simp [hnil]
      · refine Nat.le_of_not_lt fun hlt => ?_
        obtain ⟨r, hr, -⟩ := exists_append_of_byteLen_le (htext.symm.trans hflatten) (Nat.le_of_lt hlt)
        exact hk.pos_le x r (hr ▸ hus hnil)
    obtain ⟨x', rfl, hrest⟩ := exists_append_of_byteLen_le (hflatten.symm.trans htext) hle
    have hle' : byteLen x' ≤ byteLen t := by
      refine Nat.le_of_not_lt fun hlt => ht ?_
      obtain ⟨r, rfl, -⟩ := exists_append_of_byteLen_le hrest (Nat.le_of_lt hlt)
      have hr : r ≠ [] := by
        rintro rfl
        rw [append_nil] at hlt
        exact lt_irrefl _ hlt
      have hgrows := hk.grows (us.flatten ++ t) hr
      rw [append_assoc] at hgrows
      exact hgrows
    obtain ⟨y, rfl, -⟩ := exists_append_of_byteLen_le hrest.symm hle'
    exact ⟨us, _, vs, x', y, rfl, rfl, rfl, hfound⟩

theorem convert_pos (hchunk : ∀ {x z : List Char}, byteLen (x ++ z) ≤ MAX_BASE →
      convertIn (chunkOf (x ++ z)) (k.pos x) = some (v.ofText x))
    (htext : ts.flatten = x ++ z) : Rope.convert k v convertIn (ropeOf ts) (k.pos x) = some (v.ofText x) := by
  have hsummary : (ropeOf ts).summary = some (.ofText ts.flatten) :=
    Cursor.chunksSummary_map TextDimension.textSummary_lawful [] hts
  refine Option.bind_eq_some_iff.mpr ⟨_, hsummary, ?_⟩
  change (if !k.lt (k.pos x) (k.pos ts.flatten) then _ else _) = _
  by_cases hz : z = []
  · subst hz
    rw [append_nil] at htext
    rw [htext, if_pos]
    · rfl
    · rw [Bool.not_eq_true']
      exact Bool.eq_false_iff.mpr (hk.irrefl _)
  · have hlt : k.lt (k.pos x) (k.pos ts.flatten) = true := htext ▸ hk.grows x hz
    obtain ⟨us, t, vs, x', y, rfl, rfl, rfl, hfound⟩ := findChunk_part hk hv hts htext hz
    have hsub : k.sub (k.pos (us.flatten ++ x')) (k.pos us.flatten) = some (k.pos x') := by
      rw [hk.pos_append, hk.add_sub]
    rw [hlt, if_neg (show ¬ (!true) = true from Bool.false_ne_true)]
    refine Option.bind_eq_some_iff.mpr ⟨_, hfound, ?_⟩
    refine Option.bind_eq_some_iff.mpr ⟨_, hsub, ?_⟩
    refine Option.map_eq_some_iff.mpr ⟨_, hchunk (hts _ (by simp)), ?_⟩
    exact hv.addAssign us.flatten x'

end

end

/-! ## All of them -/

/-- The rows and the bytes in the last of them. -/
def pointOf (x : List Char) : Point := ⟨x.count '\n', byteLen (Rows.lastRow '\n' x)⟩

def pointUtf16Of (x : List Char) : Point := ⟨x.count '\n', unitsOf (Rows.lastRow '\n' x)⟩

/-- **The coordinates of the end of a part of the text**, all from each other. -/
structure Coordinates (r : Rope) (x : List Char) : Prop where
  offsetToPoint : r.offsetToPoint (byteLen x) = some (pointOf x)
  offsetToPointUtf16 : r.offsetToPointUtf16 (byteLen x) = some (pointUtf16Of x)
  offsetToOffsetUtf16 : r.offsetToOffsetUtf16 (byteLen x) = some (unitsOf x)
  pointToPointUtf16 : r.pointToPointUtf16 (pointOf x) = some (pointUtf16Of x)
  pointToOffset : r.pointToOffset (pointOf x) = some (byteLen x)
  pointUtf16ToOffset : r.pointUtf16ToOffset (pointUtf16Of x) = some (byteLen x)
  offsetUtf16ToOffset : r.offsetUtf16ToOffset (unitsOf x) = some (byteLen x)
  pointUtf16ToPoint : r.pointUtf16ToPoint (pointUtf16Of x) = some (pointOf x)
  pointUtf16ToOffsetUtf16 : r.pointUtf16ToOffsetUtf16 (pointUtf16Of x) = some (unitsOf x)

theorem lastRow_of_lineStart {before u : List Char} (hbefore : LineStart before) (hu : '\n' ∉ u) :
    Rows.lastRow '\n' (before ++ u) = u := by
  have hline : Rows.lastRow '\n' u = u := (Rows.of_splitOn (@Rows.splitOn_append_of_not_mem _ _ '\n' [] u hu)).2
  rcases hbefore with rfl | ⟨p, rfl⟩
  · exact hline
  · rw [append_assoc, singleton_append, Rows.lastRow_append_sep, hline]

open Scale

theorem pos_of_rowed {d : TextDimension Point} {e : TextDimension Nat} (hrowed : Rowed d e) (x : List Char) :
    d.ofText x = ⟨x.count '\n', e.ofText (Rows.lastRow '\n' x)⟩ := by
  obtain ⟨before, u, rfl, hbefore, hu⟩ := exists_lastLine x
  rw [lastRow_of_lineStart hbefore hu, hrowed.line hbefore hu, count_append, List.count_eq_zero.mpr hu,
    add_zero]

theorem pos_point (x : List Char) : (points .point).pos x = pointOf x :=
  (pos_of_rowed point_rowed x).trans (congrArg (Point.mk _) (pos_usize _))

theorem pos_pointUtf16 (x : List Char) : (points .pointUtf16).pos x = pointUtf16Of x :=
  (pos_of_rowed pointUtf16_rowed x).trans (congrArg (Point.mk _) (pos_offsetUtf16 _))

example : (ropeOf [['a', '\n', '😀'], ['b']]).pointUtf16ToOffset ⟨1, 2⟩ = some 6 := by decide +kernel

end SpkEditor.Chunked
