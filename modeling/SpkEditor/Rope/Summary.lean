import SpkEditor.Rope.ChunkSummary
import SpkEditor.Rope.RopeProof

/-!
# Summaries of ranges

`Cursor::summary`: what a `TextDimension` says of the text between a cursor and an offset. It is added up
from the part of the chunk that the cursor is at, from the subtrees in between, and from the beginning of
the chunk that the range ends in.

A dimension is lawful if adding it up is reading it off the summary of the joined text (`Lawful`). All the
dimensions of the rope are (`IsTextDimension.lawful`), so a summary does not depend on how the text is cut
into chunks, nor on the shape of the tree.
-/

namespace SpkEditor.Chunked

open List

/-! ## Dimensions -/

/-- `TextDimension`, with the `Dimension` over the summaries of chunks that it extends. -/
structure TextDimension (D : Type) where
  zero : D
  addSummary : D → TextSummary → D
  fromTextSummary : TextSummary → D
  fromChunk : ChunkSlice → Option D
  addAssign : D → D → D

namespace TextDimension

variable {D K V : Type}

/-- `impl TextDimension for TextSummary`. -/
def textSummary : TextDimension TextSummary :=
  ⟨.zero, .add, id, ChunkSlice.textSummary, .add⟩

/-- `impl TextDimension for usize`, and for `BufferOffset`, which wraps it. -/
def usize : TextDimension Nat := ⟨0, fun n s => n + s.len, TextSummary.len, fun c => some (Chunk.len c), (· + ·)⟩

/-- `impl TextDimension for OffsetUtf16`. -/
def offsetUtf16 : TextDimension Nat :=
  ⟨0, fun n s => n + s.lenUtf16, TextSummary.lenUtf16, fun c => some (ChunkSlice.lenUtf16 c), (· + ·)⟩

/-- `impl TextDimension for Point`. -/
def point : TextDimension Point :=
  ⟨.zero, fun p s => p.add s.lines, TextSummary.lines, fun c => some (ChunkSlice.lines c), .add⟩

/-- `lines_utf16`. -/
def linesUtf16 (s : TextSummary) : Point := ⟨s.lines.row, s.lastLineLenUtf16⟩

/-- `impl TextDimension for PointUtf16`. -/
def pointUtf16 : TextDimension Point :=
  ⟨.zero, fun p s => p.add (linesUtf16 s), linesUtf16,
    fun c => some ⟨(ChunkSlice.lines c).row, ChunkSlice.lastLineLenUtf16 c⟩, .add⟩

/-- `impl TextDimension for Dimensions<D1, D2, ()>`. -/
def dimensions (k : TextDimension K) (v : TextDimension V) : TextDimension (K × V) where
  zero := (k.zero, v.zero)
  addSummary d s := (k.addSummary d.1 s, v.addSummary d.2 s)
  fromTextSummary s := (k.fromTextSummary s, v.fromTextSummary s)
  fromChunk c := do
    let key ← k.fromChunk c
    let value ← v.fromChunk c
    some (key, value)
  addAssign d e := (k.addAssign d.1 e.1, v.addAssign d.2 e.2)

/-- `impl TextDimension for DimensionPair<K, V>`, whose value may be missing. -/
def dimensionPair (k : TextDimension K) (v : TextDimension V) : TextDimension (K × Option V) where
  zero := (k.zero, some v.zero)
  addSummary d s := (k.addSummary d.1 s, d.2.map (v.addSummary · s))
  fromTextSummary s := (k.fromTextSummary s, some (v.fromTextSummary s))
  fromChunk c := do
    let key ← k.fromChunk c
    let value ← v.fromChunk c
    some (key, some value)
  addAssign d e := (k.addAssign d.1 e.1, d.2.bind fun value => e.2.map (v.addAssign value))

def ofText (d : TextDimension D) (text : List Char) : D := d.fromTextSummary (.ofText text)

/-- **What is added up is the dimension of the joined text.** -/
structure Lawful (d : TextDimension D) : Prop where
  zero : d.zero = d.ofText []
  addSummary : ∀ s t, d.addSummary (d.ofText s) (.ofText t) = d.ofText (s ++ t)
  addAssign : ∀ s t, d.addAssign (d.ofText s) (d.ofText t) = d.ofText (s ++ t)
  fromChunk : ∀ t, byteLen t ≤ MAX_BASE → d.fromChunk (chunkOf t) = some (d.ofText t)

theorem lines_append (s t : List Char) :
    (TextSummary.ofText (s ++ t)).lines = (TextSummary.ofText s).lines.add (TextSummary.ofText t).lines := by
  rw [TextSummary.ofText_append]
  rfl

theorem linesUtf16_append (s t : List Char) :
    linesUtf16 (.ofText (s ++ t)) = (linesUtf16 (.ofText s)).add (linesUtf16 (.ofText t)) := by
  rw [TextSummary.ofText_append]
  simp only [linesUtf16, TextSummary.add, Point.add]
  split
  · next h => simp [h]
  · next h => simp [h]

theorem textSummary_lawful : textSummary.Lawful := by
  refine ⟨rfl, fun s t => ?_, fun s t => ?_, fun t ht => textSummary_chunkOf ht⟩
  · exact (TextSummary.ofText_append s t).symm
  · exact (TextSummary.ofText_append s t).symm

theorem usize_lawful : usize.Lawful := by
  have happ : ∀ s t, usize.ofText (s ++ t) = usize.ofText s + usize.ofText t := fun s t =>
    congrArg TextSummary.len (TextSummary.ofText_append s t)
  refine ⟨rfl, fun s t => (happ s t).symm, fun s t => (happ s t).symm, fun t _ => ?_⟩
  exact congrArg some (TextSummary.len_ofText t).symm

theorem offsetUtf16_lawful : offsetUtf16.Lawful := by
  have happ : ∀ s t, offsetUtf16.ofText (s ++ t) = offsetUtf16.ofText s + offsetUtf16.ofText t := fun s t =>
    congrArg TextSummary.lenUtf16 (TextSummary.ofText_append s t)
  refine ⟨rfl, fun s t => (happ s t).symm, fun s t => (happ s t).symm, fun t ht => ?_⟩
  exact congrArg some ((countOnes_unitBits ht).trans (lenUtf16_ofText t).symm)

theorem point_lawful : point.Lawful :=
  ⟨rfl, fun s t => (lines_append s t).symm, fun s t => (lines_append s t).symm,
    fun _ ht => congrArg some (lines_chunkOf ht)⟩

theorem pointUtf16_lawful : pointUtf16.Lawful := by
  refine ⟨rfl, fun s t => (linesUtf16_append s t).symm, fun s t => (linesUtf16_append s t).symm, fun t ht => ?_⟩
  change some (Point.mk (ChunkSlice.lines (chunkOf t)).row (ChunkSlice.lastLineLenUtf16 (chunkOf t))) = _
  rw [lines_chunkOf ht, lastLineLenUtf16_chunkOf ht]
  rfl

section

variable {k : TextDimension K} {v : TextDimension V} (hk : k.Lawful) (hv : v.Lawful)
include hk hv

theorem dimensions_lawful : (dimensions k v).Lawful := by
  refine ⟨Prod.ext hk.zero hv.zero, fun s t => ?_, fun s t => ?_, fun t ht => ?_⟩
  · exact Prod.ext (hk.addSummary s t) (hv.addSummary s t)
  · exact Prod.ext (hk.addAssign s t) (hv.addAssign s t)
  · simp only [dimensions, hk.fromChunk t ht, hv.fromChunk t ht]
    rfl

theorem dimensionPair_lawful : (dimensionPair k v).Lawful := by
  refine ⟨Prod.ext hk.zero (congrArg some hv.zero), fun s t => ?_, fun s t => ?_, fun t ht => ?_⟩
  · exact Prod.ext (hk.addSummary s t) (congrArg some (hv.addSummary s t))
  · exact Prod.ext (hk.addAssign s t) (congrArg some (hv.addAssign s t))
  · simp only [dimensionPair, hk.fromChunk t ht, hv.fromChunk t ht]
    rfl

end

end TextDimension

/-- The implementations of `TextDimension`. -/
inductive IsTextDimension : {D : Type} → TextDimension D → Prop
  | textSummary : IsTextDimension TextDimension.textSummary
  | usize : IsTextDimension TextDimension.usize
  | offsetUtf16 : IsTextDimension TextDimension.offsetUtf16
  | point : IsTextDimension TextDimension.point
  | pointUtf16 : IsTextDimension TextDimension.pointUtf16
  | dimensions {K V : Type} {k : TextDimension K} {v : TextDimension V} : IsTextDimension k →
      IsTextDimension v → IsTextDimension (.dimensions k v)
  | dimensionPair {K V : Type} {k : TextDimension K} {v : TextDimension V} : IsTextDimension k →
      IsTextDimension v → IsTextDimension (.dimensionPair k v)

theorem IsTextDimension.lawful {D : Type} {d : TextDimension D} (h : IsTextDimension d) : d.Lawful := by
  induction h with
  | textSummary => exact TextDimension.textSummary_lawful
  | usize => exact TextDimension.usize_lawful
  | offsetUtf16 => exact TextDimension.offsetUtf16_lawful
  | point => exact TextDimension.point_lawful
  | pointUtf16 => exact TextDimension.pointUtf16_lawful
  | dimensions _ _ hk hv => exact TextDimension.dimensions_lawful hk hv
  | dimensionPair _ _ hk hv => exact TextDimension.dimensionPair_lawful hk hv

/-! ## The summaries of the tree -/

inductive TreeSummary : List Chunk → TextSummary → Prop
  | zero : TreeSummary [] .zero
  | chunk {c : Chunk} {s : TextSummary} : ChunkSlice.textSummary c = some s → TreeSummary [c] s
  | add {a b : List Chunk} {s t : TextSummary} : TreeSummary a s → TreeSummary b t →
      TreeSummary (a ++ b) (s.add t)

/-- What `sum_tree::Cursor::summary` adds up: the summaries of the subtrees that it passes as a whole. -/
inductive SeekSummary {D : Type} (d : TextDimension D) : List Chunk → D → Prop
  | zero : SeekSummary d [] d.zero
  | tree {a b : List Chunk} {v : D} {s : TextSummary} : SeekSummary d a v → TreeSummary b s →
      SeekSummary d (a ++ b) (d.addSummary v s)

theorem map_eq_append {ts : List (List Char)} {a b : List Chunk} (h : ts.map chunkOf = a ++ b) :
    ∃ us vs, ts = us ++ vs ∧ a = us.map chunkOf ∧ b = vs.map chunkOf := by
  obtain ⟨us, vs, rfl, rfl, rfl⟩ := List.map_eq_append_iff.mp h
  exact ⟨us, vs, rfl, rfl, rfl⟩

theorem TreeSummary.eq {cs : List Chunk} {s : TextSummary} (h : TreeSummary cs s) {ts : List (List Char)}
    (hcs : cs = ts.map chunkOf) (hts : ∀ t ∈ ts, byteLen t ≤ MAX_BASE) : s = .ofText ts.flatten := by
  induction h generalizing ts with
  | zero =>
    obtain rfl := List.map_eq_nil_iff.mp hcs.symm
    rfl
  | @chunk c s hc =>
    obtain ⟨t, rfl, rfl⟩ := List.map_eq_singleton_iff.mp hcs.symm
    rw [textSummary_chunkOf (hts t mem_cons_self)] at hc
    rw [flatten_singleton]
    exact (Option.some.inj hc).symm
  | add _ _ iha ihb =>
    obtain ⟨us, vs, rfl, ha, hb⟩ := map_eq_append hcs.symm
    rw [iha ha fun t ht => hts t (mem_append_left _ ht), ihb hb fun t ht => hts t (mem_append_right _ ht),
      flatten_append, TextSummary.ofText_append]

theorem SeekSummary.eq {D : Type} {d : TextDimension D} (hd : d.Lawful) {cs : List Chunk} {v : D}
    (h : SeekSummary d cs v) {ts : List (List Char)} (hcs : cs = ts.map chunkOf)
    (hts : ∀ t ∈ ts, byteLen t ≤ MAX_BASE) : v = d.ofText ts.flatten := by
  induction h generalizing ts with
  | zero =>
    obtain rfl := List.map_eq_nil_iff.mp hcs.symm
    exact hd.zero
  | tree _ htree ih =>
    obtain ⟨us, vs, rfl, ha, hb⟩ := map_eq_append hcs.symm
    rw [ih ha fun t ht => hts t (mem_append_left _ ht),
      htree.eq hb fun t ht => hts t (mem_append_right _ ht), hd.addSummary, flatten_append]

namespace Cursor

variable {D : Type}

/-- The chunks, one by one. Adding up larger subtrees gives the same (`SeekSummary.eq`). -/
def chunksSummary (d : TextDimension D) : D → List Chunk → Option D
  | v, [] => some v
  | v, chunk :: chunks => do
      let s ← ChunkSlice.textSummary chunk
      chunksSummary d (d.addSummary v s) chunks

/-- The part of the chunk that the cursor is at. -/
def summaryStart (d : TextDimension D) (c : Cursor) (endOffset : Nat) : Option D :=
  match c.chunks.rest with
  | [] => some d.zero
  | startChunk :: _ =>
    if c.offset < c.chunks.start then none
    else do
      let part ← ChunkSlice.slice startChunk (c.offset - c.chunks.start)
        (min endOffset c.chunks.stop - c.chunks.start)
      let value ← d.fromChunk part
      some (d.addAssign d.zero value)

/-- The chunks that are passed, and the beginning of the one that the range ends in. -/
def summaryRest (d : TextDimension D) (chunks : ChunkCursor) (endOffset : Nat) (summary : D) :
    Option (D × ChunkCursor) := do
  let passed := chunks.next.slice endOffset
  let value ← chunksSummary d d.zero passed.1
  let summary := d.addAssign summary value
  match passed.2.rest with
  | [] => some (summary, passed.2)
  | endChunk :: _ => do
      let part ← ChunkSlice.slice endChunk 0 (endOffset - passed.2.start)
      let value ← d.fromChunk part
      some (d.addAssign summary value, passed.2)

/-- `Cursor::summary`. -/
def summary (d : TextDimension D) (c : Cursor) (endOffset : Nat) : Option (D × Cursor) :=
  if c.offset ≤ endOffset ∧ endOffset ≤ c.rope.len then do
    let summary ← c.summaryStart d endOffset
    if c.chunks.stop < endOffset then do
      let r ← summaryRest d c.chunks endOffset summary
      some (r.1, { c with chunks := r.2, offset := endOffset })
    else some (summary, { c with offset := endOffset })
  else none

/-- Where ranges of these texts end. -/
def stops (start : Nat) : List (List Char) → List Nat
  | [] => []
  | y :: ys => (start + byteLen y) :: stops (start + byteLen y) ys

/-- One range after the other. -/
def summaries (d : TextDimension D) : Cursor → List Nat → Option (List D)
  | _, [] => some []
  | c, stop :: stops => do
      let r ← c.summary d stop
      let rest ← summaries d r.2 stops
      some (r.1 :: rest)

section

variable {d : TextDimension D} (hd : d.Lawful)
include hd

theorem chunksSummary_map {ts : List (List Char)} (s : List Char)
    (hts : ∀ t ∈ ts, byteLen t ≤ MAX_BASE) :
    chunksSummary d (d.ofText s) (ts.map chunkOf) = some (d.ofText (s ++ ts.flatten)) := by
  induction ts generalizing s with
  | nil => rw [flatten_nil, append_nil, map_nil, chunksSummary]
  | cons t ts ih =>
    obtain ⟨ht, hrest⟩ := List.forall_mem_cons.mp hts
    rw [map_cons, chunksSummary, textSummary_chunkOf ht]
    refine (congrArg (chunksSummary d · (ts.map chunkOf)) (hd.addSummary s t)).trans ?_
    rw [ih (s ++ t) hrest, append_assoc, flatten_cons]

/-- The chunks that are passed, and the beginning of the one that the range ends in. -/
theorem summaryRest_spec {passed rest : List (List Char)}
    {t y z : List Char} (s : List Char) (hrest : rest.flatten = y ++ z)
    (hle : ∀ u ∈ rest, byteLen u ≤ MAX_BASE) {stop : Nat}
    (hstop : stop = byteLen passed.flatten + byteLen t + byteLen y) :
    ∃ p r, summaryRest d ⟨byteLen passed.flatten, (t :: rest).map chunkOf⟩ stop (d.ofText s) =
        some (d.ofText (s ++ y), ⟨byteLen p.flatten, r.map chunkOf⟩) ∧
      passed ++ t :: rest = p ++ r ∧ byteLen p.flatten ≤ stop ∧
      stop ≤ byteLen p.flatten + byteLen (r.head?.getD []) := by
  obtain ⟨a, b, y₂, rfl, rfl, hnext, h₁, h₂, hb⟩ := next_slice_cut hle hrest hstop
  have hpassed : chunksSummary d d.zero (a.map chunkOf) = some (d.ofText a.flatten) := by
    rw [hd.zero, chunksSummary_map hd [] fun u hu => hle u (mem_append_left _ hu), nil_append]
  refine ⟨passed ++ t :: a, b, ?_, by simp, h₁, h₂⟩
  rw [summaryRest, hnext]
  refine Option.bind_eq_some_iff.mpr ⟨_, hpassed, ?_⟩
  rw [hd.addAssign]
  rcases hb with ⟨rfl, rfl⟩ | ⟨e, b, rfl, hy₂, hslice⟩
  · rw [append_nil]
    rfl
  · refine Option.bind_eq_some_iff.mpr ⟨chunkOf y₂, hslice, ?_⟩
    refine Option.bind_eq_some_iff.mpr ⟨_, hd.fromChunk y₂ hy₂, ?_⟩
    rw [hd.addAssign, append_assoc]

/-- **The summary of a range** is the dimension of its text, and leaves the cursor at its end. -/
theorem At.summary {ts passed rest : List (List Char)} {c : Cursor}
    (hts : ∀ t ∈ ts, byteLen t ≤ MAX_BASE) (h : c.At ts passed rest) {x y z : List Char}
    (htext : ts.flatten = x ++ y ++ z) (hx : byteLen x = c.offset) :
    ∃ c' p r, c.summary d (byteLen (x ++ y)) = some (d.ofText y, c') ∧ c'.At ts p r ∧
      c'.offset = byteLen (x ++ y) := by
  have hlen : c.rope.len = byteLen (x ++ y) + byteLen z := by
    rw [h.rope, len_ropeOf, htext, byteLen_append]
  have hxy := byteLen_append x y
  rw [Cursor.summary, if_pos (by omega)]
  rcases h.range hts htext hx with ⟨rfl, rfl, hstop⟩ | ⟨t, rest, y₁, y₂, rfl, rfl, hy₁, hslice, hcase⟩
  · -- the cursor is at the end, and the range is empty
    have hstart : c.summaryStart d (byteLen (x ++ [])) = some (d.ofText []) := by
      rw [Cursor.summaryStart, h.chunks, ← hd.zero]
      rfl
    have hle := h.le
    exact ⟨_, passed, [], Option.bind_eq_some_iff.mpr ⟨_, hstart, if_neg hstop⟩,
      h.moved (by omega) (by simpa [hx] using hle), rfl⟩
  · have hstart : c.summaryStart d (byteLen (x ++ (y₁ ++ y₂))) = some (d.ofText y₁) := by
      rw [Cursor.summaryStart, show c.chunks.rest = chunkOf t :: rest.map chunkOf by rw [h.chunks]; rfl]
      refine (if_neg h.not_lt_start).trans (Option.bind_eq_some_iff.mpr ⟨_, hslice, ?_⟩)
      refine Option.bind_eq_some_iff.mpr ⟨_, hd.fromChunk y₁ hy₁, ?_⟩
      rw [hd.zero, hd.addAssign, nil_append]
    rcases hcase with ⟨hmore, hrest, hend⟩ | ⟨hmore, rfl, hend⟩
    · obtain ⟨p, r, hsrest, hpr, h₁, h₂⟩ := summaryRest_spec hd y₁ hrest
        (fun u hu => hts u (by simp [h.split, hu])) hend
      refine ⟨⟨c.rope, ⟨byteLen p.flatten, r.map chunkOf⟩, byteLen (x ++ (y₁ ++ y₂))⟩, p, r,
        Option.bind_eq_some_iff.mpr ⟨_, hstart, ?_⟩, ⟨h.rope, h.split.trans hpr, rfl, h₁, h₂⟩, rfl⟩
      rw [if_pos hmore, h.chunks, hsrest]
      rfl
    · rw [append_nil] at hstart hmore hend hxy ⊢
      exact ⟨_, passed, _, Option.bind_eq_some_iff.mpr ⟨_, hstart, if_neg hmore⟩,
        h.moved (by omega) hend, rfl⟩

theorem At.summaries {ts : List (List Char)}
    (hts : ∀ t ∈ ts, byteLen t ≤ MAX_BASE) (ys : List (List Char)) {passed rest : List (List Char)}
    {c : Cursor} (h : c.At ts passed rest) {x z : List Char} (htext : ts.flatten = x ++ ys.flatten ++ z)
    (hx : byteLen x = c.offset) :
    c.summaries d (stops c.offset ys) = some (ys.map d.ofText) := by
  induction ys generalizing c passed rest x with
  | nil => rfl
  | cons y ys ih =>
    rw [flatten_cons, ← append_assoc] at htext
    obtain ⟨c', p, r, hsummary, hat, hoffset⟩ := h.summary hd hts
      (show ts.flatten = x ++ y ++ (ys.flatten ++ z) by rw [htext, append_assoc]) hx
    have hstop : c.offset + byteLen y = byteLen (x ++ y) := by rw [byteLen_append, hx]
    have hrest := ih hat htext hoffset.symm
    rw [stops, hstop, Cursor.summaries]
    refine Option.bind_eq_some_iff.mpr ⟨_, hsummary, ?_⟩
    rw [hoffset] at hrest
    exact Option.bind_eq_some_iff.mpr ⟨_, hrest, rfl⟩

end

end Cursor

end SpkEditor.Chunked
