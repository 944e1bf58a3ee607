import SpkEditor.Rope.ChunkClip

/-!
# Clipping in a rope

`clip_offset`, `clip_offset_utf16`, `clip_point` and `clip_point_utf16` of `rope/src/rope.rs`. An offset in
bytes is rounded to a character by the chunk that it is in. The others look for the chunk with `Bias::Right`,
so that a position between two chunks is at the start of the second one, and clip what is left in that chunk
alone. A result at the end of the chunk is found again in the next one.

The chunks are found in their list; the tree adds up the same summaries in larger steps.
-/

namespace SpkEditor.Chunked

open List

variable {D : Type}

/-- `find`: the first chunk whose end is not passed, and where it starts. -/
def findChunk (d : TextDimension D) (passes : D → Bool) (start : D) : List Chunk → Option (D × Option Chunk)
  | [] => some (start, none)
  | chunk :: rest => do
      let summary ← ChunkSlice.textSummary chunk
      let stop := d.addSummary start summary
      if passes stop then findChunk d passes stop rest else some (start, some chunk)

namespace Rope

/-- `summary`. -/
def summary (r : Rope) : Option TextSummary := Cursor.chunksSummary .textSummary .zero r.chunks

/-- The search of `floor_char_boundary` and `ceil_char_boundary`, with `Bias::Left`. -/
def charBoundary (boundary : List Char → Nat → Nat) (r : Rope) (index : Nat) : Option Nat := do
  let found ← findChunk .usize (· < index) 0 r.chunks
  let chunkOffset ← Patch.checkedSub index found.1
  match found.2 with
  | some chunk => some (found.1 + boundary chunk.text chunkOffset)
  | none => some r.len

/-- `floor_char_boundary`. -/
def floorCharBoundary (r : Rope) (index : Nat) : Option Nat :=
  if r.len ≤ index then some r.len else r.charBoundary Chunked.floorCharBoundary index

/-- `ceil_char_boundary`. -/
def ceilCharBoundary (r : Rope) (index : Nat) : Option Nat :=
  if r.len < index then some r.len else r.charBoundary Chunked.ceilCharBoundary index

/-- `clip_offset`. -/
def clipOffset (r : Rope) (offset : Nat) : Bias → Option Nat
  | .left => r.floorCharBoundary offset
  | .right => r.ceilCharBoundary offset

/-- A position is clipped in the chunk that it is in. -/
def clipIn (m : Scale D) (clip : ChunkSlice → D → Bias → Option D) (r : Rope) (position : D) (bias : Bias) :
    Option D := do
  let found ← findChunk m.dim (fun stop => !m.lt position stop) m.dim.zero r.chunks
  match found.2 with
  | some chunk => do
      let overshoot ← m.sub position found.1
      (clip chunk overshoot bias).map (m.dim.addAssign found.1)
  | none => r.summary.map m.dim.fromTextSummary

/-- `clip_offset_utf16`. -/
def clipOffsetUtf16 : Rope → Nat → Bias → Option Nat := clipIn (.offsets .offsetUtf16) ChunkSlice.clipOffsetUtf16

/-- `clip_point`. -/
def clipPoint (isBoundary : List Char → Nat → Bool) : Rope → Point → Bias → Option Point :=
  clipIn (.points .point) (ChunkSlice.clipPoint isBoundary)

/-- `clip_point_utf16`. -/
def clipPointUtf16 : Rope → Point → Bias → Option Point := clipIn (.points .pointUtf16) ChunkSlice.clipPointUtf16

end Rope

section

variable {d : TextDimension D} {passes : D → Bool} {ts us vs : List (List Char)}

theorem findChunk_cons (hd : d.Lawful) (before : List Char) {t : List Char} (ht : byteLen t ≤ MAX_BASE) :
    findChunk d passes (d.ofText before) ((t :: ts).map chunkOf) =
      if passes (d.ofText (before ++ t)) then findChunk d passes (d.ofText (before ++ t)) (ts.map chunkOf)
      else some (d.ofText before, some (chunkOf t)) := by
  rw [map_cons, findChunk, textSummary_chunkOf ht]
  exact congrArg (fun stop => if passes stop then findChunk d passes stop (ts.map chunkOf)
    else some (d.ofText before, some (chunkOf t))) (hd.addSummary before t)

theorem findChunk_append (hd : d.Lawful)
    (hmono : ∀ s t : List Char, passes (d.ofText (s ++ t)) → passes (d.ofText s))
    (before : List Char) (hus : ∀ u ∈ us, byteLen u ≤ MAX_BASE)
    (h : us ≠ [] → passes (d.ofText (before ++ us.flatten))) :
    findChunk d passes (d.ofText before) ((us ++ vs).map chunkOf) =
      findChunk d passes (d.ofText (before ++ us.flatten)) (vs.map chunkOf) := by
  induction us generalizing before with
  | nil => rw [flatten_nil, append_nil, nil_append]
  | cons u us ih =>
    obtain ⟨hu, hrest⟩ := List.forall_mem_cons.mp hus
    have hpassed := h (cons_ne_nil u us)
    rw [flatten_cons, ← append_assoc] at hpassed ⊢
    rw [cons_append, findChunk_cons hd before hu, if_pos (hmono _ _ hpassed)]
    exact ih (before ++ u) hrest fun _ => hpassed

theorem exists_chunk (passes : D → Bool) (d : TextDimension D) (before : List Char) (ts : List (List Char)) :
    (∃ us t vs, ts = us ++ t :: vs ∧ (us ≠ [] → passes (d.ofText (before ++ us.flatten))) ∧
      ¬ passes (d.ofText (before ++ us.flatten ++ t))) ∨
    (ts ≠ [] → passes (d.ofText (before ++ ts.flatten))) := by
  induction ts generalizing before with
  | nil => exact .inr fun h => absurd rfl h
  | cons t ts ih =>
    by_cases ht : passes (d.ofText (before ++ t))
    · rcases ih (before ++ t) with ⟨us, u, vs, rfl, hus, hu⟩ | hall
      · refine .inl ⟨t :: us, u, vs, rfl, fun _ => ?_, by rwa [flatten_cons, ← append_assoc]⟩
        rw [flatten_cons, ← append_assoc]
        cases us with
        | nil => rwa [flatten_nil, append_nil]
        | cons u us => exact hus (cons_ne_nil u us)
      · refine .inr fun _ => ?_
        rw [flatten_cons, ← append_assoc]
        cases ts with
        | nil => rwa [flatten_nil, append_nil]
        | cons u us => exact hall (cons_ne_nil u us)
    · exact .inl ⟨[], t, ts, rfl, fun h => absurd rfl h, by rwa [flatten_nil, append_nil]⟩

/-- **The search** stops at a chunk whose end is not passed, behind one whose end is. -/
theorem findChunk_spec (hd : d.Lawful)
    (hmono : ∀ s t : List Char, passes (d.ofText (s ++ t)) → passes (d.ofText s))
    (hts : ∀ t ∈ ts, byteLen t ≤ MAX_BASE) (hall : ts ≠ [] → ¬ passes (d.ofText ts.flatten)) :
    ts = [] ∨ ∃ us t vs, ts = us ++ t :: vs ∧ (us ≠ [] → passes (d.ofText us.flatten)) ∧
      ¬ passes (d.ofText (us.flatten ++ t)) ∧
      findChunk d passes d.zero (ts.map chunkOf) = some (d.ofText us.flatten, some (chunkOf t)) := by
  rcases exists_chunk passes d [] ts with ⟨us, t, vs, rfl, hus, ht⟩ | hpassed
  · rw [nil_append] at hus ht
    refine .inr ⟨us, t, vs, rfl, hus, ht, ?_⟩
    have hbefore : ∀ u ∈ us, byteLen u ≤ MAX_BASE := fun u hu => hts u (mem_append_left _ hu)
    rw [hd.zero, findChunk_append hd hmono [] hbefore hus, findChunk_cons hd _ (hts t (by simp)), nil_append,
      if_neg ht]
  · by_cases hne : ts = []
    · exact .inl hne
    · exact absurd (hpassed hne) (hall hne)

end

/-! ## From the chunks to the rope -/

section

open Scale

variable {m : Scale D} {clip : ChunkSlice → D → Bias → Option D} {ts us vs : List (List Char)} {t : List Char}

theorem passes_mono (hm : m.Lawful) (p : D) (s t : List Char) (h : (!m.lt p (m.dim.ofText (s ++ t))) = true) :
    (!m.lt p (m.dim.ofText s)) = true := by
  rw [Bool.not_eq_true'] at h ⊢
  refine Bool.eq_false_iff.mpr fun hs => ?_
  exact Bool.false_ne_true (h.symm.trans (hm.lt_pos_append s t hs))

theorem passes_of_le {s : List Char} {p : D} (h : m.Le (m.pos s) p) : (!m.lt p (m.dim.ofText s)) = true := by
  rw [Bool.not_eq_true']
  exact Bool.eq_false_iff.mpr h

section

variable (hm : m.Lawful)
include hm

theorem clipIn_chunk (hts : ∀ u ∈ us ++ t :: vs, byteLen u ≤ MAX_BASE) {o : D}
    (hlt : m.lt o (m.pos t)) (bias : Bias) :
    Rope.clipIn m clip (ropeOf (us ++ t :: vs)) (m.dim.addAssign (m.pos us.flatten) o) bias =
      (clip (chunkOf t) o bias).map (m.dim.addAssign (m.pos us.flatten)) := by
  have hbehind : m.lt (m.dim.addAssign (m.pos us.flatten) o) (m.dim.ofText (us.flatten ++ t)) = true := by
    have happend : m.dim.ofText (us.flatten ++ t) = m.dim.addAssign (m.pos us.flatten) (m.pos t) :=
      hm.pos_append us.flatten t
    rw [happend]
    exact (hm.add_lt _ _ _).mpr hlt
  have hfound : findChunk m.dim (fun stop => !m.lt (m.dim.addAssign (m.pos us.flatten) o) stop) m.dim.zero
      ((us ++ t :: vs).map chunkOf) = some (m.pos us.flatten, some (chunkOf t)) := by
    rw [hm.dim.zero, findChunk_append hm.dim (passes_mono hm _) [] (fun u hu => hts u (mem_append_left _ hu))
      fun _ => passes_of_le (hm.le_add us.flatten o), findChunk_cons hm.dim _ (hts t (by simp)), nil_append,
      hbehind]
    rfl
  refine (congrArg (Option.bind · _) hfound).trans ?_
  simp only [Option.bind_some, hm.add_sub]
  rfl

theorem clipIn_end (hts : ∀ u ∈ ts, byteLen u ≤ MAX_BASE) {p : D}
    (hle : m.Le (m.pos ts.flatten) p) (bias : Bias) :
    Rope.clipIn m clip (ropeOf ts) p bias = some (m.pos ts.flatten) := by
  have hfound : findChunk m.dim (fun stop => !m.lt p stop) m.dim.zero (ts.map chunkOf) =
      some (m.dim.ofText ts.flatten, none) := by
    have hall := @findChunk_append D m.dim (fun stop => !m.lt p stop) ts [] hm.dim (passes_mono hm p) [] hts
      fun _ => passes_of_le hle
    rw [append_nil, nil_append] at hall
    rw [hm.dim.zero, hall]
    rfl
  have hsummary : (ropeOf ts).summary = some (.ofText ts.flatten) :=
    Cursor.chunksSummary_map TextDimension.textSummary_lawful [] hts
  refine (congrArg (Option.bind · _) hfound).trans ?_
  simp only [Option.bind_some, hsummary]
  rfl

theorem settled_chunk (hts : ∀ u ∈ us ++ t :: vs, Piece u)
    (hclip : ∀ u, byteLen u ≤ MAX_BASE → m.ClipLaws u (clip (chunkOf u))) {c : D}
    (h : m.Settled t (clip (chunkOf t)) c) :
    m.Settled (us ++ t :: vs).flatten (Rope.clipIn m clip (ropeOf (us ++ t :: vs)))
      (m.dim.addAssign (m.pos us.flatten) c) := by
  have hle : ∀ u ∈ us ++ t :: vs, byteLen u ≤ MAX_BASE := fun u hu => (hts u hu).le
  obtain ⟨⟨x, y, rfl, rfl⟩, hkeeps⟩ := h
  refine ⟨⟨us.flatten ++ x, y ++ vs.flatten, by simp, hm.pos_append _ _⟩, fun bias => ?_⟩
  by_cases hy : y = []
  · subst hy
    rw [append_nil] at hts hle ⊢
    rw [← hm.pos_append]
    cases vs with
    | nil =>
      have hflatten : (us ++ [x]).flatten = us.flatten ++ x := by simp
      rw [← hflatten]
      exact clipIn_end hm hle (hm.irrefl _) bias
    | cons v vs =>
      have hcut : us ++ x :: v :: vs = (us ++ [x]) ++ v :: vs := by simp
      have hpos : m.pos (us.flatten ++ x) = m.dim.addAssign (m.pos (us ++ [x]).flatten) (m.pos []) := by
        rw [← hm.pos_append]
        simp
      have hv : Piece v := hts v (by simp)
      have hlt : m.lt (m.pos []) (m.pos v) := hm.grows [] hv.ne_nil
      rw [hcut] at hle ⊢
      rw [hpos, clipIn_chunk hm hle hlt, (hclip v hv.le).start hm bias]
      rfl
  · rw [clipIn_chunk hm hle (hm.grows x hy), hkeeps bias]
    rfl

theorem past_chunk {s w : List Char} {o : D} (h : m.Past t o) (hlt : m.lt o (m.pos t)) :
    m.Past (s ++ t ++ w) (m.dim.addAssign (m.pos s) o) := by
  -- the row ends in the chunk
  have hrow : m.row o < m.row (m.pos t) := by
    refine lt_of_le_of_ne (hm.row_le (hm.asymm hlt)) fun heq => ?_
    exact hm.asymm (h t [] (append_nil t).symm heq.symm) hlt
  intro x z htext hx
  rw [hm.row_add] at hx
  rcases le_total (byteLen x) (byteLen s) with hle | hle
  · -- in front of the chunk
    rw [append_assoc] at htext
    obtain ⟨r, rfl, -⟩ := exists_append_of_byteLen_le htext.symm hle
    have hrows := hm.row_le (hm.pos_le x r)
    have hstart := h [] t rfl (by have := hm.row_le (hm.start_le o); omega)
    have hlater := (hm.add_lt (m.pos (x ++ r)) _ _).mpr hstart
    rw [← hm.pos_append, append_nil] at hlater
    exact hm.pos_lt_of_lt x r hlater
  · rcases le_total (byteLen (s ++ t)) (byteLen x) with hbehind | hwithin
    · obtain ⟨r, rfl, -⟩ := exists_append_of_byteLen_le htext hbehind
      have hrows := hm.row_le (hm.pos_le (s ++ t) r)
      rw [hm.pos_append s t, hm.row_add] at hrows
      omega
    · obtain ⟨r, hr, -⟩ := exists_append_of_byteLen_le htext.symm hwithin
      obtain ⟨x', rfl, ht⟩ := exists_append_of_byteLen_le hr hle
      rw [hm.pos_append, hm.row_add] at hx
      rw [hm.pos_append]
      exact (hm.add_lt _ _ _).mpr (h x' r ht (by omega))

theorem clipIn_laws (hts : ∀ t ∈ ts, Piece t)
    (hclip : ∀ t, byteLen t ≤ MAX_BASE → m.ClipLaws t (clip (chunkOf t))) :
    m.ClipLaws ts.flatten (Rope.clipIn m clip (ropeOf ts)) := by
  refine .of fun p => ?_
  rcases exists_chunk (fun stop => !m.lt p stop) m.dim [] ts with ⟨us, t, vs, rfl, hus, ht⟩ | hall
  · have hle : m.Le (m.pos us.flatten) p := by
      by_cases hnil : us = []
      · subst hnil
        exact hm.start_le p
      · have hpassed := hus hnil
        rw [Bool.not_eq_true'] at hpassed
        exact Bool.eq_false_iff.mp hpassed
    obtain ⟨o, -, rfl⟩ := hm.sub hle
    have hlt : m.lt o (m.pos t) := by
      rw [Bool.not_eq_true, Bool.not_eq_false'] at ht
      rw [← hm.add_lt (m.pos us.flatten), ← hm.pos_append]
      exact ht
    have hfits : ∀ u ∈ us ++ t :: vs, byteLen u ≤ MAX_BASE := fun u hu => (hts u hu).le
    obtain ⟨l, r, hl, hr, hlsettled, hrsettled, hlo, hor, hlr⟩ := (hclip t (hfits t (by simp))).clips o
    have hadd : ∀ {a b}, m.Le a b →
        m.Le (m.dim.addAssign (m.pos us.flatten) a) (m.dim.addAssign (m.pos us.flatten) b) :=
      fun hab h => hab ((hm.add_lt _ _ _).mp h)
    refine ⟨_, _, ?_, ?_, settled_chunk hm hts hclip hlsettled, settled_chunk hm hts hclip hrsettled,
      hadd hlo, ?_, hadd hlr⟩
    · rw [clipIn_chunk hm hfits hlt, hl, Option.map_some]
    · rw [clipIn_chunk hm hfits hlt, hr, Option.map_some]
    · rcases hor with hor | hpast
      · exact .inl (hadd hor)
      · have hflatten : (us ++ t :: vs).flatten = us.flatten ++ t ++ vs.flatten := by simp
        rw [hflatten]
        exact .inr (past_chunk hm hpast hlt)
  · have hle : m.Le (m.pos ts.flatten) p := by
      by_cases hnil : ts = []
      · subst hnil
        exact hm.start_le p
      · have hpassed := hall hnil
        rw [Bool.not_eq_true'] at hpassed
        exact Bool.eq_false_iff.mp hpassed
    have hend : ∀ {q}, m.Le (m.pos ts.flatten) q → ∀ bias,
        Rope.clipIn m clip (ropeOf ts) q bias = some (m.pos ts.flatten) := fun hq bias =>
      clipIn_end hm (fun u hu => (hts u hu).le) hq bias
    have hsettled : m.Settled ts.flatten (Rope.clipIn m clip (ropeOf ts)) (m.pos ts.flatten) :=
      ⟨⟨ts.flatten, [], (append_nil _).symm, rfl⟩, hend (hm.irrefl _)⟩
    refine ⟨_, _, hend hle .left, hend hle .right, hsettled, hsettled, hle, ?_, hm.irrefl _⟩
    by_cases hpast : m.lt (m.pos ts.flatten) p = true
    · exact .inr (hm.past_of_lt hpast)
    · exact .inl hpast

end

end

/-! ## Offsets in bytes -/

section

open Scale

variable {ts : List (List Char)} {t : List Char} {n : Nat}

theorem floorCharBoundary_spec (t : List Char) (n : Nat) :
    Boundary t (Chunked.floorCharBoundary t n) ∧ Chunked.floorCharBoundary t n ≤ n :=
  ⟨⟨_, _, (splitFloor_append n t).symm, rfl⟩, byteLen_splitFloor_le n t⟩

theorem ceilCharBoundary_spec (hn : n ≤ byteLen t) :
    Boundary t (Chunked.ceilCharBoundary t n) ∧ n ≤ Chunked.ceilCharBoundary t n := by
  have happend := splitFloor_append n t
  have hnext := @lt_of_splitFloor n t
  rw [Chunked.ceilCharBoundary]
  rcases hparts : splitFloor n t with ⟨before, after⟩
  rw [hparts] at happend hnext
  subst happend
  cases after with
  | nil => exact ⟨⟨before, [], rfl, rfl⟩, by simpa using hn⟩
  | cons c after =>
    by_cases heq : byteLen before = n
    · simp only [if_pos heq]
      exact ⟨⟨before, c :: after, rfl, heq⟩, le_refl n⟩
    · simp only [if_neg heq]
      refine ⟨⟨before ++ [c], after, by simp, ?_⟩, le_of_lt (hnext rfl)⟩
      rw [byteLen_append, byteLen_cons, byteLen_nil, add_zero]

theorem charBoundary_keeps (x z : List Char) :
    Chunked.floorCharBoundary (x ++ z) (byteLen x) = byteLen x ∧
      Chunked.ceilCharBoundary (x ++ z) (byteLen x) = byteLen x := by
  rw [Chunked.floorCharBoundary, Chunked.ceilCharBoundary, splitFloor_byteLen]
  refine ⟨rfl, ?_⟩
  cases z with
  | nil => rfl
  | cons c z => exact if_pos rfl

/-- An offset in the rope is rounded in the chunk that it is in, or at the end of. -/
theorem charBoundary_spec (hts : ∀ t ∈ ts, byteLen t ≤ MAX_BASE) (hne : ts ≠ []) (hn : n ≤ byteLen ts.flatten) :
    ∃ us t vs o, ts = us ++ t :: vs ∧ n = byteLen us.flatten + o ∧ o ≤ byteLen t ∧
      ∀ boundary, (ropeOf ts).charBoundary boundary n = some (byteLen us.flatten + boundary t o) := by
  have hpos : ∀ s : List Char, TextDimension.usize.ofText s = byteLen s := pos_usize
  have hmono : ∀ s t : List Char, decide (TextDimension.usize.ofText (s ++ t) < n) = true →
      decide (TextDimension.usize.ofText s < n) = true := by
    intro s t h
    rw [decide_eq_true_eq, hpos, byteLen_append] at h
    rw [decide_eq_true_eq, hpos]
    omega
  have hend : ts ≠ [] → ¬ decide (TextDimension.usize.ofText ts.flatten < n) = true := by
    rw [decide_eq_true_eq, hpos]
    omega
  rcases @findChunk_spec Nat .usize (fun stop => decide (stop < n)) ts TextDimension.usize_lawful hmono hts
    hend with hnil | ⟨us, t, vs, rfl, hus, ht, hfound⟩
  · exact absurd hnil hne
  · simp only [decide_eq_true_eq, hpos] at hus ht
    have hle : byteLen us.flatten ≤ n := by
      by_cases hnil : us = []
      · simp [hnil]
      · exact le_of_lt (hus hnil)
    rw [byteLen_append] at ht
    refine ⟨us, t, vs, n - byteLen us.flatten, rfl, by omega, by omega, fun boundary => ?_⟩
    rw [hpos] at hfound
    refine (congrArg (Option.bind · _) hfound).trans ?_
    simp only [Option.bind_some, Patch.checkedSub, if_pos hle]
    rfl

theorem charBoundary_nil (boundary : List Char → Nat → Nat) : (ropeOf []).charBoundary boundary 0 = some 0 := rfl

section

variable (hts : ∀ t ∈ ts, byteLen t ≤ MAX_BASE) {x z : List Char} (htext : ts.flatten = x ++ z)
include hts htext

/-- Where a part of the text ends is kept, by whatever keeps it in the chunk. -/
theorem charBoundary_part {boundary : List Char → Nat → Nat} (hkeeps : ∀ x z, boundary (x ++ z) (byteLen x) = byteLen x) :
    (ropeOf ts).charBoundary boundary (byteLen x) = some (byteLen x) := by
  by_cases hne : ts = []
  · subst hne
    obtain ⟨rfl, -⟩ := List.append_eq_nil_iff.mp htext.symm
    exact charBoundary_nil boundary
  · have hle : byteLen x ≤ byteLen ts.flatten := by
      rw [htext, byteLen_append]
      omega
    obtain ⟨us, t, vs, o, rfl, hlen, ho, hfound⟩ := charBoundary_spec hts hne hle
    have hflatten : (us ++ t :: vs).flatten = us.flatten ++ (t ++ vs.flatten) := by simp
    obtain ⟨x', rfl, hrest⟩ := exists_append_of_byteLen_le (hflatten.symm.trans htext) (by omega)
    rw [byteLen_append, Nat.add_left_cancel_iff] at hlen
    obtain ⟨y, rfl, -⟩ := exists_append_of_byteLen_le hrest.symm (by omega)
    rw [hfound, ← hlen, hkeeps, byteLen_append]

theorem clipOffset_part (bias : Bias) : (ropeOf ts).clipOffset (byteLen x) bias = some (byteLen x) := by
  have hle : byteLen x ≤ byteLen ts.flatten := by
    rw [htext, byteLen_append]
    omega
  cases bias with
  | left =>
    rw [Rope.clipOffset, Rope.floorCharBoundary, len_ropeOf]
    split
    · next hfull => exact congrArg some (le_antisymm hfull hle)
    · exact charBoundary_part hts htext fun x z => (charBoundary_keeps x z).1
  | right =>
    rw [Rope.clipOffset, Rope.ceilCharBoundary, len_ropeOf, if_neg (Nat.not_lt.mpr hle)]
    exact charBoundary_part hts htext fun x z => (charBoundary_keeps x z).2

end

theorem Boundary.of_chunk {us vs : List (List Char)} {i : Nat} (h : Boundary t i) :
    Boundary (us ++ t :: vs).flatten (byteLen us.flatten + i) := by
  obtain ⟨x, z, rfl, rfl⟩ := h
  exact ⟨us.flatten ++ x, z ++ vs.flatten, by simp, byteLen_append ..⟩

section

variable (hts : ∀ t ∈ ts, byteLen t ≤ MAX_BASE)
include hts

theorem clipOffset_left (n : Nat) :
    ∃ p, (ropeOf ts).clipOffset n .left = some p ∧ Boundary ts.flatten p ∧ p ≤ n := by
  rw [Rope.clipOffset, Rope.floorCharBoundary, len_ropeOf]
  by_cases hn : byteLen ts.flatten ≤ n
  · exact ⟨_, if_pos hn, ⟨ts.flatten, [], (append_nil _).symm, rfl⟩, hn⟩
  · rw [if_neg hn]
    have hne : ts ≠ [] := by
      rintro rfl
      exact hn (Nat.zero_le n)
    obtain ⟨us, t, vs, o, rfl, rfl, ho, hfound⟩ := charBoundary_spec hts hne (Nat.le_of_not_le hn)
    obtain ⟨hbound, hle⟩ := floorCharBoundary_spec t o
    exact ⟨_, hfound _, hbound.of_chunk, Nat.add_le_add_left hle _⟩

theorem clipOffset_right (n : Nat) :
    ∃ p, (ropeOf ts).clipOffset n .right = some p ∧ Boundary ts.flatten p ∧
      (n ≤ p ∨ byteLen ts.flatten < n ∧ p = byteLen ts.flatten) := by
  rw [Rope.clipOffset, Rope.ceilCharBoundary, len_ropeOf]
  by_cases hn : byteLen ts.flatten < n
  · exact ⟨_, if_pos hn, ⟨ts.flatten, [], (append_nil _).symm, rfl⟩, .inr ⟨hn, rfl⟩⟩
  · rw [if_neg hn]
    by_cases hne : ts = []
    · subst hne
      obtain rfl : n = 0 := Nat.le_zero.mp (Nat.le_of_not_lt hn)
      exact ⟨0, charBoundary_nil _, Boundary.zero _, .inl (Nat.le_refl 0)⟩
    · obtain ⟨us, t, vs, o, rfl, rfl, ho, hfound⟩ := charBoundary_spec hts hne (Nat.le_of_not_lt hn)
      obtain ⟨hbound, hle⟩ := ceilCharBoundary_spec ho
      exact ⟨_, hfound _, hbound.of_chunk, .inl (Nat.add_le_add_left hle _)⟩

theorem clipOffset_laws : (offsets .usize).ClipLaws ts.flatten (ropeOf ts).clipOffset := by
  refine .of fun n => ?_
  obtain ⟨l, hl, hlbound, hle⟩ := clipOffset_left hts n
  obtain ⟨r, hr, hrbound, hle'⟩ := clipOffset_right hts n
  have hsettled : ∀ {p}, Boundary ts.flatten p →
      (offsets .usize).Settled ts.flatten (ropeOf ts).clipOffset p := by
    rintro p ⟨x, z, htext, rfl⟩
    exact ⟨⟨x, z, htext, pos_usize x⟩, clipOffset_part hts htext⟩
  simp only [le_offsets, past_offsets usize_lawful]
  refine ⟨l, r, hl, hr, hsettled hlbound, hsettled hrbound, hle, ?_, ?_⟩
  · rcases hle' with hle' | ⟨hpast, -⟩
    · exact .inl hle'
    · exact .inr (lt_of_le_of_lt (le_of_eq (pos_usize ts.flatten)) hpast)
  · rcases hle' with hle' | ⟨-, rfl⟩
    · exact le_trans hle hle'
    · exact hlbound.le

end

end

/-! ## The four -/

open Scale

/-- What `is_boundary` says of letters with combining marks: there is none in front of a mark. -/
def letterBoundary (text : List Char) (column : Nat) : Bool :=
  let parts := splitFloor column text
  parts.1.isEmpty || parts.2.head?.all fun c => c.val < 0x300 || 0x36f < c.val

theorem letterBoundary_start (text : List Char) : letterBoundary text 0 = true := by
  rw [letterBoundary, show splitFloor 0 text = ([], text) from splitFloor_byteLen [] text]
  rfl

theorem letterBoundary_end (text : List Char) : letterBoundary text (byteLen text) = true := by
  have hparts := splitFloor_byteLen text []
  rw [append_nil] at hparts
  rw [letterBoundary, hparts]
  exact Bool.or_true _

example : (ropeOf [['a', 'e', '\u0301', '\n'], ['😀', 'b']]).clipPoint letterBoundary ⟨0, 2⟩ .left = some ⟨0, 1⟩ ∧
    (ropeOf [['a', 'e', '\u0301', '\n'], ['😀', 'b']]).clipPoint letterBoundary ⟨0, 2⟩ .right = some ⟨0, 4⟩ := by
  decide +kernel

end SpkEditor.Chunked
