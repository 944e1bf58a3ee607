import SpkEditor.Rope.Chunks
import SpkEditor.Rope.RopeProof

/-!
# What the iterator gives

The cursor of a forward `Chunks` stays at the chunk of the offset, unless the offset is at the end of the
range (`Stands`). Each operation is specified by how it cuts the text: a seek and `next` by the text in
front of the offset, the lines by the text up to the next newline, or back to the last one.
-/

namespace SpkEditor.Chunked

open List Option

variable {ts : List (List Char)} {p : ChunkPlace} {y : List Char}

theorem strFind_of_not_mem {a : Char} {text : List Char} (h : a ∉ text) : strFind a text = none := by
  induction text with
  | nil => rfl
  | cons c text ih =>
    obtain ⟨hc, htext⟩ := ne_and_not_mem_of_not_mem_cons h
    rw [strFind, if_neg (Ne.symm hc), ih htext, map_none]

theorem strFind_append {a : Char} {u : List Char} (h : a ∉ u) (w : List Char) :
    strFind a (u ++ a :: w) = some (byteLen u) := by
  induction u with
  | nil => exact if_pos rfl
  | cons c u ih =>
    obtain ⟨hc, hu⟩ := ne_and_not_mem_of_not_mem_cons h
    rw [cons_append, strFind, if_neg (Ne.symm hc), ih hu, map_some, byteLen_cons]

theorem strRfind_of_not_mem {a : Char} {text : List Char} (h : a ∉ text) : strRfind a text = none := by
  induction text with
  | nil => rfl
  | cons c text ih =>
    obtain ⟨hc, htext⟩ := ne_and_not_mem_of_not_mem_cons h
    rw [strRfind, ih htext]
    exact if_neg (Ne.symm hc)

theorem strRfind_append {a : Char} {w : List Char} (h : a ∉ w) (u : List Char) :
    strRfind a (u ++ a :: w) = some (byteLen u) := by
  induction u with
  | nil =>
    rw [nil_append, strRfind, strRfind_of_not_mem h]
    exact if_pos rfl
  | cons c u ih =>
    rw [cons_append, strRfind, ih, byteLen_cons]

/-- The cursor between two parts of the list of chunks. -/
def placeAt (passed rest : List (List Char)) : ChunkPlace :=
  .at (passed.reverse.map chunkOf) (rest.map chunkOf)

theorem sum_map_len (ts : List (List Char)) : ((ts.map chunkOf).map Chunk.len).sum = byteLen ts.flatten := by
  induction ts with
  | nil => rfl
  | cons t ts ih =>
    rw [map_cons, map_cons, sum_cons, ih, flatten_cons, byteLen_append, chunkOf_len]

@[simp] theorem placeAt_start (passed rest : List (List Char)) :
    (placeAt passed rest).start = byteLen passed.flatten := by
  rw [← sum_map_len, placeAt, ChunkPlace.start]
  simp only [map_reverse, sum_reverse]

section

variable (passed : List (List Char))

@[simp] theorem placeAt_item_nil : (placeAt passed []).item = none := rfl

@[simp] theorem placeAt_item_cons (t : List Char) (rest : List (List Char)) :
    (placeAt passed (t :: rest)).item = some (chunkOf t) := rfl

@[simp] theorem placeAt_stop_nil :
    (placeAt passed []).stop = byteLen passed.flatten := placeAt_start passed []

@[simp] theorem placeAt_stop_cons (t : List Char) (rest : List (List Char)) :
    (placeAt passed (t :: rest)).stop = byteLen passed.flatten + byteLen t := by
  rw [ChunkPlace.stop, placeAt_start]
  rfl

end

@[simp] theorem placeAt_all (passed rest : List (List Char)) :
    (placeAt passed rest).all = (passed ++ rest).map chunkOf := by
  simp [placeAt, ChunkPlace.all]

theorem placeAt_cons (passed : List (List Char)) (t : List Char) (rest : List (List Char)) :
    ChunkPlace.at (chunkOf t :: passed.reverse.map chunkOf) (rest.map chunkOf) = placeAt (passed ++ [t]) rest := by
  simp [placeAt]

theorem hasRows_chunkOf {t : List Char} (h : byteLen t ≤ MAX_BASE) :
    hasRows (chunkOf t) = true ↔ '\n' ∈ t := by
  rw [hasRows, lines_chunkOf h, row_ofText, decide_eq_true_eq, count_pos_iff]

theorem skipForward_spec (rest : List (List Char)) (hle : ∀ t ∈ rest, byteLen t ≤ MAX_BASE)
    (passed : List (List Char)) :
    ∃ a b, rest = a ++ b ∧ '\n' ∉ a.flatten ∧
      ChunkPlace.skipForward hasRows (passed.reverse.map chunkOf) (rest.map chunkOf) = placeAt (passed ++ a) b ∧
      (b = [] ∨ ∃ t b', b = t :: b' ∧ '\n' ∈ t) := by
  induction rest generalizing passed with
  | nil => exact ⟨[], [], rfl, not_mem_nil, by rw [append_nil]; rfl, .inl rfl⟩
  | cons t rest ih =>
    obtain ⟨ht, hrest⟩ := List.forall_mem_cons.mp hle
    by_cases hrows : hasRows (chunkOf t) = true
    · refine ⟨[], t :: rest, rfl, not_mem_nil, ?_, .inr ⟨t, rest, rfl, (hasRows_chunkOf ht).mp hrows⟩⟩
      rw [map_cons, ChunkPlace.skipForward, if_pos hrows, append_nil]
      rfl
    · obtain ⟨a, b, rfl, ha, hskip, hb⟩ := ih hrest (passed ++ [t])
      refine ⟨t :: a, b, rfl, ?_, ?_, hb⟩
      · rw [flatten_cons, mem_append]
        exact not_or.mpr ⟨fun hmem => hrows ((hasRows_chunkOf ht).mpr hmem), ha⟩
      · rw [map_cons, ChunkPlace.skipForward, if_neg hrows]
        simpa using hskip

/-- A search backward, too; it may get ahead of all the chunks. -/
theorem skipBackward_spec (passed : List (List Char)) (hle : ∀ t ∈ passed, byteLen t ≤ MAX_BASE)
    (rest : List (List Char)) :
    (∃ a t b, passed = a ++ t :: b ∧ '\n' ∈ t ∧ '\n' ∉ b.flatten ∧
      ChunkPlace.skipBackward hasRows (rest.map chunkOf) (passed.reverse.map chunkOf) =
        placeAt a (t :: (b ++ rest))) ∨
      '\n' ∉ passed.flatten ∧
        (ChunkPlace.skipBackward hasRows (rest.map chunkOf) (passed.reverse.map chunkOf)).item = none ∧
        (ChunkPlace.skipBackward hasRows (rest.map chunkOf) (passed.reverse.map chunkOf)).start = 0 ∧
        (ChunkPlace.skipBackward hasRows (rest.map chunkOf) (passed.reverse.map chunkOf)).all =
          (passed ++ rest).map chunkOf := by
  induction passed using List.reverseRecOn generalizing rest with
  | nil =>
    refine .inr ⟨not_mem_nil, ?_⟩
    rw [reverse_nil, map_nil, ChunkPlace.skipBackward, nil_append]
    split
    · next h => exact ⟨rfl, rfl, h.symm⟩
    · exact ⟨rfl, rfl, rfl⟩
  | append_singleton passed t ih =>
    have ht := hle t (by simp)
    have hpassed : ∀ u ∈ passed, byteLen u ≤ MAX_BASE := fun u hu => hle u (by simp [hu])
    have hskip : ChunkPlace.skipBackward hasRows (rest.map chunkOf) ((passed ++ [t]).reverse.map chunkOf) =
        if hasRows (chunkOf t) then placeAt passed (t :: rest)
        else ChunkPlace.skipBackward hasRows ((t :: rest).map chunkOf) (passed.reverse.map chunkOf) := by
      rw [reverse_append, reverse_singleton, singleton_append, map_cons, ChunkPlace.skipBackward]
      rfl
    rw [hskip]
    by_cases hrows : hasRows (chunkOf t) = true
    · rw [if_pos hrows]
      exact .inl ⟨passed, t, [], rfl, (hasRows_chunkOf ht).mp hrows, not_mem_nil, rfl⟩
    · rw [if_neg hrows]
      have hnone : '\n' ∉ t := fun hmem => hrows ((hasRows_chunkOf ht).mpr hmem)
      rcases ih hpassed (t :: rest) with ⟨a, u, b, rfl, hu, hb, heq⟩ | ⟨hmem, hitem, hstart, hall⟩
      · refine .inl ⟨a, u, b ++ [t], by simp, hu, ?_, by simpa using heq⟩
        simpa using ⟨fun l hl => fun h => hb (List.mem_flatten.mpr ⟨l, hl, h⟩), hnone⟩
      · refine .inr ⟨?_, hitem, hstart, by simpa using hall⟩
        simpa using ⟨fun l hl => fun h => hmem (List.mem_flatten.mpr ⟨l, hl, h⟩), hnone⟩

/-- A seek passes the chunks that end before the target, and with `Bias::Right` those that end at it. -/
def Passes (bias : Bias) (stop target : Nat) : Prop := stop < target ∨ bias = .right ∧ stop = target

instance (bias : Bias) (stop target : Nat) : Decidable (Passes bias stop target) :=
  inferInstanceAs (Decidable (_ ∨ _))

theorem passes_left {m n : Nat} : Passes .left m n ↔ m < n := by simp [Passes]

theorem passes_right {m n : Nat} : Passes .right m n ↔ m ≤ n := by
  rw [Passes, Nat.le_iff_lt_or_eq]
  simp

theorem seekOn_spec (bias : Bias) (target : Nat) (passed rest : List (List Char)) :
    ∃ a b, rest = a ++ b ∧
      ChunkPlace.seekOn bias target (byteLen passed.flatten) (passed.reverse.map chunkOf) (rest.map chunkOf) =
        placeAt (passed ++ a) b ∧
      (a = [] ∨ Passes bias (byteLen (passed ++ a).flatten) target) ∧
      ∀ t b', b = t :: b' → ¬ Passes bias (byteLen (passed ++ a).flatten + byteLen t) target := by
  induction rest generalizing passed with
  | nil => exact ⟨[], [], rfl, by rw [append_nil]; rfl, .inl rfl, fun _ _ h => nomatch h⟩
  | cons t rest ih =>
    have hflat : byteLen (passed ++ [t]).flatten = byteLen passed.flatten + byteLen t := by
      simp [byteLen_append]
    have hseek : ChunkPlace.seekOn bias target (byteLen passed.flatten) (passed.reverse.map chunkOf)
        ((t :: rest).map chunkOf) =
        if Passes bias (byteLen passed.flatten + byteLen t) target then
          ChunkPlace.seekOn bias target (byteLen (passed ++ [t]).flatten) ((passed ++ [t]).reverse.map chunkOf)
            (rest.map chunkOf)
        else placeAt passed (t :: rest) := by
      rw [map_cons, ChunkPlace.seekOn, chunkOf_len, hflat, reverse_append, reverse_singleton,
        singleton_append, map_cons]
      rfl
    rw [hseek]
    by_cases hpass : Passes bias (byteLen passed.flatten + byteLen t) target
    · rw [if_pos hpass]
      obtain ⟨a, b, rfl, heq, ha, hb⟩ := ih (passed ++ [t])
      rw [append_assoc, singleton_append] at heq ha hb
      refine ⟨t :: a, b, rfl, heq, .inr ?_, hb⟩
      rcases ha with rfl | ha
      · rw [hflat]
        exact hpass
      · exact ha
    · rw [if_neg hpass]
      refine ⟨[], t :: rest, rfl, by rw [append_nil], .inl rfl, ?_⟩
      rintro t' b' ⟨⟩
      rwa [append_nil]

/-! ## Where the iterator stands -/

/-- The cursor is at the chunk of the character behind this part of the text; or of the one before it, if
that is where the range ends. -/
inductive Holds (ts : List (List Char)) (x : List Char) (stop : Nat) : ChunkPlace → Prop
  | inside {passed : List (List Char)} {x₁ t₁ : List Char} {rest : List (List Char)} :
      ts = passed ++ (x₁ ++ t₁) :: rest → x = passed.flatten ++ x₁ → (t₁ = [] → stop ≤ byteLen x) →
      Holds ts x stop (placeAt passed ((x₁ ++ t₁) :: rest))
  | atEnd : x = ts.flatten → Holds ts x stop (placeAt ts [])

/-- The cursor is ahead of a chunk, or behind the last one. -/
def Cut (ts : List (List Char)) (p : ChunkPlace) : Prop :=
  ∃ passed rest, ts = passed ++ rest ∧ p = placeAt passed rest

theorem Cut.all (h : Cut ts p) : p.all = ts.map chunkOf := by
  obtain ⟨passed, rest, rfl, rfl⟩ := h
  exact placeAt_all passed rest

theorem Holds.cut {x : List Char} {stop : Nat} (h : Holds ts x stop p) : Cut ts p := by
  cases h with
  | inside hts _ _ => exact ⟨_, _, hts, rfl⟩
  | atEnd _ => exact ⟨ts, [], (append_nil ts).symm, rfl⟩

theorem Holds.front {passed rest : List (List Char)} {t : List Char} (heq : ts = passed ++ t :: rest) (ht : t ≠ [])
    (stop : Nat) : Holds ts passed.flatten stop (placeAt passed (t :: rest)) :=
  @Holds.inside ts passed.flatten stop passed [] t rest heq (append_nil _).symm fun h => absurd h ht

/-- The cursor is at the chunk that the byte behind an offset is in, or behind the last chunk. -/
def Located (ts : List (List Char)) (offset : Nat) (p : ChunkPlace) : Prop :=
  ∃ passed rest, ts = passed ++ rest ∧ p = placeAt passed rest ∧ byteLen passed.flatten ≤ offset ∧
    ∀ t rest', rest = t :: rest' → offset < byteLen passed.flatten + byteLen t

theorem Located.cut {offset : Nat} (h : Located ts offset p) : Cut ts p := by
  obtain ⟨passed, rest, hts, hp, -⟩ := h
  exact ⟨passed, rest, hts, hp⟩

theorem located_seekOn {offset : Nat} {passed : List (List Char)} (rest : List (List Char))
    (hle : byteLen passed.flatten ≤ offset) :
    Located (passed ++ rest) offset
      (ChunkPlace.seekOn .right offset (byteLen passed.flatten) (passed.reverse.map chunkOf) (rest.map chunkOf)) := by
  obtain ⟨a, b, rfl, hseek, ha, hb⟩ := seekOn_spec .right offset passed rest
  refine ⟨passed ++ a, b, (append_assoc ..).symm, hseek, ?_, ?_⟩
  · rcases ha with rfl | ha
    · rwa [append_nil]
    · exact passes_right.mp ha
  · intro t b' heq
    exact Nat.lt_of_not_le (passes_right.not.mp (hb t b' heq))

theorem located_seek (hp : p.all = ts.map chunkOf) (offset : Nat) :
    Located ts offset (p.seek .right offset) := by
  rw [ChunkPlace.seek, hp]
  exact @located_seekOn offset [] ts (Nat.zero_le _)

theorem Located.holds {z : List Char} (h : Located ts (byteLen y) p)
    (htext : ts.flatten = y ++ z) (stop : Nat) : Holds ts y stop p := by
  obtain ⟨passed, rest, rfl, rfl, hle, hlt⟩ := h
  obtain ⟨y₁, rfl, hrest⟩ : ∃ m, y = passed.flatten ++ m ∧ rest.flatten = m ++ z :=
    exists_append_of_byteLen_le (by rw [← htext, flatten_append]) hle
  cases rest with
  | nil =>
    obtain ⟨rfl, -⟩ := List.append_eq_nil_iff.mp hrest.symm
    have hend : Holds passed passed.flatten stop (placeAt passed []) := .atEnd rfl
    simpa using hend
  | cons t rest =>
    have hlt := hlt t rest rfl
    rw [byteLen_append] at hlt
    obtain ⟨t₂, rfl, -⟩ : ∃ m, t = y₁ ++ m ∧ z = m ++ rest.flatten :=
      exists_append_of_byteLen_le hrest.symm (by omega)
    refine .inside rfl rfl fun ht₂ => ?_
    rw [ht₂, append_nil] at hlt
    exact absurd hlt (lt_irrefl _)

theorem holds_seek {z : List Char} (hts : ts.flatten = y ++ z) (stop : Nat)
    (hp : p.all = ts.map chunkOf) : Holds ts y stop (p.seek .right (byteLen y)) :=
  (located_seek hp _).holds hts stop

namespace Chunks

/-- A forward iterator whose offset comes behind this part of the text. -/
structure Stands (ts : List (List Char)) (x : List Char) (c : Chunks) : Prop where
  forward : c.reversed = false
  offset : c.offset = byteLen x
  holds : Holds ts x c.range.stop c.chunks

variable {c : Chunks} {x : List Char}

theorem new_spec (hts : ∀ t ∈ ts, Piece t) {z : List Char} (htext : ts.flatten = x ++ z) (stop : Nat) :
    ∃ c, Chunks.new (ropeOf ts) ⟨byteLen x, stop⟩ false = some c ∧ c.Stands ts x ∧
      c.range = ⟨byteLen x, stop⟩ := by
  have hholds : Holds ts x stop (ChunkPlace.seekOn .right (byteLen x) 0 [] (ropeOf ts).chunks) :=
    (@located_seekOn (byteLen x) [] ts (Nat.zero_le _)).holds htext stop
  refine ⟨⟨_, ⟨byteLen x, stop⟩, byteLen x, false⟩, ?_, ⟨rfl, rfl, hholds⟩, rfl⟩
  rw [Chunks.new]
  simp only [Bool.false_eq_true, if_false]
  generalize ChunkPlace.seekOn .right (byteLen x) 0 [] (ropeOf ts).chunks = p at hholds
  cases hholds with
  | @inside passed x₁ t₁ rest heq hx _ =>
    have hpiece : Piece (x₁ ++ t₁) := hts _ (by simp [heq])
    have hboundary := (isCharBoundary_chunkOf hpiece.le (byteLen x₁)).mpr ⟨x₁, t₁, rfl, rfl⟩
    have hlen : byteLen x = byteLen passed.flatten + byteLen x₁ := by rw [hx, byteLen_append]
    rw [placeAt_start, if_neg (by omega), placeAt_item_cons, hlen, Nat.add_sub_cancel_left]
    simp only [hboundary, if_true]
  | atEnd hx =>
    rw [placeAt_start, if_neg (by rw [hx]; omega), placeAt_item_nil]

theorem seek_of_cut (hforward : c.reversed = false) (hcut : Cut ts c.chunks) {offset : Nat}
    (hstart : c.range.start ≤ offset) (hstop : offset ≤ c.range.stop) :
    ∃ chunks, c.seek offset = some { c with chunks, offset } ∧ Located ts offset chunks := by
  have hclamp : min (max offset c.range.start) c.range.stop = offset := by omega
  rw [Chunks.seek, if_pos (by omega), hclamp]
  refine ⟨_, rfl, ?_⟩
  simp only [hforward, Bool.false_eq_true, if_false]
  have hall := hcut.all
  obtain ⟨passed, rest, rfl, hplace⟩ := hcut
  rw [hplace] at hall ⊢
  by_cases hahead : (placeAt passed rest).stop ≤ offset
  · -- forward, from where the cursor is
    rw [if_pos hahead]
    have hle : (placeAt passed rest).start ≤ offset := le_trans (Nat.le_add_right _ _) hahead
    rw [placeAt_start] at hle
    rw [placeAt, ChunkPlace.seekForward, ← placeAt, placeAt_start]
    exact located_seekOn rest hle
  · rw [if_neg hahead]
    by_cases hbehind : offset < (placeAt passed rest).start
    · rw [if_pos hbehind]
      exact located_seek hall offset
    · -- in the same chunk
      rw [if_neg hbehind]
      rw [placeAt_start] at hbehind
      refine ⟨passed, rest, rfl, rfl, by omega, ?_⟩
      rintro t rest' rfl
      rw [placeAt_stop_cons] at hahead
      omega

section

variable (h : c.Stands ts x)
include h

theorem Stands.seek {z : List Char} (htext : ts.flatten = y ++ z)
    (hstart : c.range.start ≤ byteLen y) (hstop : byteLen y ≤ c.range.stop) :
    ∃ c', c.seek (byteLen y) = some c' ∧ c'.Stands ts y ∧ c'.range = c.range := by
  obtain ⟨chunks, hseek, hloc⟩ := seek_of_cut h.forward h.holds.cut hstart hstop
  exact ⟨_, hseek, ⟨h.forward, rfl, hloc.holds htext _⟩, rfl⟩

theorem Stands.peek_end (hstop : c.range.stop ≤ byteLen x) : c.peek = some none := by
  have hvalid : c.offsetIsValid = false := by
    rw [offsetIsValid, h.forward, h.offset]
    simp [hstop]
  rw [peek, hvalid]
  rfl

theorem Stands.next_end (hstop : c.range.stop ≤ byteLen x) : c.next = some (none, c) := by
  rw [next, h.peek_end hstop]
  rfl

theorem Stands.chunk {v z : List Char} (htext : ts.flatten = x ++ (v ++ z)) (hv : v ≠ [])
    (hstop : c.range.stop = byteLen (x ++ v)) :
    ∃ passed x₁ t₁ rest, c.chunks = placeAt passed ((x₁ ++ t₁) :: rest) ∧ ts = passed ++ (x₁ ++ t₁) :: rest ∧
      x = passed.flatten ++ x₁ ∧ t₁ ≠ [] := by
  have hpos := byteLen_pos hv
  have hxv : byteLen (x ++ v) = byteLen x + byteLen v := byteLen_append x v
  have hholds := h.holds
  generalize c.chunks = p at hholds
  cases hholds with
  | atEnd hx =>
    rw [hx] at htext
    have := congrArg byteLen htext
    rw [byteLen_append, byteLen_append] at this
    omega
  | @inside passed x₁ t₁ rest heq hx hlast =>
    refine ⟨passed, x₁, t₁, rest, rfl, heq, hx, fun hnil => ?_⟩
    have := hlast hnil
    omega

theorem Stands.peek_spec {passed : List (List Char)} {x₁ t₁ : List Char}
    {rest : List (List Char)} (hplace : c.chunks = placeAt passed ((x₁ ++ t₁) :: rest))
    (heq : ts = passed ++ (x₁ ++ t₁) :: rest) (hx : x = passed.flatten ++ x₁) {v z : List Char}
    (htext : ts.flatten = x ++ (v ++ z)) (hv : v ≠ []) (hstart : c.range.start ≤ byteLen x)
    (hstop : c.range.stop = byteLen (x ++ v)) :
    (∃ v', v = t₁ ++ v' ∧ v' ++ z = rest.flatten ∧ c.peek = some (some t₁)) ∨
      ∃ t₂, t₁ = v ++ t₂ ∧ t₂ ≠ [] ∧ c.peek = some (some v) := by
  have hpos := byteLen_pos hv
  have hxv : byteLen (x ++ v) = byteLen x + byteLen v := byteLen_append x v
  have hvalid : c.offsetIsValid = true := by
    rw [offsetIsValid, h.forward, h.offset]
    simp
    omega
  have hpeek : c.peek =
      if byteLen x < byteLen passed.flatten ∨
          min (byteLen passed.flatten + byteLen (x₁ ++ t₁)) (byteLen (x ++ v)) < byteLen passed.flatten then none
      else (strSlice (x₁ ++ t₁) (byteLen x - byteLen passed.flatten)
        (min (byteLen passed.flatten + byteLen (x₁ ++ t₁)) (byteLen (x ++ v)) - byteLen passed.flatten)).map some := by
    rw [peek, hvalid, h.forward, h.offset, hstop, hplace, placeAt_item_cons, placeAt_start, placeAt_stop_cons]
    rfl
  have hxlen : byteLen x = byteLen passed.flatten + byteLen x₁ := by rw [hx, byteLen_append]
  have htlen : byteLen (x₁ ++ t₁) = byteLen x₁ + byteLen t₁ := byteLen_append x₁ t₁
  have hrest : t₁ ++ rest.flatten = v ++ z := by
    rw [heq, hx] at htext
    simpa using htext
  rw [if_neg (by omega), hxlen, Nat.add_sub_cancel_left] at hpeek
  by_cases hle : byteLen t₁ ≤ byteLen v
  · obtain ⟨v', rfl, hv'⟩ := exists_append_of_byteLen_le hrest hle
    refine .inl ⟨v', rfl, hv'.symm, ?_⟩
    have hslice := strSlice_append x₁ t₁ []
    rw [append_nil] at hslice
    rw [hpeek, min_eq_left (by omega), Nat.add_sub_cancel_left, hslice]
    rfl
  · obtain ⟨t₂, rfl, -⟩ := exists_append_of_byteLen_le hrest.symm (by omega)
    refine .inr ⟨t₂, rfl, fun hnil => hle (by simp [hnil]), ?_⟩
    have hslice := strSlice_append x₁ v t₂
    rw [append_assoc, byteLen_append] at hslice
    rw [hpeek, min_eq_right (by omega), hxv, hxlen, add_assoc, Nat.add_sub_cancel_left, hslice]
    rfl

end

theorem next_placeAt (passed : List (List Char)) (t : List Char) (rest : List (List Char)) :
    (placeAt passed (t :: rest)).next = placeAt (passed ++ [t]) rest := by
  have hskip : ∀ passed rest : List Chunk, ChunkPlace.skipForward (fun _ => true) passed rest = .at passed rest := by
    intro passed rest
    cases rest <;> rfl
  rw [placeAt, map_cons, ChunkPlace.next, ChunkPlace.searchForward, hskip, placeAt_cons]

theorem holds_next (hts : ∀ t ∈ ts, Piece t) {passed : List (List Char)} {t : List Char} {rest : List (List Char)}
    (heq : ts = passed ++ t :: rest) (stop : Nat) :
    Holds ts (passed ++ [t]).flatten stop (placeAt (passed ++ [t]) rest) := by
  cases rest with
  | nil => exact heq ▸ .atEnd rfl
  | cons u rest =>
    exact .front (by simp [heq]) (hts u (by simp [heq])).ne_nil stop

theorem Stands.next_spec (hts : ∀ t ∈ ts, Piece t) (h : c.Stands ts x) {v z : List Char}
    (htext : ts.flatten = x ++ (v ++ z)) (hv : v ≠ []) (hstart : c.range.start ≤ byteLen x)
    (hstop : c.range.stop = byteLen (x ++ v)) :
    ∃ t v' c', v = t ++ v' ∧ t ≠ [] ∧ c.peek = some (some t) ∧ c.next = some (some t, c') ∧
      c'.Stands ts (x ++ t) ∧ c'.range = c.range := by
  obtain ⟨passed, x₁, t₁, rest, hplace, heq, hx, ht₁⟩ := h.chunk htext hv hstop
  have hxlen : byteLen x = byteLen passed.flatten + byteLen x₁ := by rw [hx, byteLen_append]
  have hnext : ∀ t, c.peek = some (some t) → c.next = some (some t, { c with
        offset := byteLen x + byteLen t
        chunks := if c.chunks.stop ≤ byteLen x + byteLen t then c.chunks.next else c.chunks }) := by
    intro t hpeek
    rw [next, hpeek, h.forward, ← h.offset]
    rfl
  rcases h.peek_spec hplace heq hx htext hv hstart hstop with
    ⟨v', rfl, -, hpeek⟩ | ⟨t₂, rfl, ht₂, hpeek⟩
  · refine ⟨t₁, v', _, rfl, ht₁, hpeek, hnext t₁ hpeek, ⟨h.forward, (byteLen_append x t₁).symm, ?_⟩, rfl⟩
    have hflat : x ++ t₁ = (passed ++ [x₁ ++ t₁]).flatten := by simp [hx]
    simp only [hplace]
    rw [placeAt_stop_cons, byteLen_append, if_pos (by omega), next_placeAt, hflat]
    exact holds_next hts heq _
  · refine ⟨v, [], _, (append_nil v).symm, hv, hpeek, hnext v hpeek,
      ⟨h.forward, (byteLen_append x v).symm, ?_⟩, rfl⟩
    have hpos := byteLen_pos ht₂
    simp only [hplace]
    rw [placeAt_stop_cons, byteLen_append, byteLen_append, if_neg (by omega)]
    have hcut : x₁ ++ (v ++ t₂) = (x₁ ++ v) ++ t₂ := by rw [append_assoc]
    rw [hcut] at heq ⊢
    exact .inside heq (by rw [hx, append_assoc]) fun hnil => absurd hnil ht₂

/-! ## To the next line -/

/-- An offset in the chunk that the cursor is at, or at its end: there, `next` goes on to the next chunk. -/
theorem next_settles (hts : ∀ t ∈ ts, Piece t) {passed : List (List Char)} {x₁ t₁ : List Char}
    {rest : List (List Char)} (hforward : c.reversed = false) (hoffset : c.offset = byteLen x)
    (hplace : c.chunks = placeAt passed ((x₁ ++ t₁) :: rest)) (heq : ts = passed ++ (x₁ ++ t₁) :: rest)
    (hx : x = passed.flatten ++ x₁) (hstart : c.range.start ≤ byteLen x) :
    (c.offset = c.chunks.stop → ∃ o c', c.next = some (o, c') ∧ c'.Stands ts x ∧ c'.range = c.range) ∧
      (c.offset ≠ c.chunks.stop → c.Stands ts x) := by
  have hxlen : byteLen x = byteLen passed.flatten + byteLen x₁ := by rw [hx, byteLen_append]
  have htlen : byteLen (x₁ ++ t₁) = byteLen x₁ + byteLen t₁ := byteLen_append x₁ t₁
  rw [hoffset, hplace, placeAt_stop_cons]
  constructor
  · intro hstop
    obtain rfl : t₁ = [] := byteLen_eq_zero.mp (by omega)
    by_cases hend : c.range.stop ≤ byteLen x
    · have hstands : c.Stands ts x := ⟨hforward, hoffset, hplace ▸ .inside heq hx fun _ => hend⟩
      exact ⟨none, c, hstands.next_end hend, hstands, rfl⟩
    · have hvalid : c.offsetIsValid = true := by
        rw [offsetIsValid, hforward, hoffset]
        simp
        omega
      have hslice : strSlice (x₁ ++ []) (byteLen x - byteLen passed.flatten)
          (min (byteLen passed.flatten + byteLen (x₁ ++ [])) c.range.stop - byteLen passed.flatten) = some [] := by
        have h := strSlice_append x₁ [] []
        rw [append_nil] at h
        rw [min_eq_left (by omega), Nat.add_sub_cancel_left, hxlen, Nat.add_sub_cancel_left]
        exact h
      have hpeek : c.peek = some (some []) := by
        rw [peek, hvalid, hplace, hforward, hoffset]
        simp only [if_true, placeAt_item_cons, placeAt_start, placeAt_stop_cons, Bool.false_eq_true, if_false,
          chunkOf_text]
        rw [if_neg (by omega), hslice]
        rfl
      refine ⟨some [], { c with offset := byteLen x, chunks := placeAt (passed ++ [x₁ ++ []]) rest }, ?_,
        ⟨hforward, rfl, ?_⟩, rfl⟩
      · rw [next, hpeek]
        refine Option.bind_eq_some_iff.mpr ⟨_, rfl, ?_⟩
        simp only [hforward, Bool.false_eq_true, if_false, hplace, placeAt_stop_cons, hoffset, byteLen_nil,
          add_zero]
        rw [if_pos (by omega), next_placeAt]
      · have hflat : x = (passed ++ [x₁ ++ []]).flatten := by simp [hx]
        rw [hflat]
        exact holds_next hts heq _
  · intro hstop
    refine ⟨hforward, hoffset, hplace ▸ .inside heq hx fun hnil => ?_⟩
    rw [hnil, append_nil] at hstop
    exact absurd hxlen hstop

theorem first_newline_unique {u u' w w' : List Char} (h : u ++ '\n' :: w = u' ++ '\n' :: w') (hu : '\n' ∉ u)
    (hu' : '\n' ∉ u') : u = u' ∧ w = w' := by
  rcases List.append_eq_append_iff.mp h with ⟨r, hr, hw⟩ | ⟨r, hr, hw⟩
  · cases r with
    | nil => exact ⟨by rw [hr, append_nil], (List.cons.inj hw).2⟩
    | cons a r =>
      obtain ⟨rfl, -⟩ := List.cons.inj hw
      exact absurd (by simp [hr]) hu'
  · cases r with
    | nil => exact ⟨by rw [hr, append_nil], (List.cons.inj hw).2.symm⟩
    | cons a r =>
      obtain ⟨rfl, -⟩ := List.cons.inj hw
      exact absurd (by simp [hr]) hu

theorem Stands.peek_newline (h : c.Stands ts x) {passed : List (List Char)} {x₁ t₁ : List Char}
    {rest : List (List Char)} (hplace : c.chunks = placeAt passed ((x₁ ++ t₁) :: rest))
    (heq : ts = passed ++ (x₁ ++ t₁) :: rest) (hx : x = passed.flatten ++ x₁) {u v z : List Char}
    (hu : '\n' ∉ u) (htext : ts.flatten = x ++ ((u ++ '\n' :: v) ++ z)) (hstart : c.range.start ≤ byteLen x)
    (hstop : c.range.stop = byteLen (x ++ (u ++ '\n' :: v))) :
    ∃ t, c.peek = some (some t) ∧
      ((∃ t₂, t₁ = u ++ '\n' :: t₂ ∧ strFind '\n' t = some (byteLen u)) ∨
        ∃ u', u = t₁ ++ u' ∧ strFind '\n' t = none ∧ rest.flatten = u' ++ '\n' :: (v ++ z)) := by
  rcases h.peek_spec hplace heq hx htext (by simp) hstart hstop with
    ⟨v', hv', hrest, hpeek⟩ | ⟨t₂, rfl, -, hpeek⟩
  · refine ⟨t₁, hpeek, ?_⟩
    by_cases hmem : '\n' ∈ t₁
    · obtain ⟨u', t₂, rfl, hu'⟩ := eq_append_cons_of_mem hmem
      obtain ⟨rfl, -⟩ : u = u' ∧ v = t₂ ++ v' := first_newline_unique (by simpa using hv') hu hu'
      exact .inl ⟨t₂, rfl, strFind_append hu t₂⟩
    · obtain ⟨u', rfl, hv⟩ : ∃ m, u = t₁ ++ m ∧ v' = m ++ '\n' :: v := by
        rcases List.append_eq_append_iff.mp hv' with ⟨r, hr, hw⟩ | ⟨r, hr, hw⟩
        · cases r with
          | nil => exact ⟨[], by rw [hr, append_nil, append_nil], by simpa using hw.symm⟩
          | cons a r =>
            obtain ⟨rfl, -⟩ := List.cons.inj hw
            exact absurd (by simp [hr]) hmem
        · exact ⟨r, hr, hw⟩
      exact .inr ⟨u', rfl, strFind_of_not_mem hmem, by rw [← hrest, hv]; simp⟩
  · exact ⟨_, hpeek, .inl ⟨v ++ t₂, by simp, strFind_append hu v⟩⟩

/-- `next_line`, once the offset is behind a newline of the chunk. -/
theorem nextLine_of_pass (hts : ∀ t ∈ ts, Piece t) {passed : List (List Char)} {x₁ t₁ t : List Char}
    {rest : List (List Char)} {c₁ : Chunks} (hforward : c.reversed = false) (hpeek : c.peek = some (some t))
    (hpass : c.passNewline t = some (true, c₁)) (hforward₁ : c₁.reversed = false) (hrange : c₁.range = c.range)
    (hoffset : c₁.offset = byteLen y) (hplace : c₁.chunks = placeAt passed ((x₁ ++ t₁) :: rest))
    (heq : ts = passed ++ (x₁ ++ t₁) :: rest) (hy : y = passed.flatten ++ x₁)
    (hstart : c.range.start ≤ byteLen y) (hstop : byteLen y ≤ c.range.stop) :
    ∃ c', c.nextLine = some (true, c') ∧ c'.Stands ts y ∧ c'.range = c.range := by
  obtain ⟨hsettle, hstay⟩ := next_settles hts hforward₁ hoffset hplace heq hy (hrange ▸ hstart)
  obtain ⟨c', hadvance, hstands, hrange'⟩ :
      ∃ c', c.advanceLine = some (true, c') ∧ c'.Stands ts y ∧ c'.range = c.range := by
    have hadvance : c.advanceLine = if c₁.offset = c₁.chunks.stop then c₁.next.bind fun n => some (true, n.2)
        else some (true, c₁) := by
      rw [advanceLine, hpeek]
      refine (congrArg (Option.bind · _) hpass).trans ?_
      rfl
    by_cases hend : c₁.offset = c₁.chunks.stop
    · obtain ⟨o, c', hnext, hstands, hrange'⟩ := hsettle hend
      refine ⟨c', ?_, hstands, hrange'.trans hrange⟩
      rw [hadvance, if_pos hend, hnext]
      rfl
    · exact ⟨c₁, by rw [hadvance, if_neg hend], hstay hend, hrange⟩
  refine ⟨c', ?_, hstands, hrange'⟩
  rw [nextLine, hforward, if_neg Bool.false_ne_true]
  refine Option.bind_eq_some_iff.mpr ⟨_, hadvance, ?_⟩
  refine if_neg ?_
  rw [hrange', hstands.offset]
  omega

theorem byteLen_line (y u : List Char) : byteLen (y ++ (u ++ ['\n'])) = byteLen y + byteLen u + 1 := by
  rw [byteLen_append, byteLen_append, add_assoc]
  rfl

section

variable (hts : ∀ t ∈ ts, Piece t) (h : c.Stands ts x)
include hts h

theorem Stands.nextLine_true {u v z : List Char} (hu : '\n' ∉ u)
    (htext : ts.flatten = x ++ ((u ++ '\n' :: v) ++ z)) (hstart : c.range.start ≤ byteLen x)
    (hstop : c.range.stop = byteLen (x ++ (u ++ '\n' :: v))) :
    ∃ c', c.nextLine = some (true, c') ∧ c'.Stands ts (x ++ (u ++ ['\n'])) ∧ c'.range = c.range := by
  obtain ⟨passed, x₁, t₁, rest, hplace, heq, hx, -⟩ := h.chunk htext (by simp) hstop
  have hle : byteLen (x ++ (u ++ ['\n'])) ≤ c.range.stop := by
    have hlen := byteLen_append (x ++ (u ++ ['\n'])) v
    rw [hstop, show x ++ (u ++ '\n' :: v) = x ++ (u ++ ['\n']) ++ v by simp]
    omega
  have hge : c.range.start ≤ byteLen (x ++ (u ++ ['\n'])) := by
    rw [byteLen_line]
    omega
  obtain ⟨t, hpeek, ⟨t₂, rfl, hfind⟩ | ⟨u', rfl, hfind, hrest⟩⟩ := h.peek_newline hplace heq hx hu htext hstart hstop
  · -- in the chunk
    have hpass : c.passNewline t = some (true, { c with offset := byteLen (x ++ (u ++ ['\n'])) }) := by
      rw [passNewline, hfind]
      simp only [h.offset, ← byteLen_line, decide_eq_true hle]
    have hcut : x₁ ++ (u ++ '\n' :: t₂) = (x₁ ++ (u ++ ['\n'])) ++ t₂ := by simp
    rw [hcut] at hplace heq
    refine nextLine_of_pass hts h.forward hpeek hpass h.forward rfl rfl hplace heq ?_ hge hle
    rw [hx, append_assoc]
  · -- in the next one that has a newline
    obtain ⟨a, b, rfl, ha, hskip, hb⟩ := skipForward_spec rest (fun t ht => (hts t (by simp [heq, ht])).le)
      (passed ++ [x₁ ++ t₁])
    obtain ⟨t', b', rfl, ht'⟩ : ∃ t' b', b = t' :: b' ∧ '\n' ∈ t' := by
      rcases hb with rfl | hb
      · rw [append_nil] at hrest
        exact absurd (by simp [hrest]) ha
      · exact hb
    have hsearch : c.chunks.searchForward hasRows = placeAt (passed ++ [x₁ ++ t₁] ++ a) (t' :: b') := by
      rw [hplace, placeAt, map_cons, ChunkPlace.searchForward, ← hskip]
      simp
    have hne : t' ≠ [] := (hts t' (by simp [heq])).ne_nil
    have heq' : ts = (passed ++ [x₁ ++ t₁] ++ a) ++ t' :: b' := by simp [heq]
    -- the newline of that chunk is the one that is looked for
    obtain ⟨p, r, rfl, hp⟩ := eq_append_cons_of_mem ht'
    have hu' : '\n' ∉ u' := fun hmem => hu (mem_append_right _ hmem)
    obtain ⟨rfl, -⟩ : a.flatten ++ p = u' ∧ r ++ b'.flatten = v ++ z := by
      refine first_newline_unique (by simpa using hrest) ?_ hu'
      rw [mem_append]
      exact not_or.mpr ⟨ha, hp⟩
    obtain ⟨x', hx'⟩ : ∃ x', x' = (passed ++ [x₁ ++ t₁] ++ a).flatten := ⟨_, rfl⟩
    have hflat : x' = x ++ t₁ ++ a.flatten := by simp [hx, hx']
    have hy : x ++ (t₁ ++ (a.flatten ++ p) ++ ['\n']) = x' ++ (p ++ ['\n']) := by simp [hflat]
    let c₁ : Chunks :=
      { c with chunks := placeAt (passed ++ [x₁ ++ t₁] ++ a) ((p ++ '\n' :: r) :: b'), offset := byteLen x' }
    have hstands : c₁.Stands ts x' :=
      ⟨h.forward, rfl, hx' ▸ .front heq' hne _⟩
    have hplace₁ : c₁.chunks = placeAt (passed ++ [x₁ ++ t₁] ++ a) (([] ++ (p ++ '\n' :: r)) :: b') := rfl
    obtain ⟨t₃, hpeek₃, hcase₃⟩ := @Stands.peek_newline ts c₁ x' hstands _ _ _ _ hplace₁ heq'
      (by rw [append_nil, hx']) p v z hp (by rw [htext, hflat]; simp)
      (by rw [hflat, byteLen_append, byteLen_append]; change c.range.start ≤ _; omega)
      (by change c.range.stop = _; rw [hstop, hflat]; simp)
    have hfind₃ : strFind '\n' t₃ = some (byteLen p) := by
      rcases hcase₃ with ⟨-, -, hfind₃⟩ | ⟨u₃, hu₃, -, -⟩
      · exact hfind₃
      · exact absurd (by rw [hu₃]; simp) hp
    have hpass : c.passNewline t = some (true, { c₁ with offset := byteLen (x' ++ (p ++ ['\n'])) }) := by
      rw [passNewline, hfind]
      refine Option.bind_eq_some_iff.mpr ⟨some t₃, ?_, ?_⟩
      · rw [hsearch, placeAt_start, ← hx']
        exact hpeek₃
      · rw [hy] at hle
        simp only [bind_some, hfind₃, hsearch, placeAt_start, ← hx', ← byteLen_line, decide_eq_true hle]
        rfl
    have hcut : p ++ '\n' :: r = (p ++ ['\n']) ++ r := by simp
    rw [hy] at hle hge ⊢
    have hplace₂ : c₁.chunks = placeAt (passed ++ [x₁ ++ t₁] ++ a) (((p ++ ['\n']) ++ r) :: b') := by rw [← hcut]
    exact nextLine_of_pass hts h.forward hpeek hpass h.forward rfl rfl hplace₂ (hcut ▸ heq') (by rw [hx']) hge hle

/-- Without a newline in what is left, nothing is found behind the chunk either. -/
theorem Stands.passNewline_false {v z : List Char} (hv : v ≠ [])
    (hnone : '\n' ∉ v) (htext : ts.flatten = x ++ (v ++ z)) (hstart : c.range.start ≤ byteLen x)
    (hstop : c.range.stop = byteLen (x ++ v)) :
    ∃ t p, c.peek = some (some t) ∧ p.all = ts.map chunkOf ∧ c.range.stop ≤ p.stop ∧
      (p.stop = c.range.stop → Holds ts (x ++ v) c.range.stop p) ∧
      c.passNewline t = some (false, { c with chunks := p, offset := p.stop }) := by
  obtain ⟨passed, x₁, t₁, rest, hplace, heq, hx, -⟩ := h.chunk htext hv hstop
  obtain ⟨t, hpeek, hfind⟩ : ∃ t, c.peek = some (some t) ∧ strFind '\n' t = none := by
    rcases h.peek_spec hplace heq hx htext hv hstart hstop with ⟨v', rfl, -, hpeek⟩ | ⟨t₂, rfl, -, hpeek⟩
    · exact ⟨t₁, hpeek, strFind_of_not_mem fun hmem => hnone (mem_append_left _ hmem)⟩
    · exact ⟨v, hpeek, strFind_of_not_mem hnone⟩
  obtain ⟨a, b, rfl, -, hskip, hb⟩ := skipForward_spec rest (fun t ht => (hts t (by simp [heq, ht])).le)
    (passed ++ [x₁ ++ t₁])
  obtain ⟨before, hbefore⟩ : ∃ before, before = passed ++ [x₁ ++ t₁] ++ a := ⟨_, rfl⟩
  have hsearch : c.chunks.searchForward hasRows = placeAt before b := by
    rw [hplace, placeAt, map_cons, ChunkPlace.searchForward, hbefore, ← hskip]
    simp
  have heq' : ts = before ++ b := by simp [heq, hbefore]
  have htotal : ts.flatten = before.flatten ++ b.flatten := by rw [heq', flatten_append]
  have hflat : before.flatten = x ++ (t₁ ++ a.flatten) := by simp [hx, hbefore]
  have hxlen : byteLen x ≤ byteLen before.flatten := by
    rw [hflat, byteLen_append]
    omega
  let c₁ : Chunks := { c with chunks := placeAt before b, offset := byteLen before.flatten }
  -- nothing is seen there, or no newline
  have hseen : ∃ o, c₁.peek = some o ∧ o.bind (strFind '\n') = none ∧
      c.range.stop ≤ (placeAt before b).stop ∧
        ((placeAt before b).stop = c.range.stop → Holds ts (x ++ v) c.range.stop (placeAt before b)) := by
    rcases hb with rfl | ⟨t', b', rfl, ht'⟩
    · -- behind all chunks
      rw [flatten_nil, append_nil] at htotal
      have hle : byteLen (x ++ v) ≤ byteLen before.flatten := by
        rw [← htotal, htext, ← append_assoc, byteLen_append (x ++ v)]
        omega
      obtain rfl : ts = before := by rw [heq', append_nil]
      have hpeek₁ : c₁.peek = some none := by
        rw [peek]
        split <;> rfl
      refine ⟨none, hpeek₁, rfl, by rw [placeAt_stop_nil, hstop]; exact hle, fun hend => .atEnd ?_⟩
      rw [placeAt_stop_nil, htext, hstop, ← append_assoc, byteLen_append (x ++ v)] at hend
      obtain rfl : z = [] := byteLen_eq_zero.mp (by omega)
      rw [htext, append_nil]
    · have hne : t' ≠ [] := (hts t' (by simp [heq'])).ne_nil
      have hpos := byteLen_pos hne
      have hstands : c₁.Stands ts before.flatten := ⟨h.forward, rfl, .front heq' hne _⟩
      rw [placeAt_stop_cons]
      by_cases hend : c.range.stop ≤ byteLen before.flatten
      · exact ⟨none, hstands.peek_end hend, rfl, by omega, fun h => by omega⟩
      · -- the chunk starts in the range, and its newline is behind it
        obtain ⟨v₁, hv₁, hz⟩ : ∃ m, x ++ v = before.flatten ++ m ∧ (t' :: b').flatten = m ++ z :=
          exists_append_of_byteLen_le (by rw [← htotal, htext, append_assoc]) (by rw [← hstop]; omega)
        have hv₁ne : v₁ ≠ [] := by
          rintro rfl
          rw [hstop, hv₁, append_nil] at hend
          exact hend (le_refl _)
        have hv₁none : '\n' ∉ v₁ := by
          rw [hflat, append_assoc] at hv₁
          intro hmem
          exact hnone (by rw [append_cancel_left hv₁]; exact mem_append_right _ hmem)
        have hplace₁ : c₁.chunks = placeAt before (([] ++ t') :: b') := rfl
        have hcase := @Stands.peek_spec ts c₁ _ hstands _ _ _ _ hplace₁ heq' (append_nil _).symm v₁ z
          (by rw [htotal, hz]) hv₁ne (by change c.range.start ≤ _; omega) (by rw [← hv₁]; exact hstop)
        rcases hcase with ⟨v', rfl, -, -⟩ | ⟨t₂, rfl, ht₂, hpeek₁⟩
        · exact absurd (mem_append_left _ ht') hv₁none
        · have hpos₂ := byteLen_pos ht₂
          have hlen : c.range.stop = byteLen before.flatten + byteLen v₁ := by rw [hstop, hv₁, byteLen_append]
          rw [byteLen_append]
          exact ⟨some v₁, hpeek₁, strFind_of_not_mem hv₁none, by omega, fun h => by omega⟩
  obtain ⟨o, hpeek₁, ho, hge, hholds⟩ := hseen
  refine ⟨t, placeAt before b, hpeek, by rw [placeAt_all, heq'], hge, hholds, ?_⟩
  rw [passNewline, hfind]
  refine Option.bind_eq_some_iff.mpr ⟨o, ?_, ?_⟩
  · rw [hsearch, placeAt_start]
    exact hpeek₁
  · simp only [ho, hsearch]

/-- **Without a newline, `next_line` goes to the end** of the range. -/
theorem Stands.nextLine_false {v z : List Char} (hnone : '\n' ∉ v)
    (htext : ts.flatten = x ++ (v ++ z)) (hstart : c.range.start ≤ byteLen x)
    (hstop : c.range.stop = byteLen (x ++ v)) :
    ∃ c', c.nextLine = some (false, c') ∧ c'.Stands ts (x ++ v) ∧ c'.range = c.range := by
  have hback : ¬ c.reversed = true := by
    rw [h.forward]
    exact Bool.false_ne_true
  by_cases hv : v = []
  · subst hv
    rw [append_nil] at hstop ⊢
    refine ⟨c, ?_, h, rfl⟩
    have hadvance : c.advanceLine = some (false, c) := by
      rw [advanceLine, h.peek_end hstop.le]
      rfl
    rw [nextLine, if_neg hback]
    refine Option.bind_eq_some_iff.mpr ⟨_, hadvance, if_neg ?_⟩
    change ¬ c.range.stop < c.offset
    rw [h.offset]
    omega
  · obtain ⟨t, p, hpeek, hall, hge, hholds, hpass⟩ := h.passNewline_false hts hv hnone htext hstart hstop
    have hnext : ({ c with chunks := p, offset := p.stop } : Chunks).next =
        some (none, { c with chunks := p, offset := p.stop }) := by
      have hvalid : ({ c with chunks := p, offset := p.stop } : Chunks).offsetIsValid = false := by
        rw [offsetIsValid, h.forward]
        simp [hge]
      rw [next, peek, hvalid]
      rfl
    have hadvance : c.advanceLine = some (false, { c with chunks := p, offset := p.stop }) := by
      refine Option.bind_eq_some_iff.mpr ⟨_, hpeek, ?_⟩
      refine Option.bind_eq_some_iff.mpr ⟨_, hpass, ?_⟩
      rw [if_pos rfl]
      exact Option.bind_eq_some_iff.mpr ⟨_, hnext, rfl⟩
    have hline : c.nextLine = some (if c.range.stop < p.stop then
        (false, { c with offset := c.range.stop, chunks := p.seek .right c.range.stop })
        else (false, { c with chunks := p, offset := p.stop })) := by
      rw [nextLine, if_neg hback]
      refine Option.bind_eq_some_iff.mpr ⟨_, hadvance, ?_⟩
      exact (apply_ite some _ _ _).symm
    rw [hline]
    by_cases hlt : c.range.stop < p.stop
    · rw [if_pos hlt]
      refine ⟨_, rfl, ⟨h.forward, hstop, ?_⟩, rfl⟩
      have hseek := holds_seek (show ts.flatten = (x ++ v) ++ z by rw [htext, append_assoc])
        c.range.stop hall
      rwa [← hstop] at hseek
    · rw [if_neg hlt]
      have hend : p.stop = c.range.stop := by omega
      exact ⟨_, rfl, ⟨h.forward, hend.trans hstop, hholds hend⟩, rfl⟩

end

/-! ## To the line before -/

def LineStart (p : List Char) : Prop := p = [] ∨ ∃ p', p = p' ++ ['\n']

/-- A line, or a part of one from its start, that is not empty; it may have its newline. -/
def LineTail (q : List Char) : Prop := q ≠ [] ∧ ∃ q', '\n' ∉ q' ∧ (q = q' ∨ q = q' ++ ['\n'])

theorem line_start_unique {p p' s s' : List Char} (h : p ++ s = p' ++ s') (hp : LineStart p) (hp' : LineStart p')
    (hs : '\n' ∉ s) (hs' : '\n' ∉ s') : p = p' := by
  have hshort : ∀ {p p' r : List Char}, LineStart p → p = p' ++ r → '\n' ∉ r → p = p' := by
    intro p p' r hp hr hmem
    rcases eq_nil_or_concat' r with rfl | ⟨r, a, rfl⟩
    · rw [hr, append_nil]
    · rcases hp with rfl | ⟨p₁, rfl⟩
      · simp at hr
      · rw [← append_assoc] at hr
        obtain ⟨-, ha⟩ := append_inj' hr rfl
        exact absurd (by simp [← ha]) hmem
  rcases List.append_eq_append_iff.mp h with ⟨r, hr, rfl⟩ | ⟨r, hr, rfl⟩
  · exact (hshort hp' hr fun hmem => hs (mem_append_left _ hmem)).symm
  · exact hshort hp hr fun hmem => hs' (mem_append_left _ hmem)

theorem last_byte {k : Char} (hk : k.val.toNat < 128) (y : List Char) (a : Char) (t : List Char) :
    ∃ b, (utf8 (y ++ [a] ++ t))[byteLen (y ++ [a]) - 1]? = some b ∧ (b = k.val.toUInt8 ↔ a = k) := by
  obtain ⟨bs, b, hbytes⟩ : ∃ bs b, String.utf8EncodeChar a = bs ++ [b] := by
    have hlen : (String.utf8EncodeChar a).length = a.utf8Size := String.length_utf8EncodeChar a
    rcases eq_nil_or_concat' (String.utf8EncodeChar a) with hnil | h
    · rw [hnil] at hlen
      exact absurd a.utf8Size_pos (by rw [← hlen]; exact lt_irrefl 0)
    · exact h
  refine ⟨b, ?_, fun hb => ?_, fun ha => ?_⟩
  · have hcut : utf8 (y ++ [a] ++ t) = (utf8 y ++ bs) ++ b :: utf8 t := by
      rw [utf8_append, utf8_append, utf8_cons, utf8_nil, append_nil, hbytes]
      simp
    have hlen : byteLen (y ++ [a]) - 1 = (utf8 y ++ bs).length := by
      rw [← length_utf8, utf8_append, utf8_cons, utf8_nil, append_nil, hbytes, length_append,
        length_append, length_append, length_singleton]
      omega
    rw [hcut, hlen, List.getElem?_append_right (le_refl _), Nat.sub_self]
    rfl
  · have hmem : k.val.toUInt8 ∈ String.utf8EncodeChar a := by
      rw [hbytes, hb]
      simp
    exact (mem_utf8EncodeChar_ascii hk).mp hmem
  · have h := utf8EncodeChar_ascii (show a.val.toNat < 128 by rw [ha]; exact hk)
    rw [hbytes, ha] at h
    simpa using congrArg List.getLast? h

theorem lineStartInChunk_eq {passed : List (List Char)} {a : Char} {t₁ : List Char}
    {rest : List (List Char)} (hplace : c.chunks = placeAt passed ((y ++ [a] ++ t₁) :: rest))
    (hoffset : c.offset = byteLen passed.flatten + byteLen (y ++ [a])) :
    c.lineStartInChunk =
      some ((strRfind '\n' (if a = '\n' then y else y ++ [a])).map (byteLen passed.flatten + · + 1)) := by
  obtain ⟨b, hb, hiff⟩ : ∃ b, (utf8 (y ++ [a] ++ t₁))[byteLen (y ++ [a]) - 1]? = some b ∧ (b = 10 ↔ a = '\n') :=
    @last_byte '\n' (by decide) y a t₁
  have hpos : byteLen (y ++ [a]) ≠ 0 := (byteLen_pos (by simp)).ne'
  rw [lineStartInChunk, hplace, placeAt_item_cons]
  simp only [placeAt_start, hoffset, Nat.add_sub_cancel_left, if_neg hpos, chunkOf_text]
  refine Option.bind_eq_some_iff.mpr ⟨b, hb, ?_⟩
  have hslice : strSlice (y ++ [a] ++ t₁) 0 (if b = 10 then byteLen (y ++ [a]) - 1 else byteLen (y ++ [a])) =
      some (if a = '\n' then y else y ++ [a]) := by
    by_cases ha : a = '\n'
    · rw [if_pos (hiff.mpr ha), if_pos ha]
      have h := strSlice_append [] y ([a] ++ t₁)
      have hlen : byteLen (y ++ [a]) - 1 = byteLen y := by
        rw [ha, byteLen_append]
        rfl
      rw [hlen]
      simpa using h
    · rw [if_neg (fun h => ha (hiff.mp h)), if_neg ha]
      have h := strSlice_append [] (y ++ [a]) t₁
      simpa using h
  exact Option.bind_eq_some_iff.mpr ⟨_, hslice, rfl⟩

theorem lineStartInChunk_spec {passed : List (List Char)} {x₁ t₁ : List Char} {rest : List (List Char)}
    (hplace : c.chunks = placeAt passed ((x₁ ++ t₁) :: rest)) (hoffset : c.offset = byteLen x)
    (hx : x = passed.flatten ++ x₁) (hx₁ : x₁ ≠ []) {p q : List Char} (hpq : x = p ++ q) (hp : LineStart p)
    (hq : LineTail q) :
    (∃ p₁ s, p = passed.flatten ++ p₁ ∧ x₁ = p₁ ++ s ∧ c.lineStartInChunk = some (some (byteLen p))) ∨
      ∃ s, passed.flatten = p ++ s ∧ '\n' ∉ s ∧ c.lineStartInChunk = some none := by
  obtain ⟨y, a, rfl⟩ : ∃ y a, x₁ = y ++ [a] := by
    rcases eq_nil_or_concat' x₁ with h | h
    · exact absurd h hx₁
    · exact h
  rw [hx, byteLen_append] at hoffset
  have heq := lineStartInChunk_eq hplace hoffset
  -- what is searched, but for the last character if that is a newline
  obtain ⟨q', hq', hbefore⟩ : ∃ q', '\n' ∉ q' ∧
      passed.flatten ++ (if a = '\n' then y else y ++ [a]) = p ++ q' := by
    obtain ⟨hne, q', hq', hcase⟩ := hq
    rw [hx] at hpq
    rcases hcase with rfl | rfl
    · obtain ⟨q₁, b, rfl⟩ : ∃ q₁ b, q = q₁ ++ [b] := by
        rcases eq_nil_or_concat' q with h | h
        · exact absurd h hne
        · exact h
      have hab : a = b := by
        rw [← append_assoc, ← append_assoc] at hpq
        exact (List.cons.inj (append_inj' hpq rfl).2).1
      have ha : a ≠ '\n' := by
        rintro rfl
        exact hq' (by rw [← hab]; simp)
      refine ⟨_, hq', ?_⟩
      rw [if_neg ha, hpq]
    · rw [← append_assoc, ← append_assoc] at hpq
      obtain ⟨hinit, hlast⟩ := append_inj' hpq rfl
      refine ⟨q', hq', ?_⟩
      rw [if_pos (List.cons.inj hlast).1, hinit]
  generalize (if a = '\n' then y else y ++ [a]) = before at heq hbefore
  rcases List.append_eq_append_iff.mp hbefore with ⟨p₁, rfl, rfl⟩ | ⟨s, hs, rfl⟩
  · rcases eq_nil_or_concat' p₁ with rfl | ⟨p₁, b, rfl⟩
    · -- the line starts with the chunk
      rw [nil_append, strRfind_of_not_mem hq'] at heq
      exact .inr ⟨[], by simp, not_mem_nil, heq⟩
    · obtain rfl : b = '\n' := by
        rcases hp with hnil | ⟨p', hp'⟩
        · simp at hnil
        · rw [← append_assoc] at hp'
          exact (List.cons.inj (append_inj' hp' rfl).2).1
      have hfind := strRfind_append hq' p₁
      rw [show p₁ ++ ['\n'] ++ q' = p₁ ++ '\n' :: q' by simp, hfind, map_some] at heq
      refine .inl ⟨p₁ ++ ['\n'], q, rfl, ?_, ?_⟩
      · rw [hx, append_assoc] at hpq
        exact append_cancel_left hpq
      · rw [heq, byteLen_line]
  · -- and before it
    rw [strRfind_of_not_mem fun hmem => hq' (mem_append_right _ hmem)] at heq
    exact .inr ⟨s, hs, fun hmem => hq' (mem_append_left _ hmem), heq⟩

theorem prev_placeAt (passed : List (List Char)) (t : List Char) (rest : List (List Char)) :
    (placeAt (passed ++ [t]) rest).prev = placeAt passed (t :: rest) := by
  rw [placeAt, reverse_append, reverse_singleton, singleton_append, map_cons,
    ChunkPlace.prev, ChunkPlace.searchBackward, ChunkPlace.skipBackward, if_pos rfl]
  rfl

section

variable (hts : ∀ t ∈ ts, Piece t)
include hts

theorem Stands.chunk_before (h : c.Stands ts x) (hx : x ≠ []) : ∃ passed x₁ t₁ rest,
      (if c.offset = c.chunks.start then c.chunks.prev else c.chunks) = placeAt passed ((x₁ ++ t₁) :: rest) ∧
      ts = passed ++ (x₁ ++ t₁) :: rest ∧ x = passed.flatten ++ x₁ ∧ x₁ ≠ [] := by
  -- at the end of a chunk that is passed
  have hback : ∀ {before rest : List (List Char)}, ts = before ++ rest → x = before.flatten →
      ∃ passed x₁ t₁ rest', (placeAt before rest).prev = placeAt passed ((x₁ ++ t₁) :: rest') ∧
        ts = passed ++ (x₁ ++ t₁) :: rest' ∧ x = passed.flatten ++ x₁ ∧ x₁ ≠ [] := by
    intro before rest heq hflat
    rcases eq_nil_or_concat' before with rfl | ⟨passed, t, rfl⟩
    · exact absurd hflat hx
    · refine ⟨passed, t, [], rest, ?_, ?_, ?_, (hts t (by simp [heq])).ne_nil⟩
      · rw [prev_placeAt, append_nil]
      · rw [heq, append_nil, append_assoc, singleton_append]
      · rw [hflat, flatten_append, flatten_singleton]
  have hholds := h.holds
  rw [h.offset]
  generalize c.chunks = p at hholds
  cases hholds with
  | @inside passed x₁ t₁ rest heq hcut _ =>
    rw [placeAt_start]
    by_cases hx₁ : x₁ = []
    · subst hx₁
      rw [append_nil] at hcut
      rw [hcut, if_pos rfl, ← hcut]
      exact hback heq hcut
    · have hpos := byteLen_pos hx₁
      have hlen := byteLen_append passed.flatten x₁
      rw [if_neg (by rw [hcut]; omega)]
      exact ⟨passed, x₁, t₁, rest, rfl, heq, hcut, hx₁⟩
  | atEnd hend =>
    rw [placeAt_start, hend, if_pos rfl, ← hend]
    exact hback (append_nil ts).symm hend

/-- `prev_line` goes back to the last line start in front of the chunk; if the range has none there, to the
start of the range. -/
theorem prevLineBack_spec (hforward : c.reversed = false) {passed rest : List (List Char)}
    (hplace : c.chunks = placeAt passed rest) (heq : ts = passed ++ rest) {l z : List Char}
    (htext : ts.flatten = l ++ z) (hstart : c.range.start = byteLen l) {initialOffset : Nat}
    (hlt : byteLen passed.flatten < initialOffset) (hstop : initialOffset ≤ c.range.stop)
    (hle : byteLen l ≤ initialOffset) :
    ∃ p s c', passed.flatten = p ++ s ∧ '\n' ∉ s ∧ LineStart p ∧
      c.prevLineBack initialOffset = (decide (byteLen l ≤ byteLen p), c') ∧
      c'.Stands ts (if byteLen l ≤ byteLen p then p else l) ∧ c'.range = c.range := by
  have hclamp : ∀ c₁ : Chunks, c₁.reversed = false → c₁.range = c.range → c₁.chunks.all = ts.map chunkOf →
      (c₁.offsetIsValid = false ∨ c₁.chunks.item = none) →
      ∃ c', c₁.clampLine initialOffset = (decide (byteLen l < initialOffset ∧ byteLen l = 0), c') ∧
        c'.Stands ts l ∧ c'.range = c.range := by
    intro c₁ hf hrange hall hinvalid
    have hcond : (!c₁.offsetIsValid || c₁.chunks.item.isNone) = true := by
      rcases hinvalid with h | h <;> simp [h]
    refine ⟨{ c₁ with offset := c₁.range.start, chunks := c₁.chunks.seek .right c₁.range.start }, ?_,
      ⟨hf, by simp only [hrange, hstart], ?_⟩, hrange⟩
    · rw [clampLine, hcond, if_pos rfl]
      simp only [hrange, hstart, Bool.decide_and, Prod.mk.injEq, and_true]
      rfl
    · have hstart' : c₁.range.start = byteLen l := by rw [hrange, hstart]
      simp only [hstart']
      exact holds_seek htext _ hall
  have hsearch : c.chunks.searchBackward hasRows =
      ChunkPlace.skipBackward hasRows (rest.map chunkOf) (passed.reverse.map chunkOf) := by rw [hplace]; rfl
  rcases skipBackward_spec passed (fun t ht => (hts t (by simp [heq, ht])).le) rest with
    ⟨a, t, b, rfl, ht, hb, hskip⟩ | ⟨hmem, hitem, hfront, hall⟩
  · obtain ⟨y, w, rfl, hw⟩ := (newline_last _).resolve_left (not_not.mpr ht)
    obtain ⟨p, hp⟩ : ∃ p, p = a.flatten ++ (y ++ ['\n']) := ⟨_, rfl⟩
    have hflat : (a ++ (y ++ '\n' :: w) :: b).flatten = p ++ (w ++ b.flatten) := by simp [hp]
    have hflatLen := congrArg byteLen hflat
    rw [byteLen_append] at hflatLen
    let c₁ : Chunks := { c with chunks := placeAt a ((y ++ '\n' :: w) :: (b ++ rest)), offset := byteLen p }
    have hheq : ts = a ++ (y ++ '\n' :: w) :: (b ++ rest) := by simp [heq]
    have hvalid : c₁.offsetIsValid = decide (byteLen l ≤ byteLen p) := by
      have hlt' : byteLen p < c.range.stop := by omega
      rw [offsetIsValid]
      simp only [c₁, hforward, Bool.false_eq_true, if_false, hstart, hlt', decide_true, Bool.and_true]
    have hback : c.prevLineBack initialOffset =
        if c₁.offsetIsValid then (true, if c₁.offset = c₁.chunks.stop then { c₁ with chunks := c₁.chunks.next } else c₁)
        else c₁.clampLine initialOffset := by
      rw [prevLineBack]
      simp only [hsearch, hskip, placeAt_item_cons, placeAt_start, chunkOf_text, bind_some,
        strRfind_append hw y, ← byteLen_line, ← hp]
      rfl
    have hwb : '\n' ∉ w ++ b.flatten := by
      rw [mem_append]
      exact not_or.mpr ⟨hw, hb⟩
    have hline : LineStart p := .inr ⟨a.flatten ++ y, by rw [hp, append_assoc]⟩
    by_cases hlp : byteLen l ≤ byteLen p
    · rw [decide_eq_true hlp] at hvalid
      refine ⟨p, _, if c₁.offset = c₁.chunks.stop then { c₁ with chunks := c₁.chunks.next } else c₁, hflat, hwb,
        hline, ?_, ?_, ?_⟩
      · rw [hback, hvalid, if_pos rfl, decide_eq_true hlp]
      · rw [if_pos hlp]
        have hcut : y ++ '\n' :: w = (y ++ ['\n']) ++ w := by simp
        have hstopLen : c₁.chunks.stop = byteLen p + byteLen w := by
          rw [placeAt_stop_cons, hcut, hp]
          simp only [byteLen_append, add_assoc]
        by_cases hend : c₁.offset = c₁.chunks.stop
        · -- the line starts with the next chunk
          rw [if_pos hend]
          obtain rfl : w = [] := by
            exact byteLen_eq_zero.mp (by change byteLen p = _ at hend; omega)
          refine ⟨hforward, rfl, ?_⟩
          simp only [c₁, next_placeAt]
          have hpflat : p = (a ++ [y ++ '\n' :: []]).flatten := by simp [hp]
          rw [hpflat]
          exact holds_next hts hheq _
        · rw [if_neg hend]
          refine ⟨hforward, rfl, ?_⟩
          simp only [c₁, hcut]
          refine .inside (by rw [← hcut]; exact hheq) hp fun hnil => absurd ?_ hend
          rw [hstopLen, hnil]
          rfl
      · split <;> rfl
    · rw [decide_eq_false hlp] at hvalid
      obtain ⟨c', hclampEq, hstands, hrange⟩ :=
        hclamp c₁ hforward rfl (by rw [hheq]; exact placeAt_all _ _) (.inl hvalid)
      refine ⟨p, _, c', hflat, hwb, hline, ?_, by rwa [if_neg hlp], hrange⟩
      rw [hback, hvalid, if_neg Bool.false_ne_true, hclampEq, decide_eq_false hlp]
      exact congrArg (·, c') (decide_eq_false (by omega))
  · have hback : c.prevLineBack initialOffset =
        ({ c with chunks := c.chunks.searchBackward hasRows, offset := 0 } : Chunks).clampLine initialOffset := by
      rw [prevLineBack]
      simp only [hsearch, hitem, bind_none, hfront]
    obtain ⟨c', hclampEq, hstands, hrange⟩ := hclamp
      { c with chunks := c.chunks.searchBackward hasRows, offset := 0 } hforward rfl
      (by rw [hsearch, hall, heq]) (.inr (by rw [hsearch, hitem]))
    refine ⟨[], passed.flatten, c', rfl, hmem, .inl rfl, ?_, ?_, hrange⟩
    · rw [hback, hclampEq, byteLen_nil]
      exact congrArg (·, c') (decide_eq_decide.mpr (by omega))
    · rw [byteLen_nil]
      split
      · next h =>
          obtain rfl : l = [] := byteLen_eq_zero.mp (by omega)
          exact hstands
      · exact hstands

/-- **`prev_line` goes to the start of the line**, or of the one before if the offset is at a line start. A
line that starts ahead of the range is not found. -/
theorem Stands.prevLine_spec (h : c.Stands ts x) {l z : List Char}
    (htext : ts.flatten = l ++ z) (hstart : c.range.start = byteLen l) (hle : byteLen l ≤ byteLen x)
    (hstop : byteLen x ≤ c.range.stop) {p q : List Char} (hpq : x = p ++ q) (hp : LineStart p) (hq : LineTail q) :
    ∃ c', c.prevLine = some (decide (byteLen l ≤ byteLen p), c') ∧
      c'.Stands ts (if byteLen l ≤ byteLen p then p else l) ∧ c'.range = c.range := by
  have hx : x ≠ [] := by
    rw [hpq]
    exact fun hnil => hq.1 (List.append_eq_nil_iff.mp hnil).2
  obtain ⟨passed, x₁, t₁, rest, hplace, heq, hcut, hx₁⟩ := h.chunk_before hts hx
  let c₁ : Chunks := { c with chunks := placeAt passed ((x₁ ++ t₁) :: rest) }
  have hc₁ : (if c.offset = c.chunks.start then { c with chunks := c.chunks.prev } else c) = c₁ := by
    change _ = { c with chunks := placeAt passed ((x₁ ++ t₁) :: rest) }
    rw [← hplace]
    split <;> rfl
  have hline : ∀ o, c₁.lineStartInChunk = some o → c.prevLine = o.elim (some (c₁.prevLineBack c.offset)) fun offset =>
      if ({ c₁ with offset } : Chunks).offsetIsValid then some (true, { c₁ with offset })
      else some (({ c₁ with offset } : Chunks).prevLineBack c.offset) := by
    intro o ho
    rw [prevLine, if_neg (by rw [h.forward]; exact Bool.false_ne_true)]
    simp only [hc₁, ho]
    cases o <;> rfl
  rw [h.offset] at hline
  have hlt : byteLen passed.flatten < byteLen x := by
    have hpos := byteLen_pos hx₁
    rw [hcut, byteLen_append]
    omega
  rcases lineStartInChunk_spec (show c₁.chunks = placeAt passed ((x₁ ++ t₁) :: rest) from rfl)
      (show c₁.offset = byteLen x from h.offset) hcut hx₁ hpq hp hq with
    ⟨p₁, s, hp₁, hs, hfound⟩ | ⟨s, hflat, hs, hfound⟩
  · have hvalid : ({ c₁ with offset := byteLen p } : Chunks).offsetIsValid = decide (byteLen l ≤ byteLen p) := by
      have hlt' : byteLen p < c.range.stop := by
        have hpos := byteLen_pos hq.1
        have hlen := byteLen_append p q
        rw [← hpq] at hlen
        omega
      rw [offsetIsValid]
      simp only [c₁, h.forward, Bool.false_eq_true, if_false, hstart, hlt', decide_true, Bool.and_true]
    rw [hline _ hfound, elim_some]
    by_cases hlp : byteLen l ≤ byteLen p
    · rw [decide_eq_true hlp] at hvalid ⊢
      rw [if_pos hlp]
      refine ⟨_, if_pos hvalid, ⟨h.forward, rfl, ?_⟩, rfl⟩
      have hcut₁ : (x₁ ++ t₁) = p₁ ++ (s ++ t₁) := by rw [hs, append_assoc]
      simp only [c₁]
      rw [hcut₁] at heq ⊢
      refine .inside heq hp₁ fun hnil => ?_
      -- the line is not empty, so the chunk goes on
      have hsq : s = q := by
        rw [hpq, hs, ← append_assoc, ← hp₁] at hcut
        exact (append_cancel_left hcut).symm
      exact absurd (hsq ▸ (List.append_eq_nil_iff.mp hnil).1) hq.1
    · rw [decide_eq_false hlp] at hvalid ⊢
      rw [if_neg hlp]
      obtain ⟨p₂, s₂, c', hflat, -, -, hback, hstands, hrange⟩ := prevLineBack_spec hts
        (show ({ c₁ with offset := byteLen p } : Chunks).reversed = false from h.forward) rfl heq htext hstart hlt
        hstop hle
      have hp₂ : ¬ byteLen l ≤ byteLen p₂ := by
        have hlen := byteLen_append passed.flatten p₁
        have hlen₂ := byteLen_append p₂ s₂
        rw [← hp₁] at hlen
        rw [← hflat] at hlen₂
        omega
      rw [decide_eq_false hp₂] at hback
      rw [if_neg hp₂] at hstands
      refine ⟨c', ?_, hstands, hrange⟩
      simp only [hvalid, Bool.false_eq_true, if_false, hback]
  · obtain ⟨p₂, s₂, c', hflat₂, hs₂, hp₂, hback, hstands, hrange⟩ := prevLineBack_spec hts
      (show c₁.reversed = false from h.forward) rfl heq htext hstart hlt hstop hle
    obtain rfl : p = p₂ := line_start_unique (hflat.symm.trans hflat₂) hp hp₂ hs hs₂
    refine ⟨c', ?_, hstands, hrange⟩
    rw [hline _ hfound, elim_none]
    simp only [hback]

end

theorem eq_nil_of_flatten {us : List (List Char)} (hne : ∀ t ∈ us, t ≠ []) (h : us.flatten = []) : us = [] := by
  cases us with
  | nil => rfl
  | cons t us => exact absurd (List.append_eq_nil_iff.mp h).1 (hne t mem_cons_self)

theorem Stands.prevLine_front (hts : ∀ t ∈ ts, Piece t) (h : c.Stands ts []) (hstart : c.range.start = 0) :
    ∃ c', c.prevLine = some (false, c') ∧ c'.Stands ts [] ∧ c'.range = c.range := by
  have hne : ∀ t ∈ ts, t ≠ [] := fun t ht => (hts t ht).ne_nil
  have hplace : c.chunks = placeAt [] ts := by
    have hholds := h.holds
    generalize c.chunks = p at hholds
    cases hholds with
    | @inside passed x₁ t₁ rest heq hx _ =>
      obtain ⟨hpassed, rfl⟩ := List.append_eq_nil_iff.mp hx.symm
      obtain rfl := eq_nil_of_flatten (fun t ht => hne t (by simp [heq, ht])) hpassed
      rw [heq]
      rfl
    | atEnd hx => rw [eq_nil_of_flatten hne hx.symm]
  -- ahead of all chunks, the cursor is at none
  obtain ⟨p, hp, hback, hitem, hfront, hall⟩ : ∃ p : ChunkPlace, c.chunks.prev = p ∧
      p.searchBackward hasRows = p ∧ p.item = none ∧ p.start = 0 ∧ p.all = ts.map chunkOf := by
    rw [hplace]
    cases ts with
    | nil => exact ⟨.at [] [], rfl, rfl, rfl, rfl, rfl⟩
    | cons t ts => exact ⟨.before ((t :: ts).map chunkOf), rfl, rfl, rfl, rfl, rfl⟩
  have hoffset : c.offset = 0 := h.offset
  have hc₁ : (if c.offset = c.chunks.start then { c with chunks := c.chunks.prev } else c) =
      { c with chunks := p } := by
    rw [if_pos (by rw [hoffset, hplace, placeAt_start]; rfl), hp]
  have hclamp : ({ c with chunks := p, offset := 0 } : Chunks).clampLine 0 =
      (false, { c with offset := c.range.start, chunks := p.seek .right c.range.start }) := by
    rw [clampLine]
    simp only [hitem, isNone_none, Bool.or_true, if_true, not_lt_zero, decide_false, Bool.false_and]
  refine ⟨{ c with offset := c.range.start, chunks := p.seek .right c.range.start }, ?_,
    ⟨h.forward, hstart, ?_⟩, rfl⟩
  · rw [prevLine, if_neg (by rw [h.forward]; exact Bool.false_ne_true)]
    simp only [hc₁]
    refine Option.bind_eq_some_iff.mpr ⟨none, ?_, ?_⟩
    · rw [lineStartInChunk]
      simp only [hitem]
    · simp only [prevLineBack, hback, hitem, bind_none, hfront, hoffset, hclamp]
  · simp only [hstart]
    exact holds_seek (nil_append _).symm _ hall

/-! ## All that is left -/

/-- **The iterator gives the text of the range**, cut somehow. -/
theorem Stands.collect_spec (hts : ∀ t ∈ ts, Piece t) {fuel : Nat} (h : c.Stands ts x) {v z : List Char}
    (htext : ts.flatten = x ++ (v ++ z)) (hstart : c.range.start ≤ byteLen x)
    (hstop : c.range.stop = byteLen (x ++ v)) (hfuel : byteLen v < fuel) :
    ∃ us, c.collect fuel = some us ∧ us.flatten = v := by
  induction fuel generalizing c x v with
  | zero => omega
  | succ fuel ih =>
    rw [collect]
    by_cases hv : v = []
    · subst hv
      rw [append_nil] at hstop
      exact ⟨[], by rw [h.next_end hstop.le]; rfl, rfl⟩
    · obtain ⟨t, v', c', rfl, ht, -, hnext, hstands, hrange⟩ := h.next_spec hts htext hv hstart hstop
      have hpos := byteLen_pos ht
      have hlen := byteLen_append t v'
      have hlen' := byteLen_append x t
      obtain ⟨us, hus, hflat⟩ := ih hstands
        (show ts.flatten = (x ++ t) ++ (v' ++ z) by rw [htext]; simp) (by rw [hrange]; omega)
        (by rw [hrange, hstop, append_assoc]) (by omega)
      refine ⟨t :: us, ?_, by rw [flatten_cons, hflat]⟩
      rw [hnext]
      change (c'.collect fuel).map (t :: ·) = _
      rw [hus]
      rfl

end Chunks

section

variable (hts : ∀ t ∈ ts, Piece t)
include hts

theorem textsInRange_spec {x v z : List Char} (htext : ts.flatten = x ++ (v ++ z)) :
    ∃ us, (ropeOf ts).textsInRange ⟨byteLen x, byteLen (x ++ v)⟩ = some us ∧ us.flatten = v := by
  obtain ⟨c, hnew, hstands, hrange⟩ := Chunks.new_spec hts htext (byteLen (x ++ v))
  have hlen : byteLen v < (ropeOf ts).len + 1 := by
    rw [len_ropeOf, htext, byteLen_append, byteLen_append]
    omega
  obtain ⟨us, hus, hflat⟩ := hstands.collect_spec hts htext (by rw [hrange]) (by rw [hrange]) hlen
  refine ⟨us, ?_, hflat⟩
  rw [Rope.textsInRange, Rope.chunksInRange, hnew, bind_some, hus]

theorem charsAt_spec {x v : List Char}
    (htext : ts.flatten = x ++ v) : (ropeOf ts).charsAt (byteLen x) = some v := by
  obtain ⟨us, hus, hflat⟩ := textsInRange_spec hts (show ts.flatten = x ++ (v ++ []) by simpa using htext)
  rw [Rope.charsAt, len_ropeOf, htext, hus, map_some, hflat]

theorem chunkTexts_spec : ∃ us, (ropeOf ts).chunkTexts = some us ∧ us.flatten = ts.flatten := by
  obtain ⟨us, hus, hflat⟩ := textsInRange_spec hts (show ts.flatten = [] ++ (ts.flatten ++ []) by simp)
  refine ⟨us, ?_, hflat⟩
  rw [Rope.chunkTexts, len_ropeOf]
  exact hus

end

end SpkEditor.Chunked
