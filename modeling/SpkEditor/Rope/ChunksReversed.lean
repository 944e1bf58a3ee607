import SpkEditor.Rope.ChunkCalls

/-!
# Seeking an iterator

After a seek an iterator gives what a new one at that offset gives (`SeeksAnew`). A forward iterator always does.
A reversed one that has run off the front of the rope is at no chunk; `seek` goes forward from there, which loses the
cursor, and nothing is left to give (`seeks_anew_iff`).
-/

namespace SpkEditor.Chunked

open List Option

/-! ## Where the cursor is -/

/-- The cursor is at the chunk that the byte in front of an offset is in; for 0, at the first one. -/
inductive HoldsBack (ts : List (List Char)) (offset : Nat) : ChunkPlace → Prop
  | inside {passed : List (List Char)} {t : List Char} {rest : List (List Char)} :
      ts = passed ++ t :: rest → (passed ≠ [] → byteLen passed.flatten < offset) →
      offset ≤ byteLen passed.flatten + byteLen t → HoldsBack ts offset (placeAt passed (t :: rest))
  | empty : ts = [] → HoldsBack ts offset (placeAt [] [])

inductive RunOff (ts : List (List Char)) (offset : Nat) : ChunkPlace → Prop
  | before : offset = 0 → RunOff ts offset (.before (ts.map chunkOf))
  | lost : RunOff ts offset (.lost (ts.map chunkOf))

variable {ts : List (List Char)} {offset : Nat} {p : ChunkPlace}

section

variable (h : RunOff ts offset p)
include h

theorem RunOff.start : p.start = 0 := by cases h <;> rfl

theorem RunOff.item : p.item = none := by cases h <;> rfl

theorem RunOff.stop : p.stop = 0 := by cases h <;> rfl

theorem RunOff.all : p.all = ts.map chunkOf := by cases h <;> rfl

theorem RunOff.seekForward (bias : Bias) (target : Nat) :
    p.seekForward bias target = .lost (ts.map chunkOf) := by cases h <;> rfl

end

theorem HoldsBack.all (h : HoldsBack ts offset p) : p.all = ts.map chunkOf := by
  cases h with
  | inside hts _ _ => rw [placeAt_all, hts]
  | empty hts =>
    subst hts
    rfl

theorem holdsBack_seekOn {passed rest : List (List Char)} (hstart : passed ≠ [] → byteLen passed.flatten < offset)
    (hne : passed ≠ [] → rest ≠ []) (hle : offset ≤ byteLen (passed ++ rest).flatten) :
    HoldsBack (passed ++ rest) offset
      (ChunkPlace.seekOn .left offset (byteLen passed.flatten) (passed.reverse.map chunkOf) (rest.map chunkOf)) := by
  obtain ⟨a, b, rfl, hseek, ha, hb⟩ := seekOn_spec .left offset passed rest
  rw [hseek]
  cases b with
  | nil =>
    rcases ha with rfl | ha
    · by_cases hpassed : passed = []
      · subst hpassed
        exact .empty rfl
      · exact absurd rfl (hne hpassed)
    · rw [passes_left] at ha
      rw [append_nil] at hle
      omega
  | cons t b =>
    refine .inside (append_assoc ..).symm (fun hpassed => ?_) ?_
    · rcases ha with rfl | ha
      · rw [append_nil] at hpassed ⊢
        exact hstart hpassed
      · exact passes_left.mp ha
    · exact Nat.le_of_not_lt (passes_left.not.mp (hb t b rfl))

theorem holdsBack_seek (hp : p.all = ts.map chunkOf) (hle : offset ≤ byteLen ts.flatten) :
    HoldsBack ts offset (p.seek .left offset) := by
  rw [ChunkPlace.seek, hp]
  exact @holdsBack_seekOn offset [] ts (fun h => absurd rfl h) (fun h => absurd rfl h) hle

theorem HoldsBack.chunk (h : HoldsBack ts offset p) {x z : List Char} (htext : ts.flatten = x ++ z)
    (hx : byteLen x = offset) (hpos : x ≠ []) :
    ∃ passed t₁ t₂ rest, p = placeAt passed ((t₁ ++ t₂) :: rest) ∧ ts = passed ++ (t₁ ++ t₂) :: rest ∧
      x = passed.flatten ++ t₁ ∧ t₁ ≠ [] := by
  cases h with
  | @inside passed t rest hts hfront hle =>
    have hpassed : byteLen passed.flatten < byteLen x := by
      by_cases hnil : passed = []
      · rw [hnil]
        exact byteLen_pos hpos
      · rw [hx]
        exact hfront hnil
    obtain ⟨t₁, rfl, hrest⟩ : ∃ m, x = passed.flatten ++ m ∧ t ++ rest.flatten = m ++ z :=
      exists_append_of_byteLen_le (by rw [← htext, hts, flatten_append, flatten_cons]) hpassed.le
    have hlen := byteLen_append passed.flatten t₁
    obtain ⟨t₂, rfl, -⟩ : ∃ m, t = t₁ ++ m ∧ z = m ++ rest.flatten :=
      exists_append_of_byteLen_le hrest.symm (by omega)
    refine ⟨passed, t₁, t₂, rest, rfl, hts, rfl, ?_⟩
    rintro rfl
    rw [byteLen_nil] at hlen
    omega
  | empty hts =>
    subst hts
    exact absurd (List.append_eq_nil_iff.mp htext.symm).1 hpos

namespace Chunks

/-- What an iterator still gives, in the order of the text. -/
def remaining (fuel : Nat) (c : Chunks) : Option (List Char) :=
  (c.collect fuel).map fun texts => (if c.reversed then texts.reverse else texts).flatten

/-- A seek leaves what a new iterator from that offset has, and this is the text between it and the end. -/
def SeeksAnew (rope : Rope) (range : Range) (c : Chunks) (offset : Nat) : Prop :=
  let ahead : Range := if c.reversed then ⟨range.start, offset⟩ else ⟨offset, range.stop⟩
  ∃ c' anew text, c.seek offset = some c' ∧ Chunks.new rope ahead c.reversed = some anew ∧
    strSlice rope.text ahead.start ahead.stop = some text ∧ c'.remaining (rope.len + 1) = some text ∧
    anew.remaining (rope.len + 1) = some text

/-! ## What is left -/

variable {c : Chunks}

section

variable (hreversed : c.reversed = true) (h : c.offset ≤ c.range.start ∨ c.chunks.item = none)
include hreversed h

theorem peek_none : c.peek = some none := by
  rw [peek]
  split
  · next hvalid =>
      rw [offsetIsValid, hreversed] at hvalid
      rcases h with h | h
      · simp at hvalid
        omega
      · rw [h]
  · rfl

theorem next_none : c.next = some (none, c) := by
  rw [next, peek_none hreversed h]
  rfl

end

theorem collect_none {fuel : Nat} (hnext : c.next = some (none, c)) : c.collect (fuel + 1) = some [] := by
  rw [collect, hnext]
  rfl

theorem peek_back (hreversed : c.reversed = true) {passed : List (List Char)} {t₁ t₂ : List Char}
    {rest : List (List Char)} (hplace : c.chunks = placeAt passed ((t₁ ++ t₂) :: rest)) {l a : List Char}
    (hla : l ++ a = passed.flatten ++ t₁) (ha : a ≠ []) (ht₁ : t₁ ≠ []) (hstart : c.range.start = byteLen l)
    (hoffset : c.offset = byteLen (l ++ a)) (hstop : c.offset ≤ c.range.stop) :
    ∃ a' u, a = a' ++ u ∧ u ≠ [] ∧ c.peek = some (some u) := by
  have hpos := byteLen_pos ha
  have hlen := byteLen_append l a
  have hlen₁ := byteLen_append passed.flatten t₁
  rw [← hla] at hlen₁
  have hvalid : c.offsetIsValid = true := by
    rw [offsetIsValid, hreversed]
    simp
    omega
  have hpeek : c.peek =
      if c.offset < byteLen passed.flatten ∨
          min (byteLen passed.flatten + byteLen (t₁ ++ t₂)) c.range.stop < byteLen passed.flatten then none
      else (strSlice (t₁ ++ t₂) (max (byteLen passed.flatten) c.range.start - byteLen passed.flatten)
        (c.offset - byteLen passed.flatten)).map some := by
    rw [peek, hvalid, hreversed, hplace, placeAt_item_cons, placeAt_start, placeAt_stop_cons]
    rfl
  rw [if_neg (by omega), hstart] at hpeek
  by_cases hle : byteLen l ≤ byteLen passed.flatten
  · -- the range goes on in front of the chunk
    obtain ⟨m, hm, rfl⟩ := exists_append_of_byteLen_le hla hle
    refine ⟨m, t₁, rfl, ht₁, ?_⟩
    have hslice := strSlice_append [] t₁ t₂
    rw [nil_append, byteLen_nil] at hslice
    rw [hpeek, max_eq_left hle, Nat.sub_self, hoffset, hlen₁, Nat.add_sub_cancel_left, hslice]
    rfl
  · obtain ⟨l₁, rfl, rfl⟩ := exists_append_of_byteLen_le hla.symm (by omega)
    refine ⟨[], a, rfl, ha, ?_⟩
    have hslice := strSlice_append l₁ a t₂
    have hlen₃ := byteLen_append passed.flatten l₁
    rw [hpeek, max_eq_right (by omega), hoffset, hlen₁, hlen₃, Nat.add_sub_cancel_left,
      Nat.add_sub_cancel_left, hslice]
    rfl

/-- After a text has been given the cursor is in front of it, or has run off. -/
theorem next_back (hts : ∀ t ∈ ts, Piece t) (hreversed : c.reversed = true) (hholds : HoldsBack ts c.offset c.chunks)
    {u : List Char} (hpeek : c.peek = some (some u)) :
    ∃ chunks, c.next = some (some u, { c with chunks, offset := c.offset - byteLen u }) ∧ byteLen u ≤ c.offset ∧
      c.range.start ≤ c.offset - byteLen u ∧
      (HoldsBack ts (c.offset - byteLen u) chunks ∨
        c.range.start = 0 ∧ ts ≠ [] ∧ c.offset - byteLen u = 0 ∧ chunks = .before (ts.map chunkOf)) := by
  have hnext : byteLen u ≤ c.offset → c.next = some (some u, { c with
        offset := c.offset - byteLen u
        chunks := if c.offset - byteLen u ≤ c.chunks.start then c.chunks.prev else c.chunks }) := by
    intro hle
    rw [next, hpeek]
    change (if c.reversed then _ else _) = _
    rw [hreversed, if_pos rfl, if_neg (Nat.not_lt.mpr hle)]
  rw [peek] at hpeek
  split at hpeek
  · generalize c.chunks = p at hholds hpeek hnext
    cases hholds with
    | empty heq => simp at hpeek
    | @inside passed t rest heq hfront hle =>
      simp only [placeAt_item_cons, placeAt_start, placeAt_stop_cons] at hpeek
      split at hpeek
      · exact absurd hpeek (by simp)
      · obtain ⟨s, hslice, hs⟩ := Option.map_eq_some_iff.mp hpeek
        obtain rfl := some.inj hs
        obtain ⟨v, w, htvw, hv, hvs⟩ := strSlice_eq_some hslice
        have hlen := byteLen_append v s
        refine ⟨_, hnext (by omega), by omega, by omega, ?_⟩
        rw [placeAt_start]
        by_cases hoff : c.offset - byteLen s ≤ byteLen passed.flatten
        · -- the whole front of the chunk was given
          rw [if_pos hoff]
          rcases eq_nil_or_concat' passed with rfl | ⟨passed, r, rfl⟩
          · rw [flatten_nil, byteLen_nil] at hoff hv
            refine .inr ⟨by omega, by rw [heq]; simp, Nat.le_zero.mp hoff, ?_⟩
            rw [heq, placeAt, ChunkPlace.prev, reverse_nil, map_nil, ChunkPlace.searchBackward,
              ChunkPlace.skipBackward, if_neg (by simp), nil_append]
          · have hr : byteLen (passed ++ [r]).flatten = byteLen passed.flatten + byteLen r := by
              simp [byteLen_append]
            have hpos := byteLen_pos (hts r (by simp [heq])).ne_nil
            rw [prev_placeAt]
            exact .inl (.inside (by simp [heq]) (fun _ => by omega) (by omega))
        · rw [if_neg hoff]
          exact .inl (.inside heq (fun _ => by omega) (by omega))
  · cases hpeek

theorem collect_back (hts : ∀ t ∈ ts, Piece t) {fuel : Nat} (hreversed : c.reversed = true) {l a z : List Char}
    (htext : ts.flatten = l ++ (a ++ z)) (hstart : c.range.start = byteLen l) (hoffset : c.offset = byteLen (l ++ a))
    (hstop : c.offset ≤ c.range.stop) (hholds : a ≠ [] → HoldsBack ts c.offset c.chunks) (hfuel : byteLen a < fuel) :
    ∃ us, c.collect fuel = some us ∧ us.reverse.flatten = a := by
  induction fuel generalizing c a z with
  | zero => omega
  | succ fuel ih =>
    by_cases ha : a = []
    · subst ha
      rw [append_nil] at hoffset
      exact ⟨[], collect_none (next_none hreversed (.inl (by omega))), rfl⟩
    · have hla : l ++ a ≠ [] := by simp [ha]
      obtain ⟨passed, t₁, t₂, rest, hplace, -, hx, ht₁⟩ :=
        (hholds ha).chunk (htext.trans (append_assoc ..).symm) hoffset.symm hla
      obtain ⟨a', u, rfl, hu, hpeek⟩ := peek_back hreversed hplace hx ha ht₁ hstart hoffset hstop
      obtain ⟨chunks, hnext, hle, -, hchunks⟩ := next_back hts hreversed (hholds ha) hpeek
      have hpos := byteLen_pos hu
      have hlen := byteLen_append a' u
      have hlen₁ := byteLen_append l a'
      have hlen₂ := byteLen_append (l ++ a') u
      rw [append_assoc] at hlen₂
      have hholds' : a' ≠ [] → HoldsBack ts (c.offset - byteLen u) chunks := by
        intro ha'
        have hpos' := byteLen_pos ha'
        rcases hchunks with hchunks | ⟨-, -, hzero, -⟩
        · exact hchunks
        · omega
      obtain ⟨us, hus, hflat⟩ := @ih { c with chunks, offset := c.offset - byteLen u } hreversed a' (u ++ z)
        (by rw [htext, append_assoc]) hstart (by simp only; omega) (by simp only; omega) hholds' (by omega)
      refine ⟨u :: us, ?_, by rw [reverse_cons, flatten_append, hflat]; simp⟩
      rw [collect, hnext]
      change (collect fuel _).map (u :: ·) = _
      rw [hus]
      rfl

/-! ## A reversed iterator -/

theorem new_back (hts : ∀ t ∈ ts, Piece t) {x z : List Char} (htext : ts.flatten = x ++ z) (start : Nat) :
    ∃ chunks, Chunks.new (ropeOf ts) ⟨start, byteLen x⟩ true = some ⟨chunks, ⟨start, byteLen x⟩, byteLen x, true⟩ ∧
      HoldsBack ts (byteLen x) chunks := by
  have hle : byteLen x ≤ byteLen ts.flatten := by
    rw [htext, byteLen_append]
    omega
  have hholds : HoldsBack ts (byteLen x) (ChunkPlace.seekOn .left (byteLen x) 0 [] (ropeOf ts).chunks) :=
    @holdsBack_seekOn (byteLen x) [] ts (fun h => absurd rfl h) (fun h => absurd rfl h) hle
  refine ⟨_, ?_, hholds⟩
  rw [Chunks.new]
  simp only [if_true]
  generalize ChunkPlace.seekOn .left (byteLen x) 0 [] (ropeOf ts).chunks = p at hholds
  by_cases hx : x = []
  · -- at the start of the first chunk, if there is one
    subst hx
    cases hholds with
    | @inside passed t rest heq hfront _ =>
      obtain rfl : passed = [] := by
        by_contra hne
        exact absurd (hfront hne) (Nat.not_lt_zero _)
      have hboundary := (isCharBoundary_chunkOf (hts t (by simp [heq])).le 0).mpr ⟨[], t, rfl, rfl⟩
      rw [placeAt_start, flatten_nil, byteLen_nil, if_neg (Nat.lt_irrefl 0), placeAt_item_cons]
      simp only [hboundary, if_true]
    | empty heq => rw [placeAt_start, flatten_nil, byteLen_nil, if_neg (lt_irrefl 0), placeAt_item_nil]
  · obtain ⟨passed, t₁, t₂, rest, rfl, heq, rfl, -⟩ := hholds.chunk htext rfl hx
    have hlen := byteLen_append passed.flatten t₁
    have hboundary := (isCharBoundary_chunkOf (hts _ (by simp [heq])).le (byteLen t₁)).mpr ⟨t₁, t₂, rfl, rfl⟩
    rw [placeAt_start, if_neg (by omega), placeAt_item_cons, hlen, Nat.add_sub_cancel_left]
    simp only [hboundary, if_true]

/-- A reversed iterator in its range. -/
structure Backward (ts : List (List Char)) (range : Range) (c : Chunks) : Prop where
  reversed : c.reversed = true
  range_eq : c.range = range
  start_le : range.start ≤ c.offset
  le_stop : c.offset ≤ range.stop
  place : HoldsBack ts c.offset c.chunks ∨ range.start = 0 ∧ ts ≠ [] ∧ RunOff ts c.offset c.chunks

variable {range : Range}

/-- From the front of the rope a seek goes nowhere, but for one to the front. -/
theorem Backward.seek (h : Backward ts range c) (hlen : range.stop ≤ byteLen ts.flatten) {offset : Nat}
    (hstart : range.start ≤ offset) (hstop : offset ≤ range.stop) :
    ∃ chunks, c.seek offset = some { c with chunks, offset } ∧
      (HoldsBack ts offset chunks ∧ (c.chunks.item = none → offset = 0) ∨
        (range.start = 0 ∧ ts ≠ [] ∧ chunks = .lost (ts.map chunkOf)) ∧ c.chunks.item = none ∧ offset ≠ 0) := by
  have hclamp : min (max offset c.range.start) c.range.stop = offset := by
    rw [h.range_eq]
    omega
  rw [Chunks.seek, if_pos (by rw [h.range_eq]; omega), hclamp]
  refine ⟨_, rfl, ?_⟩
  simp only [h.reversed, if_true]
  have hplace := h.place
  generalize c.chunks = p at hplace
  rcases hplace with hholds | ⟨hzero, hne, hoff⟩
  · have hall := hholds.all
    cases hholds with
    | empty heq =>
      subst heq
      obtain rfl : offset = 0 := Nat.le_zero.mp (hstop.trans hlen)
      exact .inl ⟨holdsBack_seek hall (Nat.zero_le _), fun _ => rfl⟩
    | @inside passed t rest heq hfront hle =>
      refine .inl ⟨?_, fun hnone => by simp at hnone⟩
      rw [placeAt_stop_cons, placeAt_start]
      by_cases hahead : byteLen passed.flatten + byteLen t < offset
      · rw [if_pos hahead, placeAt, ChunkPlace.seekForward, ← placeAt, placeAt_start, heq]
        exact holdsBack_seekOn (fun _ => by omega) (fun _ => cons_ne_nil _ _) (heq ▸ hstop.trans hlen)
      · rw [if_neg hahead]
        by_cases hbehind : offset ≤ byteLen passed.flatten
        · rw [if_pos hbehind]
          exact holdsBack_seek hall (hstop.trans hlen)
        · -- in the same chunk
          rw [if_neg hbehind]
          exact .inside heq (fun _ => by omega) (by omega)
  · rw [hoff.stop, hoff.start]
    by_cases hoffset : offset = 0
    · rw [hoffset, if_neg (lt_irrefl 0), if_pos (le_refl 0)]
      exact .inl ⟨holdsBack_seek hoff.all (Nat.zero_le _), fun _ => rfl⟩
    · rw [if_pos (Nat.pos_of_ne_zero hoffset), hoff.seekForward]
      exact .inr ⟨⟨hzero, hne, rfl⟩, hoff.item, hoffset⟩

section

variable (hts : ∀ t ∈ ts, Piece t) (h : Backward ts range c)
  (hlen : range.stop ≤ byteLen ts.flatten)
include hts h hlen

theorem Backward.call {call : ChunksCall} {c' : Chunks} (hcall : c.call call = some c') : Backward ts range c' := by
  have hrange : range.start ≤ range.stop := h.start_le.trans h.le_stop
  cases call with
  | seek offset =>
    obtain ⟨chunks, hseek, hchunks⟩ := @Backward.seek ts c range h hlen (min (max offset range.start) range.stop)
      (by omega) (by omega)
    rw [Chunks.call, seek_clamp, h.range_eq, hseek] at hcall
    cases hcall
    refine ⟨h.reversed, h.range_eq, by simp only; omega, by simp only; omega, ?_⟩
    rcases hchunks with ⟨hholds, -⟩ | ⟨⟨hzero, hne, rfl⟩, -⟩
    · exact .inl hholds
    · exact .inr ⟨hzero, hne, .lost⟩
  | next =>
    obtain ⟨⟨o, c₁⟩, hnext, rfl⟩ := Option.map_eq_some_iff.mp hcall
    cases hpeek : c.peek with
    | none =>
      rw [next, hpeek] at hnext
      cases hnext
    | some u =>
      cases u with
      | none =>
        rw [next, hpeek] at hnext
        cases hnext
        exact h
      | some u =>
        have hholds : HoldsBack ts c.offset c.chunks := by
          rcases h.place with hholds | ⟨-, -, hoff⟩
          · exact hholds
          · rw [peek_none h.reversed (.inr hoff.item)] at hpeek
            exact absurd (some.inj hpeek) (by simp)
        obtain ⟨chunks, hnext', hle, hstart, hchunks⟩ := next_back hts h.reversed hholds hpeek
        rw [hnext'] at hnext
        cases hnext
        have hle' := h.le_stop
        refine ⟨h.reversed, h.range_eq, h.range_eq ▸ hstart, by simp only; omega, ?_⟩
        rcases hchunks with hchunks | ⟨hzero, hne, hoffset, rfl⟩
        · exact .inl hchunks
        · exact .inr ⟨h.range_eq ▸ hzero, hne, .before hoffset⟩
  | nextLine =>
    rw [Chunks.call, nextLine, if_pos h.reversed] at hcall
    cases hcall
  | prevLine =>
    rw [Chunks.call, prevLine, if_pos h.reversed] at hcall
    cases hcall

theorem Backward.calls {calls : List ChunksCall} {c' : Chunks} (hcalls : c.calls calls = some c') : Backward ts range c' := by
  induction calls generalizing c with
  | nil =>
    cases hcalls
    exact h
  | cons call calls ih =>
    obtain ⟨c₁, hc₁, hcalls⟩ := Option.bind_eq_some_iff.mp hcalls
    exact ih (h.call hts hlen hc₁) hcalls

end

/-! ## After a seek -/

theorem strSlice_between {text l a z : List Char} (htext : text = l ++ (a ++ z)) :
    strSlice text (byteLen l) (byteLen (l ++ a)) = some a := by
  rw [htext, ← append_assoc]
  exact strSlice_append l a z

theorem text_between {text : List Char} {start stop : Nat} (hstart : Boundary text start) (hstop : Boundary text stop)
    (hle : start ≤ stop) : ∃ l a z, text = l ++ (a ++ z) ∧ start = byteLen l ∧ stop = byteLen (l ++ a) := by
  obtain ⟨l, r, rfl, rfl⟩ := hstart
  obtain ⟨y, z, heq, rfl⟩ := hstop
  obtain ⟨a, rfl, rfl⟩ := exists_append_of_byteLen_le heq hle
  exact ⟨l, a, z, rfl, rfl, rfl⟩

theorem seeksAnew_forward (hts : ∀ t ∈ ts, Piece t) (hstop : Boundary ts.flatten range.stop)
    (h : (∃ x, Forward ts range c x) ∨ Adrift ts range c) {offset : Nat} (hoffset : Boundary ts.flatten offset)
    (hle : range.start ≤ offset) (hle' : offset ≤ range.stop) : SeeksAnew (ropeOf ts) range c offset := by
  obtain ⟨hforward, hrange, hcut⟩ : c.reversed = false ∧ c.range = range ∧ Cut ts c.chunks := by
    rcases h with ⟨x, h⟩ | h
    · exact ⟨h.stands.forward, h.range_eq, h.stands.holds.cut⟩
    · exact ⟨h.forward, h.range_eq, h.located.cut⟩
  obtain ⟨l, a, z, htext, rfl, hlen⟩ := text_between hoffset hstop hle'
  have hfuel : byteLen a < (ropeOf ts).len + 1 := by
    rw [len_ropeOf, htext, byteLen_append, byteLen_append]
    omega
  obtain ⟨chunks, hseek, hloc⟩ := @seek_of_cut ts c hforward hcut (byteLen l) (by rw [hrange]; exact hle)
    (by rw [hrange]; exact hle')
  obtain ⟨us, hus, hflat⟩ := @Stands.collect_spec ts { c with chunks, offset := byteLen l } l hts _
    ⟨hforward, rfl, hloc.holds htext _⟩ a z htext (by rw [hrange]; exact hle) (by rw [hrange]; exact hlen) hfuel
  obtain ⟨anew, hnew, hstands, hrange'⟩ := new_spec hts htext range.stop
  obtain ⟨vs, hvs, hflat'⟩ := hstands.collect_spec hts htext (by rw [hrange']) (by rw [hrange', hlen]) hfuel
  rw [SeeksAnew, hforward]
  refine ⟨_, anew, a, hseek, hnew, ?_, ?_, ?_⟩
  · rw [text_ropeOf]
    simp only [Bool.false_eq_true, if_false]
    rw [hlen, strSlice_between htext]
  · rw [remaining, hus, map_some, hforward]
    exact congrArg some hflat
  · rw [remaining, hvs, map_some, hstands.forward]
    exact congrArg some hflat'

theorem seeksAnew_backward (hts : ∀ t ∈ ts, Piece t) (hstart : Boundary ts.flatten range.start)
    (hlen : range.stop ≤ byteLen ts.flatten) (h : Backward ts range c) {offset : Nat}
    (hoffset : Boundary ts.flatten offset) (hle : range.start ≤ offset) (hle' : offset ≤ range.stop) :
    SeeksAnew (ropeOf ts) range c offset ↔ (c.chunks.item = none → offset = 0) := by
  obtain ⟨chunks, hseek, hchunks⟩ := h.seek hlen hle hle'
  obtain ⟨l, a, z, htext, hl, rfl⟩ := text_between hstart hoffset hle
  have hfuel : byteLen a < (ropeOf ts).len + 1 := by
    rw [len_ropeOf, htext, byteLen_append, byteLen_append]
    omega
  rcases hchunks with ⟨hholds, himp⟩ | ⟨⟨hzero, hne, rfl⟩, hitem, hpos⟩
  · refine iff_of_true ?_ himp
    obtain ⟨us, hus, hflat⟩ := @collect_back ts { c with chunks, offset := byteLen (l ++ a) } hts _ h.reversed l a z
      htext (by rw [← hl, ← h.range_eq]) rfl (by rw [h.range_eq]; exact hle') (fun _ => hholds) hfuel
    obtain ⟨chunks', hnew, hholds'⟩ := new_back hts (htext.trans (append_assoc ..).symm) (byteLen l)
    obtain ⟨vs, hvs, hflat'⟩ := @collect_back ts ⟨chunks', ⟨byteLen l, byteLen (l ++ a)⟩, byteLen (l ++ a), true⟩ hts _
      rfl l a z htext rfl rfl (le_refl _) (fun _ => hholds') hfuel
    rw [SeeksAnew, h.reversed, hl]
    refine ⟨_, _, a, hseek, hnew, ?_, ?_, ?_⟩
    · rw [text_ropeOf]
      exact strSlice_between htext
    · rw [remaining, hus, map_some, h.reversed]
      exact congrArg some hflat
    · rw [remaining, hvs, map_some]
      exact congrArg some hflat'
  · refine iff_of_false ?_ fun himp => hpos (himp hitem)
    rintro ⟨c', anew, text, hseek', -, hslice, hremaining, -⟩
    obtain rfl := some.inj (hseek.symm.trans hseek')
    have hempty := @collect_none { c with chunks := .lost (ts.map chunkOf), offset := byteLen (l ++ a) }
      (ropeOf ts).len (next_none h.reversed (.inr rfl))
    rw [remaining, hempty, map_some, h.reversed] at hremaining
    cases hremaining
    -- but there is a text between
    rw [h.reversed, text_ropeOf, if_pos rfl, hl] at hslice
    obtain rfl : a = [] := some.inj ((strSlice_between htext).symm.trans hslice)
    rw [append_nil, ← hl] at hpos
    exact hpos hzero

/-- **A seek starts anew**, unless a reversed iterator has run off the front of the rope. -/
theorem seeks_anew_iff (ts : List (List Char)) (hts : ∀ t ∈ ts, Piece t) (range : Range) (reversed : Bool)
    (hle : range.start ≤ range.stop) (hstart : Boundary ts.flatten range.start)
    (hstop : Boundary ts.flatten range.stop) :
    ∃ c₀, Chunks.new (ropeOf ts) range reversed = some c₀ ∧ ∀ calls c, c₀.calls calls = some c →
      ∀ offset, Boundary ts.flatten offset → range.start ≤ offset → offset ≤ range.stop →
        (SeeksAnew (ropeOf ts) range c offset ↔ (reversed = true → c.chunks.item = none → offset = 0)) := by
  cases reversed with
  | false =>
    obtain ⟨c₀, x₀, hnew, h₀⟩ := forward_new hts hle hstart
    refine ⟨c₀, hnew, fun calls c hcalls offset hoffset hge hle' => ?_⟩
    refine iff_of_true ?_ (fun h => absurd h Bool.false_ne_true)
    exact seeksAnew_forward hts hstop (calls_settle hts hstart hstop hcalls (.inl ⟨x₀, h₀⟩)) hoffset hge hle'
  | true =>
    obtain ⟨x, z, htext, hx⟩ := hstop
    have hlen : range.stop ≤ byteLen ts.flatten := by
      rw [htext, byteLen_append]
      omega
    obtain ⟨chunks, hnew, hholds⟩ := new_back hts htext range.start
    rw [hx] at hnew hholds
    refine ⟨_, hnew, fun calls c hcalls offset hoffset hge hle' => ?_⟩
    have h : Backward ts range c :=
      Backward.calls hts ⟨rfl, rfl, hle, le_refl _, .inl hholds⟩ hlen hcalls
    rw [seeksAnew_backward hts hstart hlen h hoffset hge hle']
    exact ⟨fun h _ => h, fun h => h rfl⟩

/-- It starts anew at the front even then. -/
theorem seeks_anew_front :
    ∃ c₀ c, Chunks.new (ropeOf [['a', 'b']]) ⟨0, 2⟩ true = some c₀ ∧ c₀.calls [.next] = some c ∧
      SeeksAnew (ropeOf [['a', 'b']]) ⟨0, 2⟩ c 0 := by
  have hpieces : ∀ t ∈ [['a', 'b']], t ≠ [] ∧ byteLen t ≤ MAX_BASE := by decide
  obtain ⟨c₀, hnew, hcalls⟩ := seeks_anew_iff [['a', 'b']] (fun t ht => ⟨(hpieces t ht).1, (hpieces t ht).2⟩)
    ⟨0, 2⟩ true (by decide) ⟨[], ['a', 'b'], rfl, rfl⟩ ⟨['a', 'b'], [], rfl, rfl⟩
  have hrun : ((Chunks.new (ropeOf [['a', 'b']]) ⟨0, 2⟩ true).bind (·.calls [.next])).map offset = some 0 := by
    decide +kernel
  obtain ⟨c, hc, -⟩ := Option.map_eq_some_iff.mp hrun
  rw [hnew] at hc
  refine ⟨c₀, c, hnew, hc, ?_⟩
  exact (hcalls [.next] c hc 0 ⟨[], ['a', 'b'], rfl, rfl⟩ (le_refl 0) (Nat.zero_le 2)).mpr fun _ _ => rfl

/-- But from there a seek to the end of the range leaves nothing to give. -/
theorem seek_after_run_off :
    ∃ c₀ c, Chunks.new (ropeOf [['a', 'b']]) ⟨0, 2⟩ true = some c₀ ∧ c₀.calls [.next] = some c ∧
      ¬ SeeksAnew (ropeOf [['a', 'b']]) ⟨0, 2⟩ c 2 := by
  have hrun : ((Chunks.new (ropeOf [['a', 'b']]) ⟨0, 2⟩ true).bind fun c₀ => (c₀.calls [.next]).bind fun c =>
      (c.seek 2).bind fun c' => (c'.remaining 3).map fun text => (c.reversed, text)) = some (true, []) := by
    decide +kernel
  obtain ⟨c₀, hnew, hrun⟩ := Option.bind_eq_some_iff.mp hrun
  obtain ⟨c, hc, hrun⟩ := Option.bind_eq_some_iff.mp hrun
  obtain ⟨c₁, hseek, hrun⟩ := Option.bind_eq_some_iff.mp hrun
  obtain ⟨text₁, hremaining, hpair⟩ := Option.map_eq_some_iff.mp hrun
  obtain ⟨hreversed, rfl⟩ := Prod.mk.inj hpair
  refine ⟨c₀, c, hnew, hc, ?_⟩
  rintro ⟨c', anew, text, hseek', -, hslice, hremaining', -⟩
  obtain rfl := some.inj (hseek.symm.trans hseek')
  obtain rfl := some.inj (hremaining.symm.trans hremaining')
  rw [hreversed] at hslice
  exact absurd hslice (by decide +kernel)

end Chunks

end SpkEditor.Chunked
