import SpkEditor.Rope.ChunksProof

/-!
# Calls on the iterator

A forward iterator stands in its range whatever is called on it (`Forward`), as long as it is sought to the
offsets of characters; inside of a character it does nothing but seek (`Adrift`). From anywhere else in the range,
`next_line` goes behind the next newline and `prev_line` back to the last line start before the offset
(`line_steps`).
-/

namespace SpkEditor.Chunked

open List Option

theorem Holds.text {ts : List (List Char)} {x : List Char} {stop : Nat} {p : ChunkPlace} (h : Holds ts x stop p) :
    ∃ r, ts.flatten = x ++ r := by
  cases h with
  | @inside passed x₁ t₁ rest heq hx _ => exact ⟨t₁ ++ rest.flatten, by simp [heq, hx]⟩
  | atEnd hx => exact ⟨[], by simp [hx]⟩

inductive ChunksCall where
  | seek (offset : Nat)
  | next
  | nextLine
  | prevLine

namespace ChunksCall

/-- What a seek is clamped to is the offset of a character, or the end of the text. -/
def Lands (text : List Char) (range : Range) : ChunksCall → Prop
  | seek offset => Boundary text (min (max offset range.start) range.stop)
  | _ => True

end ChunksCall

namespace Chunks

def call (c : Chunks) : ChunksCall → Option Chunks
  | .seek offset => c.seek offset
  | .next => c.next.map Prod.snd
  | .nextLine => c.nextLine.map Prod.snd
  | .prevLine => c.prevLine.map Prod.snd

def calls (c : Chunks) (calls : List ChunksCall) : Option Chunks := calls.foldlM call c

def LineStartAt (text : List Char) (offset : Nat) : Prop := ∃ p q, text = p ++ q ∧ byteLen p = offset ∧ LineStart p

/-- What `next_line` and `prev_line` do, with `ahead` between the offset and the end of the range. A newline right
before the offset starts no line before it. -/
structure LineSteps (text : List Char) (range : Range) (c : Chunks) (ahead : List Char) : Prop where
  next : ∃ c', c.nextLine = some (decide ('\n' ∈ ahead), c') ∧
    c'.offset = (strFind '\n' ahead).elim range.stop (c.offset + · + 1)
  prev : ∃ found c', c.prevLine = some (found, c') ∧
    (found = true ↔ ∃ p, range.start ≤ p ∧ p < c.offset ∧ LineStartAt text p) ∧
    if found then
      (range.start ≤ c'.offset ∧ c'.offset < c.offset ∧ LineStartAt text c'.offset) ∧
        ∀ p, range.start ≤ p → p < c.offset → LineStartAt text p → p ≤ c'.offset
    else c'.offset = range.start

/-! ## Forward -/

structure Forward (ts : List (List Char)) (range : Range) (c : Chunks) (x : List Char) : Prop where
  stands : c.Stands ts x
  range_eq : c.range = range
  start_le : range.start ≤ byteLen x
  le_stop : byteLen x ≤ range.stop

variable {ts : List (List Char)} {range : Range} {c : Chunks} {x : List Char}

theorem Forward.ahead (h : Forward ts range c x) (hstop : Boundary ts.flatten range.stop) :
    ∃ v z, ts.flatten = x ++ (v ++ z) ∧ range.stop = byteLen (x ++ v) := by
  obtain ⟨r, hr⟩ := h.stands.holds.text
  obtain ⟨s, z, hs, hlen⟩ := hstop
  obtain ⟨v, rfl, -⟩ := exists_append_of_byteLen_le (hr.symm.trans hs) (hlen ▸ h.le_stop)
  exact ⟨v, z, by rw [hs, append_assoc], hlen.symm⟩

theorem Forward.boundary (h : Forward ts range c x) : Boundary ts.flatten c.offset := by
  obtain ⟨r, hr⟩ := h.stands.holds.text
  exact ⟨x, r, hr, h.stands.offset.symm⟩

/-! ## Inside of a character -/

/-- A forward iterator that has been sought into a character. -/
structure Adrift (ts : List (List Char)) (range : Range) (c : Chunks) : Prop where
  forward : c.reversed = false
  range_eq : c.range = range
  start_le : range.start ≤ c.offset
  le_stop : c.offset ≤ range.stop
  notBoundary : ¬ Boundary ts.flatten c.offset
  located : Located ts c.offset c.chunks

theorem Adrift.chunk (h : Adrift ts range c) (hstop : Boundary ts.flatten range.stop) :
    ∃ passed t rest, c.chunks = placeAt passed (t :: rest) ∧ byteLen passed.flatten < c.offset ∧
      c.offset < range.stop ∧ ¬ Boundary t (c.offset - byteLen passed.flatten) := by
  obtain ⟨passed, rest, rfl, hplace, hle, hlt⟩ := h.located
  have hbound : ∀ y z, (passed ++ rest).flatten = y ++ z → byteLen y ≠ c.offset := fun y z htext hy =>
    h.notBoundary ⟨y, z, htext, hy⟩
  have hstop' : c.offset ≠ range.stop := fun heq => h.notBoundary (heq ▸ hstop)
  have hfront := hbound passed.flatten rest.flatten (by rw [flatten_append])
  have hle' := h.le_stop
  cases rest with
  | nil =>
    obtain ⟨y, z, htext, hy⟩ := hstop
    have hlen := congrArg byteLen htext
    rw [byteLen_append, append_nil] at hlen
    omega
  | cons t rest =>
    refine ⟨passed, t, rest, hplace, by omega, by omega, ?_⟩
    rintro ⟨u, v, rfl, hu⟩
    refine hbound (passed.flatten ++ u) (v ++ rest.flatten) (by simp) ?_
    rw [byteLen_append]
    omega

theorem strSlice_start {text : List Char} {start stop : Nat} (h : ¬ Boundary text start) :
    strSlice text start stop = none := by
  rw [strSlice, if_neg]
  rintro ⟨-, hstart, -⟩
  exact h (isCharBoundary_iff.mp hstart)

theorem strSlice_stop {text : List Char} {start stop : Nat} (h : ¬ Boundary text stop) :
    strSlice text start stop = none := by
  rw [strSlice, if_neg]
  rintro ⟨-, -, hstop⟩
  exact h (isCharBoundary_iff.mp hstop)

section

variable (h : Adrift ts range c) (hstop : Boundary ts.flatten range.stop)
include h hstop

theorem Adrift.peek : c.peek = none := by
  obtain ⟨passed, t, rest, hplace, hfront, hlt, hnot⟩ := h.chunk hstop
  have hvalid : c.offsetIsValid = true := by
    rw [offsetIsValid, h.forward, h.range_eq]
    simp [h.start_le, hlt]
  rw [Chunks.peek, if_pos hvalid, hplace, h.forward]
  simp only [placeAt_item_cons, placeAt_start, chunkOf_text, Bool.false_eq_true, if_false, strSlice_start hnot,
    map_none, ite_self]

theorem Adrift.next : c.next = none := by
  rw [Chunks.next, h.peek hstop]
  rfl

theorem Adrift.nextLine : c.nextLine = none := by
  rw [Chunks.nextLine, h.forward, advanceLine, h.peek hstop]
  rfl

end

theorem boundary_of_newline {text : List Char} {ix : Nat} (h : (utf8 text)[ix]? = some 10) :
    Boundary text (ix + 1) := by
  induction text generalizing ix with
  | nil => simp at h
  | cons a text ih =>
    have hlen : (String.utf8EncodeChar a).length = a.utf8Size := String.length_utf8EncodeChar a
    rw [utf8_cons] at h
    by_cases hix : ix < a.utf8Size
    · rw [List.getElem?_append_left (by omega)] at h
      obtain rfl : a = '\n' := (@mem_utf8EncodeChar_ascii a '\n' (by decide)).mp (mem_of_getElem? h)
      obtain rfl : ix = 0 := Nat.lt_one_iff.mp hix
      exact ⟨['\n'], text, rfl, rfl⟩
    · rw [List.getElem?_append_right (by omega), hlen] at h
      obtain ⟨u, v, rfl, hu⟩ := ih h
      refine ⟨a :: u, v, rfl, ?_⟩
      rw [byteLen_cons]
      omega

theorem Adrift.prevLine (h : Adrift ts range c) (hstop : Boundary ts.flatten range.stop) : c.prevLine = none := by
  obtain ⟨passed, t, rest, hplace, hfront, -, hnot⟩ := h.chunk hstop
  have hlines : c.lineStartInChunk = none := by
    rw [lineStartInChunk, hplace, placeAt_item_cons]
    simp only [placeAt_start, if_neg (Nat.sub_ne_zero_of_lt hfront), chunkOf_text]
    refine Option.bind_eq_none_iff.mpr fun last hlast => ?_
    by_cases hnewline : last = 10
    · have hbound := boundary_of_newline (hnewline ▸ hlast)
      rw [Nat.sub_add_cancel (by omega)] at hbound
      exact absurd hbound hnot
    · rw [if_neg hnewline, strSlice_stop hnot]
      rfl
  rw [Chunks.prevLine, h.forward]
  simp only [Bool.false_eq_true, if_false]
  rw [hplace, placeAt_start, if_neg (by omega), hlines]
  rfl

theorem exists_line_before (hx : x ≠ []) : ∃ p q, x = p ++ q ∧ LineStart p ∧ LineTail q := by
  obtain ⟨y, a, rfl⟩ := (eq_nil_or_concat' x).resolve_left hx
  have htail : ∀ w, '\n' ∉ w → LineTail (w ++ [a]) := by
    intro w hw
    refine ⟨by simp, ?_⟩
    by_cases ha : a = '\n'
    · exact ⟨w, hw, .inr (by rw [ha])⟩
    · refine ⟨w ++ [a], ?_, .inl rfl⟩
      rw [mem_append, mem_singleton]
      exact not_or.mpr ⟨hw, Ne.symm ha⟩
  by_cases hmem : '\n' ∈ y
  · obtain ⟨u, w, rfl, hw⟩ := (newline_last _).resolve_left (not_not.mpr hmem)
    exact ⟨u ++ ['\n'], w ++ [a], by simp, .inr ⟨u, rfl⟩, htail w hw⟩
  · exact ⟨[], y ++ [a], rfl, .inl rfl, htail y hmem⟩

theorem lineStart_le {p q : List Char} (hq : LineTail q) {z : List Char} {o : Nat}
    (ho : LineStartAt (p ++ q ++ z) o) (hlt : o < byteLen (p ++ q)) : o ≤ byteLen p := by
  obtain ⟨p', r, heq, rfl, hp'⟩ := ho
  by_contra hgt
  obtain ⟨m, rfl, hm⟩ := exists_append_of_byteLen_le ((append_assoc p q z).symm.trans heq) (by omega)
  obtain ⟨m', rfl⟩ : ∃ m', m = m' ++ ['\n'] := by
    rcases eq_nil_or_concat' m with rfl | ⟨m', a, rfl⟩
    · exact absurd hgt (by simp)
    · rcases hp' with hnil | ⟨p', hp'⟩
      · simp at hnil
      · rw [← append_assoc] at hp'
        exact ⟨m', by rw [(append_inj' hp' rfl).2]⟩
  -- a newline that is not the last character
  obtain ⟨t, rfl, -⟩ := exists_append_of_byteLen_le hm.symm (by
    have h₁ := byteLen_append p q
    have h₂ := byteLen_append p (m' ++ ['\n'])
    omega)
  obtain ⟨-, q', hq', hq | hq⟩ := hq
  · exact hq' (by rw [← hq]; simp)
  · rcases eq_nil_or_concat' t with rfl | ⟨t', a, rfl⟩
    · simp at hlt
    · rw [← append_assoc] at hq
      exact hq' (by rw [← (append_inj' hq rfl).1]; simp)

/-! ## Each call -/

theorem seek_clamp (c : Chunks) (offset : Nat) :
    c.seek offset = c.seek (min (max offset c.range.start) c.range.stop) := by
  rw [seek, seek]
  by_cases hle : c.range.start ≤ c.range.stop
  · have hclamp : min (max (min (max offset c.range.start) c.range.stop) c.range.start) c.range.stop =
        min (max offset c.range.start) c.range.stop := by omega
    rw [if_pos hle, if_pos hle, hclamp]
  · rw [if_neg hle, if_neg hle]

theorem seek_settles (hforward : c.reversed = false) (hrange : c.range = range) (hcut : Cut ts c.chunks)
    (hle : range.start ≤ range.stop) (offset : Nat) :
    ∃ c', c.seek offset = some c' ∧ c'.offset = min (max offset range.start) range.stop ∧
      ((∃ y, Forward ts range c' y) ∨ Adrift ts range c') := by
  obtain ⟨chunks, hseek, hloc⟩ := @seek_of_cut ts c hforward hcut (min (max offset range.start) range.stop)
    (by rw [hrange]; omega) (by rw [hrange]; omega)
  refine ⟨_, by rw [seek_clamp, hrange]; exact hseek, rfl, ?_⟩
  by_cases hbound : Boundary ts.flatten (min (max offset range.start) range.stop)
  · obtain ⟨y, z, htext, hy⟩ := hbound
    refine .inl ⟨y, ⟨hforward, hy.symm, ?_⟩, hrange, by omega, by omega⟩
    exact (hy.symm ▸ hloc).holds htext _
  · exact .inr ⟨hforward, hrange, by simp only; omega, by simp only; omega, hbound, hloc⟩

section

variable (hts : ∀ t ∈ ts, Piece t) (h : Forward ts range c x)

include hts h

theorem Forward.next (hstop : Boundary ts.flatten range.stop) :
    ∃ o c' y, c.next = some (o, c') ∧ Forward ts range c' y := by
  obtain ⟨v, z, htext, hlen⟩ := h.ahead hstop
  by_cases hv : v = []
  · subst hv
    rw [append_nil] at hlen
    exact ⟨none, c, x, h.stands.next_end (by rw [h.range_eq]; omega), h⟩
  · obtain ⟨t, v', c', rfl, -, -, hnext, hstands, hrange⟩ := h.stands.next_spec hts htext hv
      (by rw [h.range_eq]; exact h.start_le) (by rw [h.range_eq]; exact hlen)
    have hle := h.start_le
    have hxt := byteLen_append x t
    have hxtv := byteLen_append (x ++ t) v'
    rw [append_assoc] at hxtv
    exact ⟨some t, c', x ++ t, hnext, hstands, hrange.trans h.range_eq, by omega, by omega⟩

theorem Forward.nextLine (hstop : Boundary ts.flatten range.stop) :
    ∃ v z c' y, ts.flatten = x ++ (v ++ z) ∧ range.stop = byteLen (x ++ v) ∧
      c.nextLine = some (decide ('\n' ∈ v), c') ∧ Forward ts range c' y ∧
      c'.offset = (strFind '\n' v).elim range.stop (c.offset + · + 1) := by
  obtain ⟨v, z, htext, hlen⟩ := h.ahead hstop
  have hle := h.start_le
  have hstart : c.range.start ≤ byteLen x := by rw [h.range_eq]; exact hle
  by_cases hmem : '\n' ∈ v
  · obtain ⟨u, w, rfl, hu⟩ := eq_append_cons_of_mem hmem
    obtain ⟨c', hnext, hstands, hrange⟩ := h.stands.nextLine_true hts hu htext hstart (by rw [h.range_eq]; exact hlen)
    have hline := byteLen_line x u
    have hrest := byteLen_append (x ++ (u ++ ['\n'])) w
    rw [append_assoc, append_assoc, singleton_append] at hrest
    refine ⟨_, z, c', _, htext, hlen, by rw [hnext, decide_eq_true hmem],
      ⟨hstands, hrange.trans h.range_eq, by omega, by omega⟩, ?_⟩
    rw [strFind_append hu, elim_some, hstands.offset, h.stands.offset, hline]
  · obtain ⟨c', hnext, hstands, hrange⟩ := h.stands.nextLine_false hts hmem htext hstart (by rw [h.range_eq]; exact hlen)
    have hxv := byteLen_append x v
    refine ⟨v, z, c', _, htext, hlen, by rw [hnext, decide_eq_false hmem],
      ⟨hstands, hrange.trans h.range_eq, by omega, by omega⟩, ?_⟩
    rw [strFind_of_not_mem hmem, elim_none, hstands.offset, hlen]

theorem Forward.prevLine (hstart : Boundary ts.flatten range.start) :
    ∃ found c' y, c.prevLine = some (found, c') ∧ Forward ts range c' y ∧
      (found = true ↔ ∃ p, range.start ≤ p ∧ p < c.offset ∧ LineStartAt ts.flatten p) ∧
      if found then
        (range.start ≤ c'.offset ∧ c'.offset < c.offset ∧ LineStartAt ts.flatten c'.offset) ∧
          ∀ p, range.start ≤ p → p < c.offset → LineStartAt ts.flatten p → p ≤ c'.offset
      else c'.offset = range.start := by
  obtain ⟨l, z, hl, hstartLen⟩ := hstart
  obtain ⟨r, hr⟩ := h.stands.holds.text
  have hle := h.start_le
  have hle' := h.le_stop
  by_cases hx : x = []
  · subst hx
    have hzero : range.start = 0 := by simpa using hle
    obtain ⟨c', hprev, hstands, hrange⟩ := h.stands.prevLine_front hts (by rw [h.range_eq]; exact hzero)
    refine ⟨false, c', [], hprev, ⟨hstands, hrange.trans h.range_eq, hle, hle'⟩, ?_, ?_⟩
    · rw [h.stands.offset]
      simp
    · rw [if_neg Bool.false_ne_true, hstands.offset, hzero, byteLen_nil]
  · obtain ⟨p, q, rfl, hp, hq⟩ := exists_line_before hx
    obtain ⟨c', hprev, hstands, hrange⟩ := h.stands.prevLine_spec hts hl (by rw [h.range_eq, hstartLen])
      (hstartLen ▸ hle) (by rw [h.range_eq]; exact hle') rfl hp hq
    have hpq := byteLen_append p q
    have hqpos := byteLen_pos hq.1
    have hat : LineStartAt ts.flatten (byteLen p) := ⟨p, q ++ r, by rw [hr, append_assoc], rfl, hp⟩
    have hlast : ∀ o, o < byteLen (p ++ q) → LineStartAt ts.flatten o → o ≤ byteLen p := fun o ho hat =>
      lineStart_le hq (hr ▸ hat) ho
    rw [h.stands.offset]
    by_cases hlp : byteLen l ≤ byteLen p
    · rw [decide_eq_true hlp] at hprev
      rw [if_pos hlp] at hstands
      refine ⟨true, c', p, hprev, ⟨hstands, hrange.trans h.range_eq, by omega, by omega⟩, ?_, ?_⟩
      · exact iff_of_true rfl ⟨byteLen p, by omega, by omega, hat⟩
      · rw [if_pos rfl, hstands.offset]
        exact ⟨⟨by omega, by omega, hat⟩, fun o _ ho hat => hlast o ho hat⟩
    · rw [decide_eq_false hlp] at hprev
      rw [if_neg hlp] at hstands
      refine ⟨false, c', l, hprev, ⟨hstands, hrange.trans h.range_eq, by omega, by omega⟩, ?_, ?_⟩
      · refine iff_of_false Bool.false_ne_true ?_
        rintro ⟨o, hstart, ho, hat⟩
        have := hlast o ho hat
        omega
      · rw [if_neg Bool.false_ne_true, hstands.offset, hstartLen]

end

/-! ## All calls -/

theorem Forward.call (hts : ∀ t ∈ ts, Piece t) (h : Forward ts range c x) (hstart : Boundary ts.flatten range.start)
    (hstop : Boundary ts.flatten range.stop) (call : ChunksCall) :
    ∃ c', c.call call = some c' ∧ ((∃ y, Forward ts range c' y) ∨ Adrift ts range c' ∧ ¬ call.Lands ts.flatten range) := by
  cases call with
  | seek offset =>
    obtain ⟨c', hseek, hoffset, h'⟩ :=
      seek_settles h.stands.forward h.range_eq h.stands.holds.cut (le_trans h.start_le h.le_stop) offset
    refine ⟨c', hseek, h'.imp_right fun hadrift => ⟨hadrift, fun hlands => ?_⟩⟩
    exact hadrift.notBoundary (hoffset ▸ hlands)
  | next =>
    obtain ⟨o, c', y, hnext, h'⟩ := h.next hts hstop
    exact ⟨c', by rw [Chunks.call, hnext]; rfl, .inl ⟨y, h'⟩⟩
  | nextLine =>
    obtain ⟨_, _, c', y, _, _, hnext, h', _⟩ := h.nextLine hts hstop
    exact ⟨c', by rw [Chunks.call, hnext]; rfl, .inl ⟨y, h'⟩⟩
  | prevLine =>
    obtain ⟨found, c', y, hprev, h', -⟩ := h.prevLine hts hstart
    exact ⟨c', by rw [Chunks.call, hprev]; rfl, .inl ⟨y, h'⟩⟩

theorem Adrift.call (h : Adrift ts range c) (hstop : Boundary ts.flatten range.stop) {call : ChunksCall} {c' : Chunks}
    (hcall : c.call call = some c') : (∃ y, Forward ts range c' y) ∨ Adrift ts range c' := by
  cases call with
  | seek offset =>
    obtain ⟨c'', hseek, -, h''⟩ :=
      seek_settles h.forward h.range_eq h.located.cut (le_trans h.start_le h.le_stop) offset
    obtain rfl := some.inj (hseek.symm.trans hcall)
    exact h''
  | next =>
    rw [Chunks.call, h.next hstop] at hcall
    cases hcall
  | nextLine =>
    rw [Chunks.call, h.nextLine hstop] at hcall
    cases hcall
  | prevLine =>
    rw [Chunks.call, h.prevLine hstop] at hcall
    cases hcall

section

variable (hts : ∀ t ∈ ts, Piece t)
include hts

theorem Forward.calls (h : Forward ts range c x) (hstart : Boundary ts.flatten range.start)
    (hstop : Boundary ts.flatten range.stop) {calls : List ChunksCall}
    (hlands : ∀ call ∈ calls, call.Lands ts.flatten range) : (c.calls calls).isSome := by
  induction calls generalizing c x with
  | nil => rfl
  | cons call calls ih =>
    obtain ⟨hcall, hcalls⟩ := List.forall_mem_cons.mp hlands
    obtain ⟨c₁, hc₁, ⟨y, h₁⟩ | ⟨-, hnot⟩⟩ := h.call hts hstart hstop call
    · rw [Chunks.calls, foldlM_cons, hc₁]
      exact ih h₁ hcalls
    · exact absurd hcall hnot

/-- Whatever comes to an end leaves the iterator in its range. -/
theorem calls_settle (hstart : Boundary ts.flatten range.start)
    (hstop : Boundary ts.flatten range.stop) {calls : List ChunksCall} {c' : Chunks} (hcalls : c.calls calls = some c')
    (h : (∃ x, Forward ts range c x) ∨ Adrift ts range c) : (∃ y, Forward ts range c' y) ∨ Adrift ts range c' := by
  induction calls generalizing c with
  | nil =>
    cases hcalls
    exact h
  | cons call calls ih =>
    obtain ⟨c₁, hc₁, hcalls⟩ := Option.bind_eq_some_iff.mp hcalls
    refine ih hcalls ?_
    rcases h with ⟨x, h⟩ | h
    · obtain ⟨c₂, hc₂, h₂⟩ := h.call hts hstart hstop call
      obtain rfl := some.inj (hc₂.symm.trans hc₁)
      exact h₂.imp_right And.left
    · exact h.call hstop hc₁

theorem forward_new (hle : range.start ≤ range.stop) (hstart : Boundary ts.flatten range.start) :
    ∃ c x, Chunks.new (ropeOf ts) range false = some c ∧ Forward ts range c x := by
  obtain ⟨l, z, hl, hlen⟩ := hstart
  obtain ⟨c, hnew, hstands, hrange⟩ := Chunks.new_spec hts hl range.stop
  rw [hlen] at hnew hrange
  exact ⟨c, l, hnew, hstands, hrange, hlen.ge, by omega⟩

end

/-- **The lines of a range**, from wherever calls have left the iterator. -/
theorem line_steps (ts : List (List Char)) (hts : ∀ t ∈ ts, Piece t) (range : Range) (hle : range.start ≤ range.stop)
    (hstart : Boundary ts.flatten range.start) (hstop : Boundary ts.flatten range.stop) :
    ∃ c₀, Chunks.new (ropeOf ts) range false = some c₀ ∧ ∀ calls : List ChunksCall,
      ((∀ call ∈ calls, call.Lands ts.flatten range) → (c₀.calls calls).isSome) ∧
      ∀ c, c₀.calls calls = some c → range.start ≤ c.offset ∧ c.offset ≤ range.stop ∧
        (¬ Boundary ts.flatten c.offset → c.nextLine = none ∧ c.prevLine = none) ∧
        (Boundary ts.flatten c.offset → ∃ x ahead z, ts.flatten = x ++ (ahead ++ z) ∧ c.offset = byteLen x ∧
          range.stop = byteLen (x ++ ahead) ∧ LineSteps ts.flatten range c ahead) := by
  obtain ⟨c₀, x₀, hnew, h₀⟩ := forward_new hts hle hstart
  refine ⟨c₀, hnew, fun calls => ⟨h₀.calls hts hstart hstop, fun c hcalls => ?_⟩⟩
  rcases calls_settle hts hstart hstop hcalls (.inl ⟨x₀, h₀⟩) with ⟨x, h⟩ | h
  · have hoffset := h.stands.offset
    refine ⟨hoffset.ge.trans' h.start_le, hoffset.le.trans h.le_stop, fun hnot => absurd h.boundary hnot, fun _ => ?_⟩
    obtain ⟨v, z, c', _, htext, hlen, hnext, _, hmoved⟩ := h.nextLine hts hstop
    obtain ⟨found, c'', _, hprev, _, hfound, hback⟩ := h.prevLine hts hstart
    exact ⟨x, v, z, htext, hoffset, hlen, ⟨c', hnext, hmoved⟩, ⟨found, c'', hprev, hfound, hback⟩⟩
  · exact ⟨h.start_le, h.le_stop, fun _ => ⟨h.nextLine hstop, h.prevLine hstop⟩, fun hbound =>
      absurd hbound h.notBoundary⟩

/-- To the line that starts with the second chunk. -/
theorem line_steps_twoChunks :
    ∃ c₀ c, Chunks.new (ropeOf [['a', '\n'], ['b']]) ⟨0, 3⟩ false = some c₀ ∧ c₀.calls [.nextLine] = some c ∧
      ∃ x ahead z, ['a', '\n', 'b'] = x ++ (ahead ++ z) ∧ c.offset = byteLen x ∧ 3 = byteLen (x ++ ahead) ∧
        LineSteps ['a', '\n', 'b'] ⟨0, 3⟩ c ahead := by
  have hpieces : ∀ t ∈ [['a', '\n'], ['b']], t ≠ [] ∧ byteLen t ≤ MAX_BASE := by decide
  obtain ⟨c₀, hnew, hcalls⟩ := line_steps [['a', '\n'], ['b']] (fun t ht => ⟨(hpieces t ht).1, (hpieces t ht).2⟩)
    ⟨0, 3⟩ (by decide) ⟨[], ['a', '\n', 'b'], rfl, rfl⟩ ⟨['a', '\n', 'b'], [], rfl, rfl⟩
  have hoffset : ((Chunks.new (ropeOf [['a', '\n'], ['b']]) ⟨0, 3⟩ false).bind (·.calls [.nextLine])).map offset =
      some 2 := by decide +kernel
  obtain ⟨c, hc, hlen⟩ := Option.map_eq_some_iff.mp hoffset
  rw [hnew] at hc
  obtain ⟨-, -, -, hsteps⟩ := (hcalls [.nextLine]).2 c hc
  exact ⟨c₀, c, hnew, hc, hsteps ⟨['a', '\n'], ['b'], rfl, hlen.symm⟩⟩

end Chunks

end SpkEditor.Chunked
