import SpkEditor.Rope.Chunk
import SpkEditor.Rope.NthSetBit

/-!
# The bitmaps of a chunk, bit by bit

However a chunk comes about, its bitmaps are those of its text (`Made.eq_chunkOf`): nothing is lost by a
shift, and no mask cuts a character of two UTF-16 units in two. So every bit says of one byte of the text
whether a character starts there, a newline or a tab.
-/

namespace SpkEditor.Chunked

open Bits Option

/-! ## What a bit says -/

def StartsAt (text : List Char) (i : Nat) (c : Char) : Prop :=
  ∃ before after, text = before ++ c :: after ∧ byteLen before = i

/-- **The bitmaps track the text.** -/
structure Tracks (chunk : ChunkSlice) : Prop where
  chars : ∀ i, chunk.chars.getLsbD i = true ↔ ∃ c, StartsAt chunk.text i c
  newlines : ∀ i, chunk.newlines.getLsbD i = true ↔ (utf8 chunk.text)[i]? = some 10
  tabs : ∀ i, chunk.tabs.getLsbD i = true ↔ (utf8 chunk.text)[i]? = some 9
  charsUtf16 : ∀ i, chunk.charsUtf16.getLsbD i = true ↔
    chunk.chars.getLsbD i = true ∨ ∃ k c, StartsAt chunk.text k c ∧ c.utf8Size = 4 ∧ i = k + 1
  /-- nothing is set at the end of the text or behind it -/
  below : ∀ i, byteLen chunk.text ≤ i → chunk.chars.getLsbD i = false ∧
    chunk.charsUtf16.getLsbD i = false ∧ chunk.newlines.getLsbD i = false ∧ chunk.tabs.getLsbD i = false

theorem boundary_iff_startsAt {text : List Char} {i : Nat} :
    i < byteLen text ∧ Boundary text i ↔ ∃ c, StartsAt text i c := by
  constructor
  · rintro ⟨hlt, before, after, rfl, rfl⟩
    cases after with
    | nil =>
      rw [List.append_nil] at hlt
      exact absurd hlt (lt_irrefl _)
    | cons c after => exact ⟨c, before, after, rfl, rfl⟩
  · rintro ⟨c, before, after, rfl, rfl⟩
    have := c.utf8Size_pos
    refine ⟨?_, before, c :: after, rfl, rfl⟩
    rw [byteLen_append, byteLen_cons]
    omega

theorem getLsbD_ofBits_fits {l : List Bool} (hl : l.length ≤ 128) (i : Nat) :
    (ofBits 128 l).getLsbD i = l[i]?.getD false := by
  rw [getLsbD_ofBits]
  by_cases hi : i < 128
  · simp [hi]
  · simp [hi, List.getElem?_eq_none (by omega : l.length ≤ i)]

theorem markBits_getElem? {a : Char} (ha : a.val.toNat < 128) (text : List Char) (i : Nat) :
    (markBits a text)[i]?.getD false = true ↔ (utf8 text)[i]? = some a.val.toUInt8 := by
  rw [markBits, ← map_utf8 (fun c => map_mark (c := c) ha), List.getElem?_map]
  cases (utf8 text)[i]? with
  | none => simp
  | some b => simp only [map_some, getD_some, decide_eq_true_eq, Option.some.injEq]

theorem utf16Bits_getElem? (c : Char) (i : Nat) :
    (utf16Bits c)[i]?.getD false = true ↔ i = 0 ∨ c.utf8Size = 4 ∧ i = 1 := by
  rw [utf16Bits]
  split
  · next h =>
    rcases i with _ | _ | _ | _ | i
    · simp
    · simp [h]
    · simp
    · simp
    · simp
  · next h =>
    cases i with
    | zero => simp [leading]
    | succ i =>
      have hfalse : (List.replicate (c.utf8Size - 1) false)[i]?.getD false = false := by
        rw [List.getElem?_replicate]
        split <;> rfl
      simp [leading, hfalse, h]

theorem startsAt_cons {d : Char} {text : List Char} {i : Nat} {c : Char} :
    StartsAt (d :: text) i c ↔ i = 0 ∧ c = d ∨ d.utf8Size ≤ i ∧ StartsAt text (i - d.utf8Size) c := by
  constructor
  · rintro ⟨before, after, happ, rfl⟩
    cases before with
    | nil => exact .inl ⟨rfl, (List.cons.inj happ).1.symm⟩
    | cons e before =>
      obtain ⟨rfl, rfl⟩ := List.cons.inj happ
      rw [byteLen_cons, Nat.add_sub_cancel_left]
      exact .inr ⟨Nat.le_add_right _ _, before, after, rfl, rfl⟩
  · rintro (⟨rfl, rfl⟩ | ⟨hle, before, after, rfl, hlen⟩)
    · exact ⟨[], text, rfl, rfl⟩
    · exact ⟨d :: before, after, rfl, by rw [byteLen_cons, hlen]; omega⟩

theorem unitBits_getElem? (text : List Char) (i : Nat) : (unitBits text)[i]?.getD false = true ↔
      (∃ c, StartsAt text i c) ∨ ∃ k c, StartsAt text k c ∧ c.utf8Size = 4 ∧ i = k + 1 := by
  induction text generalizing i with
  | nil => simp [unitBits, StartsAt]
  | cons d text ih =>
    have hpos := d.utf8Size_pos
    have hcons : unitBits (d :: text) = utf16Bits d ++ unitBits text := rfl
    rw [hcons]
    simp only [startsAt_cons]
    by_cases hi : i < d.utf8Size
    · rw [List.getElem?_append_left (by simpa using hi), utf16Bits_getElem?]
      constructor
      · rintro (rfl | ⟨hwide, rfl⟩)
        · exact .inl ⟨d, .inl ⟨rfl, rfl⟩⟩
        · exact .inr ⟨0, d, .inl ⟨rfl, rfl⟩, hwide, rfl⟩
      · rintro (⟨c, ⟨rfl, -⟩ | ⟨hle, -⟩⟩ | ⟨k, c, ⟨rfl, rfl⟩ | ⟨hle, -⟩, hwide, rfl⟩)
        · exact .inl rfl
        · omega
        · exact .inr ⟨hwide, rfl⟩
        · omega
    · rw [List.getElem?_append_right (by simpa using hi), length_utf16Bits, ih]
      constructor
      · rintro (⟨c, hc⟩ | ⟨k, c, hc, hwide, hk⟩)
        · exact .inl ⟨c, .inr ⟨by omega, hc⟩⟩
        · refine .inr ⟨d.utf8Size + k, c, .inr ⟨by omega, ?_⟩, hwide, by omega⟩
          rw [Nat.add_sub_cancel_left]
          exact hc
      · rintro (⟨c, ⟨rfl, -⟩ | ⟨-, hc⟩⟩ | ⟨k, c, ⟨rfl, rfl⟩ | ⟨hle, hc⟩, hwide, rfl⟩)
        · omega
        · exact .inl ⟨c, hc⟩
        · omega
        · exact .inr ⟨k - d.utf8Size, c, hc, hwide, by omega⟩

theorem tracks_chunkOf {text : List Char} (h : byteLen text ≤ MAX_BASE) : Tracks (chunkOf text) := by
  have hchars : ∀ i, (chunkOf text).chars.getLsbD i = (charBits text)[i]?.getD false := fun i =>
    getLsbD_ofBits_fits (by rw [length_charBits]; exact h) i
  have hunits : ∀ i, (chunkOf text).charsUtf16.getLsbD i = (unitBits text)[i]?.getD false := fun i =>
    getLsbD_ofBits_fits (by rw [length_unitBits]; exact h) i
  have hmarks : ∀ a i, (ofBits 128 (markBits a text)).getLsbD i = (markBits a text)[i]?.getD false := fun a i =>
    getLsbD_ofBits_fits (by rw [length_markBits]; exact h) i
  refine ⟨?_, ?_, ?_, ?_, ?_⟩
  · intro i
    rw [hchars, charBits_getElem?]
    exact boundary_iff_startsAt
  · intro i
    exact (Bool.eq_iff_iff.mp (hmarks '\n' i)).trans (markBits_getElem? (by decide) text i)
  · intro i
    exact (Bool.eq_iff_iff.mp (hmarks '\t' i)).trans (markBits_getElem? (by decide) text i)
  · intro i
    rw [hunits, hchars, unitBits_getElem?, charBits_getElem?, boundary_iff_startsAt]
    rfl
  · intro i hi
    refine ⟨?_, ?_, ?_, ?_⟩
    · rw [hchars, List.getElem?_eq_none (by rw [length_charBits]; exact hi)]
      rfl
    · rw [hunits, List.getElem?_eq_none (by rw [length_unitBits]; exact hi)]
      rfl
    · refine (hmarks '\n' i).trans ?_
      rw [List.getElem?_eq_none (by rw [length_markBits]; exact hi)]
      rfl
    · refine (hmarks '\t' i).trans ?_
      rw [List.getElem?_eq_none (by rw [length_markBits]; exact hi)]
      rfl

/-! ## How chunks come about -/

/-- What is made from `Chunk::new` by the operations on chunks and slices, on boundaries of characters. -/
inductive Made : ChunkSlice → Prop
  | new {text : List Char} {c : ChunkSlice} : Chunk.new text = some c → Made c
  | append {c s c' : ChunkSlice} : Made c → Made s → Chunk.append c s = some c' → Made c'
  | prepend {c s c' : ChunkSlice} : Made c → Made s → Chunk.prepend c s = some c' → Made c'
  | pushStr {c c' : ChunkSlice} {text : List Char} : Made c → Chunk.pushStr c text = some c' → Made c'
  | prependStr {c c' : ChunkSlice} {text : List Char} : Made c → Chunk.prependStr c text = some c' → Made c'
  | slice {c c' : ChunkSlice} {start stop : Nat} : Made c → start ≤ stop → Boundary c.text start →
      Boundary c.text stop → ChunkSlice.slice c start stop = some c' → Made c'
  | left {c l r : ChunkSlice} {mid : Nat} : Made c → Boundary c.text mid →
      ChunkSlice.splitAt c mid = some (l, r) → Made l
  | right {c l r : ChunkSlice} {mid : Nat} : Made c → Boundary c.text mid →
      ChunkSlice.splitAt c mid = some (l, r) → Made r

/-- A chunk of some text that fits. -/
def Whole (c : ChunkSlice) : Prop := ∃ text, byteLen text ≤ MAX_BASE ∧ c = chunkOf text

theorem whole_new {text : List Char} {c : ChunkSlice} (h : Chunk.new text = some c) : Whole c := by
  have hlen : byteLen text ≤ MAX_BASE := by
    by_contra hlt
    rw [Chunk.new, if_neg hlt] at h
    cases h
  rw [new_eq hlen] at h
  exact ⟨text, hlen, (some.inj h).symm⟩

theorem Whole.append {c s c' : ChunkSlice} (hc : Whole c) (hs : Whole s) (h : Chunk.append c s = some c') :
    Whole c' := by
  obtain ⟨text, hlen, rfl⟩ := hc
  obtain ⟨more, hlen', rfl⟩ := hs
  by_cases hfits : byteLen text + byteLen more ≤ MAX_BASE
  · rw [append_chunkOf hfits] at h
    exact ⟨text ++ more, by rw [byteLen_append]; exact hfits, (some.inj h).symm⟩
  · have hne : more ≠ [] := by
      rintro rfl
      exact hfits hlen
    rw [Chunk.append, chunkOf_text, if_neg hne, chunkOf_len, chunkOf_len, if_neg hfits] at h
    cases h

theorem Whole.prepend {c s c' : ChunkSlice} (hc : Whole c) (hs : Whole s) (h : Chunk.prepend c s = some c') :
    Whole c' := by
  obtain ⟨text, hlen, rfl⟩ := hc
  obtain ⟨more, hlen', rfl⟩ := hs
  by_cases hfits : byteLen more + byteLen text ≤ MAX_BASE
  · rw [prepend_chunkOf hfits] at h
    exact ⟨more ++ text, by rw [byteLen_append]; exact hfits, (some.inj h).symm⟩
  · have hne : more ≠ [] := by
      rintro rfl
      rw [byteLen_nil, zero_add] at hfits
      exact hfits hlen
    have hne' : text ≠ [] := by
      rintro rfl
      exact hfits hlen'
    rw [Chunk.prepend, chunkOf_text, chunkOf_text, if_neg hne, if_neg hne', chunkOf_len, chunkOf_len,
      if_neg hfits] at h
    cases h

theorem Made.whole {c : ChunkSlice} (h : Made c) : Whole c := by
  induction h with
  | new hnew => exact whole_new hnew
  | append _ _ h ihc ihs => exact ihc.append ihs h
  | prepend _ _ h ihc ihs => exact ihc.prepend ihs h
  | pushStr _ h ih =>
    obtain ⟨s, hs, h⟩ := Option.bind_eq_some_iff.mp h
    exact ih.append (whole_new hs) h
  | prependStr _ h ih =>
    obtain ⟨s, hs, h⟩ := Option.bind_eq_some_iff.mp h
    exact ih.prepend (whole_new hs) h
  | slice _ hle hstart hstop h ih =>
    obtain ⟨text, hlen, rfl⟩ := ih
    -- the two bounds cut the text into three
    obtain ⟨ab, t, happ, rfl⟩ := hstop
    obtain ⟨a, bt, happ', rfl⟩ := hstart
    rw [chunkOf_text] at happ happ'
    obtain ⟨b, rfl, rfl⟩ := exists_append_of_byteLen_le (happ'.symm.trans happ) hle
    rw [happ] at hlen h
    rw [slice_chunkOf hlen] at h
    refine ⟨b, ?_, (some.inj h).symm⟩
    rw [byteLen_append, byteLen_append] at hlen
    omega
  | left _ hmid h ih =>
    obtain ⟨text, hlen, rfl⟩ := ih
    obtain ⟨a, b, happ, rfl⟩ := hmid
    rw [chunkOf_text] at happ
    rw [happ] at hlen h
    rw [splitAt_chunkOf hlen] at h
    cases h
    exact ⟨a, by rw [byteLen_append] at hlen; omega, rfl⟩
  | right _ hmid h ih =>
    obtain ⟨text, hlen, rfl⟩ := ih
    obtain ⟨a, b, happ, rfl⟩ := hmid
    rw [chunkOf_text] at happ
    rw [happ] at hlen h
    rw [splitAt_chunkOf hlen] at h
    cases h
    exact ⟨b, by rw [byteLen_append] at hlen; omega, rfl⟩

/-- **The bitmaps of every chunk track its text**, and `nth_set_bit` finds every set bit of a bitmap. -/
theorem bitmaps_track : (∀ c, Made c → byteLen c.text ≤ MAX_BASE ∧ Tracks c) ∧
      ∀ (v : Bitmap) (n : Nat), 1 ≤ n → n ≤ countOnes v → ∃ i, nthSetBit v n = some i ∧ IsNthSetBit v n i := by
  refine ⟨fun c h => ?_, fun v n hpos hn => nthSetBit_spec v hpos hn⟩
  obtain ⟨text, hlen, rfl⟩ := h.whole
  exact ⟨hlen, tracks_chunkOf hlen⟩

end SpkEditor.Chunked
