import SpkEditor.Lib.Bits
import SpkEditor.Rope.Text

/-!
# Chunks

A rope cuts its text into chunks of at most 128 bytes (`rope/src/chunk.rs`). Beside its
text a chunk keeps four bitmaps with one bit for each byte: where characters start, how
many UTF-16 units there are, where the newlines and the tabs are. Every operation on a
chunk computes the new bitmaps from the old ones; `chunkOf` is what they have to be, and
each operation has a lemma that says so.

What the source asserts or unwraps is `none` here.
-/

namespace SpkEditor.Chunked

open Bits List

variable {s t text : List Char}

/-- `str::is_char_boundary`. -/
def isCharBoundary (text : List Char) (index : Nat) : Bool :=
  byteLen (splitFloor index text).1 = index

/-- `str::split_at`. -/
def strSplitAt (text : List Char) (mid : Nat) : Option (List Char × List Char) :=
  if isCharBoundary text mid then some (splitFloor mid text) else none

/-- `str::floor_char_boundary`. -/
def floorCharBoundary (text : List Char) (index : Nat) : Nat := byteLen (splitFloor index text).1

/-- `str::ceil_char_boundary`. -/
def ceilCharBoundary (text : List Char) (index : Nat) : Nat :=
  match splitFloor index text with
  | (before, []) => byteLen before
  | (before, c :: _) => if byteLen before = index then index else byteLen before + c.utf8Size

/-- `&text[start..end]`. -/
def strSlice (text : List Char) (start stop : Nat) : Option (List Char) :=
  if start ≤ stop ∧ isCharBoundary text start ∧ isCharBoundary text stop then
    some (splitFloor (stop - start) (splitFloor start text).2).1
  else none

/-- Some characters of a text have that many bytes together. -/
def Boundary (text : List Char) (index : Nat) : Prop :=
  ∃ before after, text = before ++ after ∧ byteLen before = index

theorem isCharBoundary_iff {index : Nat} : isCharBoundary text index ↔ Boundary text index := by
  rw [isCharBoundary, decide_eq_true_eq]
  constructor
  · intro h
    exact ⟨_, _, (splitFloor_append index text).symm, h⟩
  · intro h
    obtain ⟨before, after, rfl, rfl⟩ := h
    rw [splitFloor_byteLen]

theorem strSplitAt_append (before after : List Char) :
    strSplitAt (before ++ after) (byteLen before) = some (before, after) := by
  rw [strSplitAt, if_pos (isCharBoundary_iff.mpr ⟨before, after, rfl, rfl⟩), splitFloor_byteLen]

theorem strSlice_append (a b c : List Char) :
    strSlice (a ++ b ++ c) (byteLen a) (byteLen (a ++ b)) = some b := by
  have h₁ : isCharBoundary (a ++ b ++ c) (byteLen a) :=
    isCharBoundary_iff.mpr ⟨a, b ++ c, by simp, rfl⟩
  have h₂ : isCharBoundary (a ++ b ++ c) (byteLen (a ++ b)) :=
    isCharBoundary_iff.mpr ⟨a ++ b, c, rfl, rfl⟩
  have hle : byteLen a ≤ byteLen (a ++ b) := by
    rw [byteLen_append]
    omega
  rw [strSlice, if_pos ⟨hle, h₁, h₂⟩, append_assoc, splitFloor_byteLen, byteLen_append,
    Nat.add_sub_cancel_left, splitFloor_byteLen]

abbrev Bitmap := BitVec 128

/-- One bit for each byte of a chunk. -/
def MAX_BASE : Nat := 128

def MIN_BASE : Nat := MAX_BASE / 2

structure Chunk where
  chars : Bitmap
  charsUtf16 : Bitmap
  newlines : Bitmap
  tabs : Bitmap
  text : List Char
deriving DecidableEq

/-- `ChunkSlice` has the same fields, with a borrowed text. -/
abbrev ChunkSlice := Chunk

def ChunkSlice.empty : ChunkSlice := ⟨0, 0, 0, 0, []⟩

/-- `is_utf8_char_boundary`: the byte is not a continuation, as a signed comparison. -/
def isUtf8CharBoundary (b : UInt8) : Bool := b < 128 || 192 ≤ b

/-- The bits of up to eight bytes: `bits |= (p(b) as u8) << ix` over them. -/
def groupBits (p : UInt8 → Bool) (group : List UInt8) : BitVec 8 :=
  group.zipIdx.foldl (fun bits b => bits ||| ((if p b.1 then 1#8 else 0#8) <<< b.2)) 0#8

/-- `Bitmap::from_le_bytes`. -/
def fromLeBytes (bytes : List (BitVec 8)) : Bitmap :=
  bytes.foldr (fun b bits => b.setWidth 128 ||| (bits <<< 8)) 0

/-- The loop of `Chunk::new` for one bitmap: eight bytes at a time. -/
def bitmapOf (p : UInt8 → Bool) (bytes : List UInt8) : Bitmap :=
  fromLeBytes ((List.range (MAX_BASE / 8)).map fun k => groupBits p ((bytes.drop (8 * k)).take 8))

namespace Chunk

/-- `Chunk::new`; the text has to fit. -/
def new (text : List Char) : Option Chunk :=
  if byteLen text ≤ MAX_BASE then
    let bytes := utf8 text
    let chars := bitmapOf isUtf8CharBoundary bytes
    some
      { text
        chars
        charsUtf16 := (bitmapOf (240 ≤ ·) bytes <<< 1) ||| chars
        newlines := bitmapOf (· = 10) bytes
        tabs := bitmapOf (· = 9) bytes }
  else none

def len (c : Chunk) : Nat := byteLen c.text

/-- `append`. -/
def append (c : Chunk) (slice : ChunkSlice) : Option Chunk :=
  if slice.text = [] then some c
  else if c.len + slice.len ≤ MAX_BASE then
    some
      { chars := c.chars ||| (slice.chars <<< c.len)
        charsUtf16 := c.charsUtf16 ||| (slice.charsUtf16 <<< c.len)
        newlines := c.newlines ||| (slice.newlines <<< c.len)
        tabs := c.tabs ||| (slice.tabs <<< c.len)
        text := c.text ++ slice.text }
  else none

/-- `prepend`. -/
def prepend (c : Chunk) (slice : ChunkSlice) : Option Chunk :=
  if slice.text = [] then some c
  else if c.text = [] then new slice.text
  else if slice.len + c.len ≤ MAX_BASE then
    some
      { chars := slice.chars ||| (c.chars <<< slice.len)
        charsUtf16 := slice.charsUtf16 ||| (c.charsUtf16 <<< slice.len)
        newlines := slice.newlines ||| (c.newlines <<< slice.len)
        tabs := slice.tabs ||| (c.tabs <<< slice.len)
        text := slice.text ++ c.text }
  else none

/-- `push_str`. -/
def pushStr (c : Chunk) (text : List Char) : Option Chunk := (new text).bind c.append

/-- `prepend_str`. -/
def prependStr (c : Chunk) (text : List Char) : Option Chunk := (new text).bind c.prepend

end Chunk

namespace ChunkSlice

/-- `is_char_boundary`. -/
def isCharBoundary (c : ChunkSlice) (offset : Nat) : Bool :=
  (1#128 <<< offset) &&& c.chars != 0#128 || offset = c.len

/-- `split_at`. -/
def splitAt (c : ChunkSlice) (mid : Nat) : Option (ChunkSlice × ChunkSlice) :=
  if mid = MAX_BASE then some (c, empty)
  else
    (strSplitAt c.text mid).map fun texts =>
      let mask := lowMask 128 mid
      (⟨c.chars &&& mask, c.charsUtf16 &&& mask, c.newlines &&& mask, c.tabs &&& mask, texts.1⟩,
        ⟨c.chars >>> mid, c.charsUtf16 >>> mid, c.newlines >>> mid, c.tabs >>> mid, texts.2⟩)

/-- `slice`. A bound inside of a character is moved to the next one inwards. -/
def slice (c : ChunkSlice) (start stop : Nat) : Option ChunkSlice :=
  if start = MAX_BASE then some empty
  else
    let start := if isCharBoundary c start then start else ceilCharBoundary c.text start
    let stop :=
      if isCharBoundary c stop then stop
      else if stop < start then start
      else floorCharBoundary c.text stop
    (strSlice c.text start stop).map fun text =>
      let mask := lowMask 128 stop
      ⟨(c.chars &&& mask) >>> start, (c.charsUtf16 &&& mask) >>> start,
        (c.newlines &&& mask) >>> start, (c.tabs &&& mask) >>> start, text⟩

/-- `Into<Chunk>`. -/
def into (c : ChunkSlice) : Option Chunk := if c.len ≤ MAX_BASE then some c else none

end ChunkSlice

/-! ## What the bitmaps have to be -/

/-- A bit for the first byte of a character, and zeros for the others. -/
def leading (b : Bool) (c : Char) : List Bool := b :: List.replicate (c.utf8Size - 1) false

/-- A character past the first 2^16 has two UTF-16 units, which its first two bytes stand for. -/
def utf16Bits (c : Char) : List Bool :=
  if c.utf8Size = 4 then [true, true, false, false] else leading true c

def charBits (text : List Char) : List Bool := text.flatMap (leading true)

def unitBits (text : List Char) : List Bool := text.flatMap utf16Bits

/-- Where a character stands in a text. -/
def markBits (a : Char) (text : List Char) : List Bool := text.flatMap fun c => leading (c = a) c

def chunkOf (text : List Char) : Chunk :=
  ⟨ofBits 128 (charBits text), ofBits 128 (unitBits text), ofBits 128 (markBits '\n' text),
    ofBits 128 (markBits '\t' text), text⟩

@[simp] theorem length_leading (b : Bool) (c : Char) : (leading b c).length = c.utf8Size := by
  have := c.utf8Size_pos
  rw [leading, length_cons, length_replicate]
  omega

@[simp] theorem length_utf16Bits (c : Char) : (utf16Bits c).length = c.utf8Size := by
  rw [utf16Bits]
  split
  · rename_i h
    rw [h]
    rfl
  · exact length_leading true c

@[simp] theorem length_charBits (text : List Char) : (charBits text).length = byteLen text := by
  simp [charBits, length_flatMap, byteLen]

@[simp] theorem length_unitBits (text : List Char) : (unitBits text).length = byteLen text := by
  simp [unitBits, length_flatMap, byteLen]

@[simp] theorem length_markBits (a : Char) (text : List Char) :
    (markBits a text).length = byteLen text := by
  simp [markBits, length_flatMap, byteLen]

@[simp] theorem charBits_append (s t : List Char) : charBits (s ++ t) = charBits s ++ charBits t :=
  flatMap_append

@[simp] theorem unitBits_append (s t : List Char) : unitBits (s ++ t) = unitBits s ++ unitBits t :=
  flatMap_append

@[simp] theorem markBits_append (a : Char) (s t : List Char) :
    markBits a (s ++ t) = markBits a s ++ markBits a t :=
  flatMap_append

/-! ## The loop of `Chunk::new` -/

section

variable (p : UInt8 → Bool) (group : List UInt8)

theorem foldl_groupBits (k : Nat) (bits : BitVec 8) :
    (group.zipIdx k).foldl (fun bits b => bits ||| ((if p b.1 then 1#8 else 0#8) <<< b.2)) bits =
      bits ||| (ofBits 8 (group.map p) <<< k) := by
  induction group generalizing k bits with
  | nil => simp
  | cons b group ih =>
    have hbit : (if p b then 1#8 else 0#8) = ofBits 8 [p b] := by
      cases p b <;> decide
    have hcons : ofBits 8 (p b :: group.map p) = ofBits 8 [p b] ||| (ofBits 8 (group.map p) <<< 1) :=
      ofBits_append [p b] (group.map p)
    rw [zipIdx_cons, foldl_cons, ih, map_cons, hcons, hbit,
      BitVec.shiftLeft_or_distrib, ← BitVec.shiftLeft_add, add_comm 1 k, BitVec.or_assoc]

theorem groupBits_eq :
    groupBits p group = ofBits 8 (group.map p) := by
  rw [groupBits, foldl_groupBits]
  simp

end

theorem setWidth_ofBits {l : List Bool} (h : l.length ≤ 8) :
    (ofBits 8 l).setWidth 128 = ofBits 128 l := by
  apply BitVec.eq_of_getLsbD_eq
  intro i hi
  rw [BitVec.getLsbD_setWidth, getLsbD_ofBits, getLsbD_ofBits]
  by_cases h8 : i < 8
  · simp [h8]
  · simp [h8, getElem?_eq_none (by omega : l.length ≤ i)]

theorem fromLeBytes_groups (n : Nat) (l : List Bool) :
    fromLeBytes ((List.range n).map fun k => ofBits 8 ((l.drop (8 * k)).take 8)) =
      ofBits 128 (l.take (8 * n)) := by
  induction n generalizing l with
  | zero => simp [fromLeBytes]
  | succ n ih =>
    have htail : ((List.range n).map fun k => ofBits 8 ((l.drop (8 * (k + 1))).take 8)) =
        (List.range n).map fun k => ofBits 8 (((l.drop 8).drop (8 * k)).take 8) := by
      refine map_congr_left fun k _ => ?_
      rw [drop_drop, Nat.mul_succ, add_comm]
    have hcut : l.take (8 * (n + 1)) = l.take 8 ++ (l.drop 8).take (8 * n) := by
      rw [Nat.mul_succ, add_comm, take_add]
    have hcons : ∀ (b : BitVec 8) (bs : List (BitVec 8)),
        fromLeBytes (b :: bs) = b.setWidth 128 ||| (fromLeBytes bs <<< 8) := fun _ _ => rfl
    rw [range_succ_eq_map, map_cons, map_map, hcons]
    simp only [Function.comp_def, Nat.succ_eq_add_one, mul_zero, drop_zero]
    rw [htail, ih, setWidth_ofBits (by rw [length_take]; omega), hcut, ofBits_append]
    by_cases hl : 8 ≤ l.length
    · rw [length_take, min_eq_left hl]
    · -- a group that is cut short is the last one
      simp [drop_eq_nil_of_le (by omega : l.length ≤ 8)]

theorem bitmapOf_eq (p : UInt8 → Bool) (bytes : List UInt8) :
    bitmapOf p bytes = ofBits 128 (bytes.map p) := by
  have hgroups : ((List.range (MAX_BASE / 8)).map fun k => groupBits p ((bytes.drop (8 * k)).take 8)) =
      (List.range 16).map fun k => ofBits 8 (((bytes.map p).drop (8 * k)).take 8) := by
    refine map_congr_left fun k _ => ?_
    rw [groupBits_eq, map_take, map_drop]
  rw [bitmapOf, hgroups, fromLeBytes_groups]
  apply BitVec.eq_of_getLsbD_eq
  intro i hi
  rw [getLsbD_ofBits, getLsbD_ofBits, getElem?_take, if_pos (show i < 8 * 16 from hi)]

/-! ## The bytes of a character -/

theorem toNat_ofNat_of_lt {n : Nat} (h : n < 256) : (UInt8.ofNat n).toNat = n := by
  rw [UInt8.toNat_ofNat', Nat.mod_eq_of_lt h]

theorem utf8Size_eq_four {c : Char} : c.utf8Size = 4 ↔ ¬ c.val.toNat ≤ 65535 := by
  have h : ∀ n (hn : n < UInt32.size), c.val ≤ UInt32.ofNatLT n hn ↔ c.val.toNat ≤ n := by
    intro n hn
    rw [UInt32.le_iff_toNat_le, UInt32.toNat_ofNatLT]
  unfold Char.utf8Size
  simp only [h]
  split_ifs <;> omega

/-- The first byte of a character is a boundary, and one of the last sixteen when there
are four; the others are continuations. -/
theorem utf8EncodeChar_shape (c : Char) :
    ∃ b rest, String.utf8EncodeChar c = b :: rest ∧ isUtf8CharBoundary b = true ∧
      (240 ≤ b.toNat ↔ c.utf8Size = 4) ∧ ∀ x ∈ rest, 128 ≤ x.toNat ∧ x.toNat < 192 := by
  have hsize := utf8Size_eq_four (c := c)
  have hboundary : ∀ {n : Nat}, n < 256 → n < 128 ∨ 192 ≤ n →
      isUtf8CharBoundary (UInt8.ofNat n) = true := by
    intro n hn h
    have h' := toNat_ofNat_of_lt hn
    simp only [isUtf8CharBoundary, Bool.or_eq_true, decide_eq_true_eq, UInt8.lt_iff_toNat_lt,
      UInt8.le_iff_toNat_le, h']
    exact h
  have hrest : ∀ {n : Nat}, 128 ≤ n → n < 192 →
      128 ≤ (UInt8.ofNat n).toNat ∧ (UInt8.ofNat n).toNat < 192 := by
    intro n h₁ h₂
    rw [toNat_ofNat_of_lt (by omega)]
    exact ⟨h₁, h₂⟩
  unfold String.utf8EncodeChar
  dsimp only
  split
  · refine ⟨_, _, rfl, hboundary (by omega) (by omega), ?_, by simp⟩
    rw [toNat_ofNat_of_lt (by omega)]
    omega
  · split
    · refine ⟨_, _, rfl, hboundary (by omega) (by omega), ?_, ?_⟩
      · rw [toNat_ofNat_of_lt (by omega)]
        omega
      · intro x hx
        rw [List.mem_singleton.mp hx]
        exact hrest (by omega) (by omega)
    · split
      · refine ⟨_, _, rfl, hboundary (by omega) (by omega), ?_, ?_⟩
        · rw [toNat_ofNat_of_lt (by omega)]
          omega
        · intro x hx
          simp only [mem_cons, not_mem_nil, or_false] at hx
          rcases hx with rfl | rfl <;> exact hrest (by omega) (by omega)
      · refine ⟨_, _, rfl, hboundary (by omega) (by omega), ?_, ?_⟩
        · rw [toNat_ofNat_of_lt (by omega)]
          omega
        · intro x hx
          simp only [mem_cons, not_mem_nil, or_false] at hx
          rcases hx with rfl | rfl | rfl <;> exact hrest (by omega) (by omega)

/-- What a test says of the bytes of a character when it fails on continuations. -/
theorem map_utf8EncodeChar {c : Char} {p : UInt8 → Bool} {b : Bool}
    (hp : ∀ x : UInt8, 128 ≤ x.toNat → x.toNat < 192 → p x = false)
    (hb : ∀ x rest, String.utf8EncodeChar c = x :: rest → p x = b) :
    (String.utf8EncodeChar c).map p = leading b c := by
  obtain ⟨x, rest, hx, -, -, hrest⟩ := utf8EncodeChar_shape c
  have hlen := String.length_utf8EncodeChar c
  rw [hx, length_cons] at hlen
  have hfalse : rest.map p = List.replicate rest.length false := by
    rw [eq_replicate_iff]
    refine ⟨length_map .., fun y hy => ?_⟩
    obtain ⟨z, hz, rfl⟩ := List.mem_map.mp hy
    exact hp z (hrest z hz).1 (hrest z hz).2
  rw [hx, map_cons, hb x rest hx, hfalse, leading, ← hlen, Nat.add_sub_cancel]

theorem map_boundary (c : Char) :
    (String.utf8EncodeChar c).map isUtf8CharBoundary = leading true c := by
  refine map_utf8EncodeChar ?_ ?_
  · intro x h₁ h₂
    simp [isUtf8CharBoundary, UInt8.lt_iff_toNat_lt, UInt8.le_iff_toNat_le]
    omega
  · intro x rest hx
    obtain ⟨y, rest', hy, hboundary, -⟩ := utf8EncodeChar_shape c
    rw [hx] at hy
    rw [(List.cons.inj hy).1]
    exact hboundary

theorem map_wide (c : Char) :
    (String.utf8EncodeChar c).map (fun x => decide (240 ≤ x)) = leading (c.utf8Size = 4) c := by
  refine map_utf8EncodeChar ?_ ?_
  · intro x h₁ h₂
    simp [UInt8.le_iff_toNat_le]
    omega
  · intro x rest hx
    obtain ⟨y, rest', hy, -, hwide, -⟩ := utf8EncodeChar_shape c
    rw [hx] at hy
    rw [(List.cons.inj hy).1]
    simpa [UInt8.le_iff_toNat_le] using hwide

theorem map_mark {a c : Char} (ha : a.val.toNat < 128) :
    (String.utf8EncodeChar c).map (fun x => decide (x = a.val.toUInt8)) = leading (c = a) c := by
  have hbyte : a.val.toUInt8.toNat = a.val.toNat := by
    rw [UInt32.toNat_toUInt8]
    omega
  refine map_utf8EncodeChar ?_ ?_
  · intro x h₁ h₂
    rw [decide_eq_false_iff_not]
    intro hx
    rw [hx, hbyte] at h₁
    omega
  · intro x rest hx
    have hmem := mem_utf8EncodeChar_ascii (c := c) ha
    by_cases hc : c = a
    · subst hc
      rw [utf8EncodeChar_ascii ha] at hx
      simp [(List.cons.inj hx).1]
    · rw [hx] at hmem
      have hne : x ≠ a.val.toUInt8 := fun he => hc (hmem.mp (by rw [← he]; exact mem_cons_self ..))
      rw [decide_eq_false hne, decide_eq_false hc]

theorem map_utf8 {p : UInt8 → Bool} {f : Char → List Bool}
    (h : ∀ c, (String.utf8EncodeChar c).map p = f c) (text : List Char) :
    (utf8 text).map p = text.flatMap f := by
  rw [utf8, map_flatMap]
  exact congrArg (fun g => text.flatMap g) (funext h)

/-- The units of a character: where it starts, and where a wide one starts, one bit on. -/
theorem ofBits_utf16Bits (c : Char) :
    (ofBits 128 (leading (c.utf8Size = 4) c) <<< 1) ||| ofBits 128 (leading true c) =
      ofBits 128 (utf16Bits c) := by
  have h₁ := c.utf8Size_pos
  have h₂ := c.utf8Size_le_four
  rw [utf16Bits, leading, leading]
  have hcases : c.utf8Size = 1 ∨ c.utf8Size = 2 ∨ c.utf8Size = 3 ∨ c.utf8Size = 4 := by omega
  rcases hcases with h | h | h | h <;> rw [h] <;> decide

theorem ofBits_unitBits (text : List Char) :
    (ofBits 128 (text.flatMap fun c => leading (c.utf8Size = 4) c) <<< 1) ||| ofBits 128 (charBits text) =
      ofBits 128 (unitBits text) := by
  induction text with
  | nil => simp [charBits, unitBits]
  | cons c text ih =>
    have hc : charBits (c :: text) = leading true c ++ charBits text := rfl
    have hu : unitBits (c :: text) = utf16Bits c ++ unitBits text := rfl
    rw [flatMap_cons, hc, hu, ofBits_append, ofBits_append, ofBits_append, length_leading,
      length_leading, length_utf16Bits, ← ih, ← ofBits_utf16Bits]
    simp only [BitVec.shiftLeft_or_distrib, ← BitVec.shiftLeft_add, add_comm 1]
    ac_rfl

theorem new_eq (h : byteLen text ≤ MAX_BASE) : Chunk.new text = some (chunkOf text) := by
  have hnl : bitmapOf (· = 10) (utf8 text) = ofBits 128 (markBits '\n' text) := by
    rw [bitmapOf_eq]
    exact congrArg _ (map_utf8 (fun c => map_mark (a := '\n') (by decide)) text)
  have htab : bitmapOf (· = 9) (utf8 text) = ofBits 128 (markBits '\t' text) := by
    rw [bitmapOf_eq]
    exact congrArg _ (map_utf8 (fun c => map_mark (a := '\t') (by decide)) text)
  have hchars : bitmapOf isUtf8CharBoundary (utf8 text) = ofBits 128 (charBits text) := by
    rw [bitmapOf_eq]
    exact congrArg _ (map_utf8 map_boundary text)
  have hwide : bitmapOf (240 ≤ ·) (utf8 text) =
      ofBits 128 (text.flatMap fun c => leading (c.utf8Size = 4) c) := by
    rw [bitmapOf_eq]
    exact congrArg _ (map_utf8 map_wide text)
  rw [Chunk.new, if_pos h]
  simp only [hnl, htab, hchars, hwide, ofBits_unitBits]
  rfl

/-! ## Each operation keeps the bitmaps -/

@[simp] theorem chunkOf_text (text : List Char) : (chunkOf text).text = text := rfl

@[simp] theorem chunkOf_len (text : List Char) : (chunkOf text).len = byteLen text := rfl

@[simp] theorem chunkOf_nil : chunkOf [] = ChunkSlice.empty := by decide

theorem chunkOf_append (s t : List Char) :
    chunkOf (s ++ t) =
      ⟨(chunkOf s).chars ||| ((chunkOf t).chars <<< byteLen s),
        (chunkOf s).charsUtf16 ||| ((chunkOf t).charsUtf16 <<< byteLen s),
        (chunkOf s).newlines ||| ((chunkOf t).newlines <<< byteLen s),
        (chunkOf s).tabs ||| ((chunkOf t).tabs <<< byteLen s), s ++ t⟩ := by
  simp only [chunkOf, charBits_append, unitBits_append, markBits_append, ofBits_append,
    length_charBits, length_unitBits, length_markBits]

theorem append_chunkOf (h : byteLen s + byteLen t ≤ MAX_BASE) :
    (chunkOf s).append (chunkOf t) = some (chunkOf (s ++ t)) := by
  have hfits : (chunkOf s).len + (chunkOf t).len ≤ MAX_BASE := h
  by_cases ht : (chunkOf t).text = []
  · have hnil : t = [] := ht
    rw [Chunk.append, if_pos ht, hnil, append_nil]
  · rw [Chunk.append, if_neg ht, if_pos hfits, chunkOf_append]
    rfl

theorem prepend_chunkOf (h : byteLen t + byteLen s ≤ MAX_BASE) :
    (chunkOf s).prepend (chunkOf t) = some (chunkOf (t ++ s)) := by
  have hfits : (chunkOf t).len + (chunkOf s).len ≤ MAX_BASE := h
  by_cases ht : (chunkOf t).text = []
  · have hnil : t = [] := ht
    rw [Chunk.prepend, if_pos ht, hnil, nil_append]
  · by_cases hs : (chunkOf s).text = []
    · have hnil : s = [] := hs
      rw [Chunk.prepend, if_neg ht, if_pos hs, hnil, append_nil]
      exact new_eq (show byteLen t ≤ MAX_BASE by omega)
    · rw [Chunk.prepend, if_neg ht, if_neg hs, if_pos hfits, chunkOf_append]
      rfl

theorem pushStr_chunkOf (h : byteLen s + byteLen t ≤ MAX_BASE) :
    (chunkOf s).pushStr t = some (chunkOf (s ++ t)) := by
  rw [Chunk.pushStr, new_eq (by omega), Option.bind_some, append_chunkOf h]

theorem prependStr_chunkOf (h : byteLen t + byteLen s ≤ MAX_BASE) :
    (chunkOf s).prependStr t = some (chunkOf (t ++ s)) := by
  rw [Chunk.prependStr, new_eq (by omega), Option.bind_some, prepend_chunkOf h]

theorem charBits_getElem? (text : List Char) (i : Nat) :
    (charBits text)[i]?.getD false = true ↔ i < byteLen text ∧ Boundary text i := by
  induction text generalizing i with
  | nil => simp [charBits]
  | cons c text ih =>
    have hpos := c.utf8Size_pos
    have hcons : charBits (c :: text) = leading true c ++ charBits text := rfl
    rw [hcons, byteLen_cons]
    by_cases hi : i < c.utf8Size
    · rw [getElem?_append_left (by simpa using hi)]
      cases i with
      | zero =>
        simp only [leading, getElem?_cons_zero, Option.getD_some, true_iff]
        exact ⟨by omega, [], c :: text, rfl, rfl⟩
      | succ i =>
        have hfalse : (leading true c)[i + 1]?.getD false = false := by
          rw [leading, getElem?_cons_succ, getElem?_replicate]
          split <;> rfl
        rw [hfalse]
        refine iff_of_false (by simp) fun h => ?_
        -- no boundary is within the first character
        obtain ⟨-, before, after, happ, hlen⟩ := h
        cases before with
        | nil => simp at hlen
        | cons d before =>
          obtain ⟨rfl, -⟩ := List.cons.inj happ
          rw [byteLen_cons] at hlen
          omega
    · rw [getElem?_append_right (by simpa using hi), length_leading, ih]
      refine and_congr (by omega) ⟨fun h => ?_, fun h => ?_⟩
      · obtain ⟨before, after, rfl, hlen⟩ := h
        exact ⟨c :: before, after, rfl, by rw [byteLen_cons, hlen]; omega⟩
      · obtain ⟨before, after, happ, hlen⟩ := h
        cases before with
        | nil =>
          rw [byteLen_nil] at hlen
          omega
        | cons d before =>
          obtain ⟨rfl, rfl⟩ := List.cons.inj happ
          rw [byteLen_cons] at hlen
          exact ⟨before, after, rfl, by omega⟩

theorem isCharBoundary_chunkOf (h : byteLen text ≤ MAX_BASE) (i : Nat) :
    ChunkSlice.isCharBoundary (chunkOf text) i = true ↔ Boundary text i := by
  have hbit : (chunkOf text).chars.getLsbD i = true ↔ i < byteLen text ∧ Boundary text i := by
    rw [← charBits_getElem?, chunkOf, getLsbD_ofBits]
    by_cases hi : i < 128
    · simp [hi]
    · have hlen : (charBits text).length ≤ i := by
        rw [length_charBits]
        exact h.trans (by simpa [MAX_BASE] using hi)
      simp [hi, getElem?_eq_none hlen]
  rw [ChunkSlice.isCharBoundary, Bool.or_eq_true, one_shiftLeft_and_ne_zero, hbit, decide_eq_true_eq,
    chunkOf_len]
  constructor
  · intro hi
    rcases hi with ⟨-, hi⟩ | rfl
    · exact hi
    · exact ⟨text, [], by simp, rfl⟩
  · intro hi
    obtain ⟨before, after, rfl, rfl⟩ := hi
    by_cases ha : after = []
    · exact .inr (by simp [ha])
    · have := byteLen_pos ha
      exact .inl ⟨by rw [byteLen_append]; omega, before, after, rfl, rfl⟩

theorem chunkOf_left (s t : List Char) :
    chunkOf s = ⟨(chunkOf (s ++ t)).chars &&& lowMask 128 (byteLen s),
      (chunkOf (s ++ t)).charsUtf16 &&& lowMask 128 (byteLen s),
      (chunkOf (s ++ t)).newlines &&& lowMask 128 (byteLen s),
      (chunkOf (s ++ t)).tabs &&& lowMask 128 (byteLen s), s⟩ := by
  have htake : ∀ (a b : List Bool), a.length = byteLen s →
      ofBits 128 (a ++ b) &&& lowMask 128 (byteLen s) = ofBits 128 a := by
    intro a b ha
    rw [ofBits_and_lowMask, ← ha, take_left]
  simp only [chunkOf, charBits_append, unitBits_append, markBits_append]
  rw [htake _ _ (length_charBits s), htake _ _ (length_unitBits s), htake _ _ (length_markBits _ s),
    htake _ _ (length_markBits _ s)]

theorem chunkOf_right (h : byteLen (s ++ t) ≤ MAX_BASE) :
    chunkOf t = ⟨(chunkOf (s ++ t)).chars >>> byteLen s, (chunkOf (s ++ t)).charsUtf16 >>> byteLen s,
      (chunkOf (s ++ t)).newlines >>> byteLen s, (chunkOf (s ++ t)).tabs >>> byteLen s, t⟩ := by
  have hdrop : ∀ (a b : List Bool), a.length = byteLen s → b.length = byteLen t →
      ofBits 128 (a ++ b) >>> byteLen s = ofBits 128 b := by
    intro a b ha hb
    have hle : (a ++ b).length ≤ 128 := by
      rw [length_append, ha, hb, ← byteLen_append]
      exact h
    rw [ofBits_ushiftRight hle, ← ha, drop_left]
  simp only [chunkOf, charBits_append, unitBits_append, markBits_append]
  rw [hdrop _ _ (length_charBits s) (length_charBits t), hdrop _ _ (length_unitBits s) (length_unitBits t),
    hdrop _ _ (length_markBits _ s) (length_markBits _ t),
    hdrop _ _ (length_markBits _ s) (length_markBits _ t)]

theorem splitAt_chunkOf (h : byteLen (s ++ t) ≤ MAX_BASE) :
    ChunkSlice.splitAt (chunkOf (s ++ t)) (byteLen s) = some (chunkOf s, chunkOf t) := by
  rw [ChunkSlice.splitAt]
  by_cases hs : byteLen s = MAX_BASE
  · -- a full chunk has nothing behind its end
    have ht : t = [] := by
      rw [byteLen_append] at h
      exact byteLen_eq_zero.mp (by omega)
    rw [if_pos hs, ht, append_nil, chunkOf_nil]
  · rw [if_neg hs, chunkOf_text, strSplitAt_append, Option.map_some]
    simp only
    rw [← chunkOf_left, ← chunkOf_right h]

theorem slice_chunkOf {a b c : List Char} (h : byteLen (a ++ b ++ c) ≤ MAX_BASE) :
    ChunkSlice.slice (chunkOf (a ++ b ++ c)) (byteLen a) (byteLen (a ++ b)) = some (chunkOf b) := by
  have hab : byteLen (a ++ b) ≤ MAX_BASE := by
    rw [byteLen_append] at h
    omega
  rw [ChunkSlice.slice]
  by_cases ha : byteLen a = MAX_BASE
  · have hb : b = [] := by
      rw [byteLen_append] at hab
      exact byteLen_eq_zero.mp (by omega)
    rw [if_pos ha, hb, chunkOf_nil]
  · have h₁ : ChunkSlice.isCharBoundary (chunkOf (a ++ b ++ c)) (byteLen a) = true :=
      (isCharBoundary_chunkOf h _).mpr ⟨a, b ++ c, by simp, rfl⟩
    have h₂ : ChunkSlice.isCharBoundary (chunkOf (a ++ b ++ c)) (byteLen (a ++ b)) = true :=
      (isCharBoundary_chunkOf h _).mpr ⟨a ++ b, c, rfl, rfl⟩
    rw [if_neg ha]
    simp only [h₁, h₂, if_true, chunkOf_text, strSlice_append, Option.map_some]
    have hleft := chunkOf_left (a ++ b) c
    have hright := chunkOf_right hab
    rw [hleft] at hright
    exact congrArg some hright.symm

theorem into_chunkOf (h : byteLen text ≤ MAX_BASE) :
    ChunkSlice.into (chunkOf text) = some (chunkOf text) := by
  rw [ChunkSlice.into, chunkOf_len, if_pos h]

end SpkEditor.Chunked
