import Mathlib.Algebra.Order.Ring.Nat
import Mathlib.Data.List.Infix

/-!
# Texts and their bytes

A text is a list of characters; offsets into it count the bytes of its UTF-8 encoding.
Decoding an encoded text gives it back (`fromUtf8_utf8`, `fromUtf8Lossy_utf8`), and a
byte below 128 only ever stands for the character of that number (`ascii_mem_utf8`), so
that looking for an ASCII marker among the bytes is looking for it in the text
(`ascii_isPrefixOf_utf8`).
-/

namespace SpkEditor

open List

/-! ## Encoding -/

/-- The bytes of a text. -/
def utf8 (text : List Char) : List UInt8 := text.flatMap String.utf8EncodeChar

/-- `str::len`. -/
def byteLen (text : List Char) : Nat := (text.map Char.utf8Size).sum

/-- The longest prefix of a text with at most `n` bytes: what stands before
`floor_char_boundary(n)`, and what stands after it. -/
def splitFloor : Nat → List Char → List Char × List Char
  | _, [] => ([], [])
  | n, c :: text =>
    if c.utf8Size ≤ n then
      let r := splitFloor (n - c.utf8Size) text
      (c :: r.1, r.2)
    else ([], c :: text)

@[simp] theorem length_utf8 (text : List Char) : (utf8 text).length = byteLen text := by
  simp [utf8, byteLen, length_flatMap]

@[simp] theorem byteLen_nil : byteLen [] = 0 := rfl

@[simp] theorem byteLen_cons (c : Char) (text : List Char) :
    byteLen (c :: text) = c.utf8Size + byteLen text := by simp [byteLen]

theorem byteLen_append (s t : List Char) : byteLen (s ++ t) = byteLen s + byteLen t := by
  simp [byteLen]

theorem byteLen_pos {text : List Char} (h : text ≠ []) : 0 < byteLen text := by
  obtain ⟨c, t, rfl⟩ := exists_cons_of_ne_nil h
  have := c.utf8Size_pos
  rw [byteLen_cons]; omega

theorem byteLen_eq_zero {text : List Char} : byteLen text = 0 ↔ text = [] := by
  constructor
  · intro h
    by_contra hne
    have := byteLen_pos hne
    omega
  · rintro rfl; rfl

theorem exists_append_of_byteLen_le {s t s' t' : List Char} (h : s ++ t = s' ++ t')
    (hle : byteLen s ≤ byteLen s') : ∃ r, s' = s ++ r ∧ t = r ++ t' := by
  rcases List.append_eq_append_iff.mp h with ⟨r, hs, ht⟩ | ⟨r, hs, ht⟩
  · exact ⟨r, hs, ht⟩
  · have hr : r = [] := byteLen_eq_zero.mp (by rw [hs, byteLen_append] at hle; omega)
    subst hr
    exact ⟨[], by simpa using hs.symm, by simpa using ht.symm⟩

theorem splitFloor_append : ∀ (n : Nat) (text : List Char),
    (splitFloor n text).1 ++ (splitFloor n text).2 = text
  | _, [] => by simp [splitFloor]
  | n, c :: text => by
      simp only [splitFloor]
      split
      · simp [splitFloor_append (n - c.utf8Size) text]
      · rfl

theorem splitFloor_ne_nil {n : Nat} {text : List Char} (hn : 4 ≤ n) (ht : text ≠ []) :
    (splitFloor n text).1 ≠ [] := by
  obtain ⟨c, t, rfl⟩ := exists_cons_of_ne_nil ht
  have := c.utf8Size_le_four
  simp only [splitFloor]
  rw [if_pos (by omega)]
  simp

theorem byteLen_splitFloor_le : ∀ (n : Nat) (text : List Char), byteLen (splitFloor n text).1 ≤ n
  | _, [] => by simp [splitFloor]
  | n, c :: text => by
      rw [splitFloor]
      split
      · have := byteLen_splitFloor_le (n - c.utf8Size) text
        simp only [byteLen_cons]
        omega
      · simp

theorem lt_of_splitFloor : ∀ {n : Nat} {text : List Char} {c : Char} {after : List Char},
    (splitFloor n text).2 = c :: after → n < byteLen (splitFloor n text).1 + c.utf8Size
  | _, [], _, _, h => absurd h (by simp [splitFloor])
  | n, d :: text, c, after, h => by
      rw [splitFloor] at h ⊢
      by_cases hd : d.utf8Size ≤ n
      · rw [if_pos hd] at h ⊢
        have := lt_of_splitFloor h
        simp only [byteLen_cons]
        omega
      · rw [if_neg hd] at h ⊢
        obtain ⟨rfl, -⟩ := List.cons.inj h
        simpa using hd

/-! ## Decoding -/

/-- `String::from_utf8`. -/
def fromUtf8 (bytes : List UInt8) : Option (List Char) :=
  bytes.toByteArray.utf8Decode?.map Array.toList

def isContinuation (b : UInt8) : Bool := b &&& 0xC0 == 0x80

/-- How many bytes of an invalid sequence one replacement character stands for: the longest
part of it that could have become a character. -/
def invalidLen : List UInt8 → Nat
  | b :: c :: rest =>
    let second :=
      if b = 0xE0 then 0xA0 ≤ c && c ≤ 0xBF
      else if b = 0xED then 0x80 ≤ c && c ≤ 0x9F
      else if b = 0xF0 then 0x90 ≤ c && c ≤ 0xBF
      else if b = 0xF4 then 0x80 ≤ c && c ≤ 0x8F
      else 0xE1 ≤ b && b ≤ 0xF3 && isContinuation c
    if second then
      match rest with
      | d :: _ => if 0xF0 ≤ b && isContinuation d then 3 else 2
      | [] => 2
    else 1
  | _ => 1

def lossyFrom : Nat → List UInt8 → List Char
  | 0, _ => []
  | _, [] => []
  | fuel + 1, b :: bytes =>
    match (b :: bytes).toByteArray.utf8DecodeChar? 0 with
    | some c => c :: lossyFrom fuel ((b :: bytes).drop c.utf8Size)
    | none => '\uFFFD' :: lossyFrom fuel ((b :: bytes).drop (invalidLen (b :: bytes)))

/-- `String::from_utf8_lossy`. -/
def fromUtf8Lossy (bytes : List UInt8) : List Char := lossyFrom bytes.length bytes

@[simp] theorem utf8_nil : utf8 [] = [] := rfl

@[simp] theorem utf8_cons (c : Char) (text : List Char) :
    utf8 (c :: text) = String.utf8EncodeChar c ++ utf8 text := rfl

@[simp] theorem utf8_append (s t : List Char) : utf8 (s ++ t) = utf8 s ++ utf8 t :=
  flatMap_append

theorem fromUtf8_utf8 (text : List Char) : fromUtf8 (utf8 text) = some text := by
  have henc : (utf8 text).toByteArray = text.utf8Encode := rfl
  rw [fromUtf8, henc, List.utf8Decode?_utf8Encode]
  rfl

theorem utf8_injective {s t : List Char} (h : utf8 s = utf8 t) : s = t := by
  have := fromUtf8_utf8 s
  rw [h, fromUtf8_utf8] at this
  exact (Option.some.inj this).symm

theorem fromUtf8Lossy_utf8 (text : List Char) : fromUtf8Lossy (utf8 text) = text := by
  have hgo : ∀ (text : List Char) (fuel : Nat), (utf8 text).length ≤ fuel →
      lossyFrom fuel (utf8 text) = text := by
    intro text
    induction text with
    | nil =>
      intro fuel _
      cases fuel <;> rfl
    | cons c text ih =>
      intro fuel hfuel
      have hpos := c.utf8Size_pos
      have hlen : (String.utf8EncodeChar c).length = c.utf8Size := String.length_utf8EncodeChar c
      rw [utf8_cons, length_append, hlen] at hfuel
      obtain ⟨n, rfl⟩ : ∃ n, fuel = n + 1 := ⟨fuel - 1, by omega⟩
      have hdec : (utf8 (c :: text)).toByteArray.utf8DecodeChar? 0 = some c := by
        rw [utf8_cons, toByteArray_append]
        exact ByteArray.utf8DecodeChar?_utf8EncodeChar_append
      have hdrop : (utf8 (c :: text)).drop c.utf8Size = utf8 text := by
        rw [utf8_cons, ← hlen, drop_left]
      cases hb : utf8 (c :: text) with
      | nil =>
        rw [utf8_cons, append_eq_nil_iff] at hb
        exact absurd hb.1 String.utf8EncodeChar_ne_nil
      | cons b bytes =>
        rw [hb] at hdec hdrop
        rw [lossyFrom, hdec]
        dsimp only
        rw [hdrop, ih n (by omega)]
  exact hgo text _ (Nat.le_refl _)

/-! ## ASCII -/

theorem utf8EncodeChar_ascii {c : Char} (h : c.val.toNat < 128) : String.utf8EncodeChar c = [c.val.toUInt8] := by
  refine String.utf8EncodeChar_eq_singleton ?_
  have : c.val ≤ 127 := by
    exact Nat.le_of_lt_succ h
  simp [Char.utf8Size, this]

/-- The bytes of a character past ASCII are all past ASCII. -/
theorem le_of_mem_utf8EncodeChar {c : Char} (h : 128 ≤ c.val.toNat) {b : UInt8}
    (hb : b ∈ String.utf8EncodeChar c) : 128 ≤ b.toNat := by
  have hmod : ∀ {x : Nat}, 128 ≤ x → x < 256 → 128 ≤ (UInt8.ofNat x).toNat := by
    intro x h1 h2
    rw [UInt8.toNat_ofNat', Nat.mod_eq_of_lt h2]
    exact h1
  unfold String.utf8EncodeChar at hb
  rw [if_neg (by omega)] at hb
  split at hb
  · simp only [mem_cons, not_mem_nil, or_false] at hb
    rcases hb with rfl | rfl <;> exact hmod (by omega) (by omega)
  · split at hb
    · simp only [mem_cons, not_mem_nil, or_false] at hb
      rcases hb with rfl | rfl | rfl <;> exact hmod (by omega) (by omega)
    · simp only [mem_cons, not_mem_nil, or_false] at hb
      rcases hb with rfl | rfl | rfl | rfl <;> exact hmod (by omega) (by omega)

theorem mem_utf8EncodeChar_ascii {c a : Char} (ha : a.val.toNat < 128) :
    a.val.toUInt8 ∈ String.utf8EncodeChar c ↔ c = a := by
  have hbyte : ∀ {x : Char}, x.val.toNat < 128 → x.val.toUInt8.toNat = x.val.toNat := by
    intro x hx
    rw [UInt32.toNat_toUInt8]
    omega
  constructor
  · intro hmem
    rcases Nat.lt_or_ge c.val.toNat 128 with hc | hc
    · rw [utf8EncodeChar_ascii hc, mem_singleton] at hmem
      have heq : a.val.toNat = c.val.toNat := by
        rw [← hbyte ha, ← hbyte hc, hmem]
      exact (Char.ext (UInt32.toNat_inj.mp heq)).symm
    · have := le_of_mem_utf8EncodeChar hc hmem
      rw [hbyte ha] at this
      omega
  · rintro rfl
    rw [utf8EncodeChar_ascii ha]
    exact mem_singleton_self _

theorem ascii_mem_utf8 {a : Char} (ha : a.val.toNat < 128) (text : List Char) :
    a.val.toUInt8 ∈ utf8 text ↔ a ∈ text := by
  simp only [utf8, mem_flatMap, mem_utf8EncodeChar_ascii ha]
  constructor
  · rintro ⟨c, hc, rfl⟩; exact hc
  · intro h; exact ⟨a, h, rfl⟩

theorem ascii_isPrefixOf_utf8 : ∀ (m text : List Char), (∀ a ∈ m, a.val.toNat < 128) →
    ((utf8 m).isPrefixOf (utf8 text) = true ↔ m <+: text)
  | [], text, _ => by simp
  | a :: m, [], h => by
      have ha := utf8EncodeChar_ascii (h a (by simp))
      simp [utf8_cons, ha]
  | a :: m, c :: text, h => by
      have ha := h a (mem_cons_self ..)
      have ih := ascii_isPrefixOf_utf8 m text (fun x hx => h x (mem_cons_of_mem _ hx))
      rw [cons_prefix_cons, utf8_cons, utf8_cons, utf8EncodeChar_ascii ha]
      by_cases hc : c = a
      · subst hc
        rw [utf8EncodeChar_ascii ha, singleton_append, singleton_append,
          isPrefixOf_cons_cons_self]
        simpa using ih
      · have hnot : a.val.toUInt8 ∉ String.utf8EncodeChar c := fun hm =>
          hc ((mem_utf8EncodeChar_ascii ha).mp hm)
        obtain ⟨b, bs, hbs⟩ := exists_cons_of_ne_nil (@String.utf8EncodeChar_ne_nil c)
        have hne : a.val.toUInt8 ≠ b := fun heq => hnot (by rw [hbs, heq]; exact mem_cons_self ..)
        have hfalse : ([a.val.toUInt8] ++ utf8 m).isPrefixOf (b :: bs ++ utf8 text) = false := by
          rw [singleton_append, cons_append, List.isPrefixOf]
          rw [beq_eq_false_iff_ne.mpr hne, Bool.false_and]
        rw [hbs, hfalse]
        exact ⟨fun h => absurd h Bool.false_ne_true, fun h => absurd h.1.symm hc⟩

end SpkEditor
