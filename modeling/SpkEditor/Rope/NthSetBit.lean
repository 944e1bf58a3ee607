import SpkEditor.Lib.Bits
import SpkEditor.Lib.Packed
import SpkEditor.Text.Patch
import Mathlib.Data.Nat.Bitwise

/-!
# The n-th set bit

`nth_set_bit` of `rope/src/chunk.rs`. It counts the bits of a reversed word in fields of two, four,
eight and sixteen, and then goes down again from the whole word to a single bit: at each level the bit
is in the upper half of the field, or in the lower half behind all those of the upper one. Which half it
is comes out of the borrow of a wrapping subtraction, without a branch.

What panics in a debug build is `none` here.
-/

namespace SpkEditor.Chunked

open Bits List
open Packed

/-- `u64::wrapping_sub`. -/
def wrappingSub (a b : Nat) : Nat := (a + 2 ^ 64 - b) % 2 ^ 64

/-- Addition of `u64`. -/
def checkedAdd (a b : Nat) : Option Nat := if a + b < 2 ^ 64 then some (a + b) else none

/-- `u64::MAX`. -/
def U64_MAX : Nat := 2 ^ 64 - 1

/-- The end of the half, `s -= (t.wrapping_sub(n) & 256) >> k`. -/
def selectHalf (t s n k : Nat) : Option Nat := Patch.checkedSub s ((wrappingSub t n &&& 256) >>> k)

/-- One level of the branchless select: the half, and the rank in it. -/
def select (t s n k : Nat) : Option (Nat × Nat) := do
  let s ← selectHalf t s n k
  let n ← Patch.checkedSub n (t &&& (wrappingSub t n >>> 8))
  some (s, n)

/-- `nth_set_bit_u64`. -/
def nthSetBitU64 (v : BitVec 64) (n : Nat) : Option Nat := do
  let v := v.reverse.toNat
  let s := 64
  -- parallel bit count intermediates
  let a ← Patch.checkedSub v ((v >>> 1) &&& (U64_MAX / 3))
  let b ← checkedAdd (a &&& (U64_MAX / 5)) ((a >>> 2) &&& (U64_MAX / 5))
  let c := (← checkedAdd b (b >>> 4)) &&& (U64_MAX / 0x11)
  let d := (← checkedAdd c (c >>> 8)) &&& (U64_MAX / 0x101)
  -- branchless select
  let t ← checkedAdd (d >>> 32) (d >>> 48)
  let (s, n) ← select t s n 3
  let t := (d >>> (← Patch.checkedSub s 16)) &&& 0xff
  let (s, n) ← select t s n 4
  let t := (c >>> (← Patch.checkedSub s 8)) &&& 0xf
  let (s, n) ← select t s n 5
  let t := (b >>> (← Patch.checkedSub s 4)) &&& 0x7
  let (s, n) ← select t s n 6
  let t := (a >>> (← Patch.checkedSub s 2)) &&& 0x3
  let (s, n) ← select t s n 7
  let t := (v >>> (← Patch.checkedSub s 1)) &&& 0x1
  let s ← selectHalf t s n 8
  Patch.checkedSub (← Patch.checkedSub 65 s) 1

/-- `nth_set_bit`. -/
def nthSetBit (v : BitVec 128) (n : Nat) : Option Nat :=
  let low := v.setWidth 64
  let high := (v >>> 64).setWidth 64
  let lowCount := countOnes low
  if lowCount < n then (nthSetBitU64 high (n - lowCount)).map (64 + ·) else nthSetBitU64 low n

/-- The `n`-th set bit, counted from one: it is set, and so are `n - 1` of those below it. -/
structure IsNthSetBit {w : Nat} (v : BitVec w) (n i : Nat) : Prop where
  set : v.getLsbD i = true
  rank : (List.range i).countP v.getLsbD + 1 = n

/-! ## One level -/

theorem and_256 (n : Nat) : n &&& 256 = n / 256 % 2 * 256 := by
  have h : n &&& 2 ^ 8 = (n.testBit 8).toNat * 2 ^ 8 := Nat.and_two_pow n 8
  rw [Nat.testBit_eq_decide_div_mod_eq] at h
  rcases Nat.mod_two_eq_zero_or_one (n / 2 ^ 8) with h0 | h1
  · rw [h0] at h
    rw [show n / 256 % 2 = 0 from h0]
    simpa using h
  · rw [h1] at h
    rw [show n / 256 % 2 = 1 from h1]
    simpa using h

section

variable {x y n : Nat} (hx : x ≤ 64) (hy : y ≤ 16) (hn : n ≤ 64)
include hx hy hn

/-- The borrow tells whether the upper half, with `x` bits, has the `n`-th one. -/
theorem wrappingSub_and :
    wrappingSub (x + 2 ^ 16 * y) n &&& 256 = if x < n then 256 else 0 := by
  rw [and_256, wrappingSub]
  split
  · have : (x + 2 ^ 16 * y + 2 ^ 64 - n) % 2 ^ 64 / 256 % 2 = 1 := by omega
    rw [this]
  · have : (x + 2 ^ 16 * y + 2 ^ 64 - n) % 2 ^ 64 / 256 % 2 = 0 := by omega
    rw [this]

/-- What is counted in the upper half is passed if the bit is not there. -/
theorem and_wrappingSub :
    (x + 2 ^ 16 * y) &&& (wrappingSub (x + 2 ^ 16 * y) n >>> 8) = if x < n then x else 0 := by
  have hhigh : ∀ z < 2 ^ 8, (2 ^ 8 * y) &&& z = 0 := by
    intro z hz
    have := @and_add_mul 8 0 z (by omega) hz y 0
    simpa using this
  have hcut : x + 2 ^ 16 * y = x + 2 ^ 8 * (2 ^ 8 * y) := by omega
  rw [Nat.shiftRight_eq_div_pow, wrappingSub]
  split
  · rcases Nat.eq_zero_or_pos y with rfl | hpos
    · -- nothing above to borrow from
      have hall : (x + 2 ^ 16 * 0 + 2 ^ 64 - n) % 2 ^ 64 / 2 ^ 8 = 2 ^ 56 - 1 := by omega
      rw [hall, Nat.and_two_pow_sub_one_eq_mod]
      omega
    · have hborrow : (x + 2 ^ 16 * y + 2 ^ 64 - n) % 2 ^ 64 / 2 ^ 8 = (2 ^ 8 - 1) + 2 ^ 8 * (y - 1) := by omega
      rw [hborrow, hcut, and_add_mul (by omega) (by omega), hhigh _ (by omega),
        Nat.and_two_pow_sub_one_eq_mod]
      omega
  · have hnone : (x + 2 ^ 16 * y + 2 ^ 64 - n) % 2 ^ 64 / 2 ^ 8 = 0 + 2 ^ 8 * y := by omega
    rw [hnone, hcut, and_add_mul (by omega) (by omega), Nat.and_zero, hhigh _ (by omega), Nat.mul_zero]

end

section

variable {x y s n k w : Nat} (hx : x ≤ 64) (hy : y ≤ 16) (hn : n ≤ 64) (hk : 256 >>> k = w)
  (hs : w ≤ s)
include hx hy hn hk hs

theorem selectHalf_eq : selectHalf (x + 2 ^ 16 * y) s n k = some (if x < n then s - w else s) := by
  rw [selectHalf, wrappingSub_and hx hy hn]
  by_cases h : x < n
  · rw [if_pos h, if_pos h, hk, Patch.checkedSub, if_pos hs]
  · rw [if_neg h, if_neg h, Nat.zero_shiftRight, Patch.checkedSub, if_pos (Nat.zero_le _), Nat.sub_zero]

theorem select_eq :
    select (x + 2 ^ 16 * y) s n k = some (if x < n then (s - w, n - x) else (s, n)) := by
  rw [select, selectHalf_eq hx hy hn hk hs, and_wrappingSub hx hy hn]
  by_cases h : x < n
  · simp [h, Patch.checkedSub, le_of_lt h]
  · simp [h, Patch.checkedSub]

end

/-- **One level down**: from a field of `2 * w` bits that ends at `s` to one of its halves. -/
theorem select_down {l : List Nat} (hl : Paired l) {rank j n : Nat} (h : Ranked (pairSum l) rank j n)
    (hrank : rank ≤ 64) {w k : Nat} (hk : 256 >>> k = w) {x y : Nat} (hx : l[2 * j + 1]? = some x)
    (hle : x ≤ 64) (hy : y ≤ 16) :
    ∃ j' n', select (x + 2 ^ 16 * y) (2 * w * (j + 1)) n k = some (w * (j' + 1), n') ∧
      Ranked l rank j' n' := by
  have hn : n ≤ 64 := le_trans h.le_rank hrank
  have hs : w ≤ 2 * w * (j + 1) := by
    have : 2 * w * (j + 1) = w + (w + 2 * w * j) := by ring
    omega
  obtain ⟨t, ht, hlow, hhigh⟩ := h.down hl
  obtain rfl : t = x := Option.some.inj (ht.symm.trans hx)
  rw [select_eq hle hy hn hk hs]
  by_cases hlt : t < n
  · refine ⟨2 * j, n - t, ?_, hlow hlt⟩
    have : 2 * w * (j + 1) = w * (2 * j + 1) + w := by ring
    rw [if_pos hlt, this, Nat.add_sub_cancel]
  · refine ⟨2 * j + 1, n, ?_, hhigh (Nat.le_of_not_lt hlt)⟩
    have : 2 * w * (j + 1) = w * (2 * j + 1 + 1) := by ring
    rw [if_neg hlt, this]

theorem selectHalf_of_select {t s n k s' n' : Nat} (h : select t s n k = some (s', n')) :
    selectHalf t s n k = some s' := by
  obtain ⟨x, hx, h⟩ := Option.bind_eq_some_iff.mp h
  obtain ⟨y, -, h⟩ := Option.bind_eq_some_iff.mp h
  cases h
  exact hx

/-! ## The counts -/

theorem checkedAdd_eq {a b : Nat} (h : a + b < 2 ^ 64) : checkedAdd a b = some (a + b) := if_pos h

theorem pack_lt {w : Nat} {l : List Nat} (h : ∀ x ∈ l, x < 2 ^ w) : pack w l < 2 ^ (w * l.length) := by
  induction l with
  | nil => exact Nat.one_pos
  | cons x l ih =>
    rw [forall_mem_cons] at h
    have hrest := ih h.2
    calc x + 2 ^ w * pack w l < 2 ^ w + 2 ^ w * pack w l := Nat.add_lt_add_right h.1 _
      _ = 2 ^ w * (pack w l + 1) := by ring
      _ ≤ 2 ^ w * 2 ^ (w * l.length) := Nat.mul_le_mul_left _ hrest
      _ = 2 ^ (w * (x :: l).length) := by rw [← Nat.pow_add, length_cons, Nat.mul_succ, add_comm]

/-- The counts of `w` bits each, for a word of 64. -/
structure Level (w : Nat) (l : List Nat) : Prop where
  len : w * l.length = 64
  le : ∀ x ∈ l, x ≤ w

section

variable {w : Nat} {l : List Nat}

theorem Level.up (h : Level w l) (hl : Paired l) : Level (2 * w) (pairSum l) := by
  refine ⟨?_, pairSum_le hl h.le⟩
  rw [mul_comm 2 w, mul_assoc, length_pairSum hl]
  exact h.len

theorem Level.lt (h : Level w l) {m : Nat} (hw : w < 2 ^ m) : ∀ x ∈ l, x < 2 ^ m := fun x hx =>
  lt_of_le_of_lt (h.le x hx) hw

theorem Level.pack_lt (h : Level w l) (hw : w < 2 ^ w) : pack w l < 2 ^ 64 := by
  have := Chunked.pack_lt (h.lt hw)
  rwa [h.len] at this

theorem twos_eq (h : Level 1 l) (hl : l.length = 2 * 32) :
    Patch.checkedSub (pack 1 l) ((pack 1 l >>> 1) &&& (U64_MAX / 3)) = some (pack 2 (pairSum l)) := by
  have hmask : evenMask 1 32 = U64_MAX / 3 := by decide +kernel
  have hle : (pack 1 l >>> 1) &&& evenMask 1 32 ≤ pack 1 l := by
    refine le_trans Nat.and_le_left ?_
    exact Nat.div_le_self _ _
  rw [← hmask, Patch.checkedSub, if_pos hle, pack_sub_level hl (h.lt (by decide))]

theorem fours_eq (h : Level 2 l) (hl : l.length = 2 * 16) :
    checkedAdd (pack 2 l &&& (U64_MAX / 5)) ((pack 2 l >>> 2) &&& (U64_MAX / 5)) =
      some (pack 4 (pairSum l)) := by
  have hmask : evenMask 2 16 = U64_MAX / 5 := by decide +kernel
  have hsum := pack_and_level hl (h.lt (by decide : 2 < 2 ^ 2))
  rw [hmask] at hsum
  have hlt : pack 4 (pairSum l) < 2 ^ 64 := (h.up (paired_of_length hl)).pack_lt (by decide)
  rw [checkedAdd_eq (by rw [hsum]; exact hlt), hsum]

theorem sums_eq (h : Level w l) {m : Nat} (hl : l.length = 2 * m) (hw : 2 * w < 2 ^ w) :
    ∃ sum, checkedAdd (pack w l) (pack w l >>> w) = some sum ∧
      sum &&& evenMask w m = pack (2 * w) (pairSum l) := by
  refine ⟨_, checkedAdd_eq ?_, pack_add_level hl fun x hx => ?_⟩
  · -- the fields of the sum do not overflow either
    rw [pack_shiftRight (h.lt (by omega))]
    cases l with
    | nil => exact Nat.two_pow_pos 64
    | cons x l =>
      rw [← pack_append_zero (x :: l).tail, pack_add (by simp)]
      have hlt := @pack_lt w (List.zipWith (· + ·) (x :: l) ((x :: l).tail ++ [0])) fun z hz => by
        rw [← map_uncurry_zip_eq_zipWith] at hz
        obtain ⟨⟨p, q⟩, hpq, rfl⟩ := List.mem_map.mp hz
        obtain ⟨hp, hq⟩ := of_mem_zip hpq
        have hp := h.le p hp
        have hq : q ≤ w := by
          rcases List.mem_append.mp hq with hq | hq
          · exact h.le q (mem_cons_of_mem _ hq)
          · rw [List.mem_singleton.mp hq]
            exact Nat.zero_le w
        change p + q < 2 ^ w
        omega
      have hzip : (List.zipWith (· + ·) (x :: l) ((x :: l).tail ++ [0])).length = (x :: l).length := by
        simp
      rwa [hzip, h.len] at hlt
  · have := h.le x hx
    omega

theorem halves_eq (h : Level 16 l) (hl : l.length = 4) :
    ∃ x y, checkedAdd (pack 16 l >>> 32) (pack 16 l >>> 48) = some (x + 2 ^ 16 * y) ∧
      (pairSum l)[1]? = some x ∧ x ≤ 64 ∧ y ≤ 16 := by
  obtain ⟨-, hle⟩ := h
  match l, hl with
  | [d₀, d₁, d₂, d₃], _ =>
    simp only [forall_mem_cons] at hle
    have hpack : pack 16 [d₀, d₁, d₂, d₃] = d₀ + 2 ^ 16 * (d₁ + 2 ^ 16 * (d₂ + 2 ^ 16 * d₃)) := by simp [pack]
    have h32 : pack 16 [d₀, d₁, d₂, d₃] >>> 32 = d₂ + 2 ^ 16 * d₃ := by
      omega
    have h48 : pack 16 [d₀, d₁, d₂, d₃] >>> 48 = d₃ := by
      omega
    refine ⟨d₂ + d₃, d₃, ?_, rfl, by omega, by omega⟩
    rw [h32, h48, checkedAdd_eq (by omega)]
    congr 1
    omega

/-- The same as `select_down`, where the upper half is read out of the packed counts. -/
theorem select_field (hl : Paired l) (h : Level w l) {m : Nat} (hm : m ≤ w) (hw : w < 2 ^ m) (h64 : w ≤ 64)
    {rank j n : Nat} (hranked : Ranked (pairSum l) rank j n) (hrank : rank ≤ 64) {k : Nat}
    (hk : 256 >>> k = w) :
    Patch.checkedSub (2 * w * (j + 1)) w = some (w * (2 * j + 1)) ∧
      ∃ j' n', select ((pack w l >>> (w * (2 * j + 1))) &&& (2 ^ m - 1)) (2 * w * (j + 1)) n k =
          some (w * (j' + 1), n') ∧ Ranked l rank j' n' := by
  refine ⟨?_, ?_⟩
  · have hs : 2 * w * (j + 1) = w * (2 * j + 1) + w := by ring
    rw [hs, Patch.checkedSub, if_pos (Nat.le_add_left _ _), Nat.add_sub_cancel]
  · obtain ⟨x, hx, -, -⟩ := hranked.down hl
    have hmem := mem_of_getElem? hx
    have hlt := h.lt hw
    have hfits : ∀ x ∈ l, x < 2 ^ w := fun x hx =>
      lt_of_lt_of_le (hlt x hx) (Nat.pow_le_pow_right (by omega) hm)
    obtain ⟨j', n', hselect, hdown⟩ := select_down hl hranked hrank hk hx
      (le_trans (h.le x hmem) h64) (Nat.zero_le 16)
    rw [field hfits hm hx (hlt x hmem)]
    exact ⟨j', n', hselect, hdown⟩

end

theorem nthSetBitU64_ranked {v : BitVec 64} {bits : List Nat} (h₁ : Level 1 bits)
    (hpack : v.reverse.toNat = pack 1 bits) {n : Nat} (hpos : 1 ≤ n) (hn : n ≤ bits.sum) :
    ∃ j m, nthSetBitU64 v n = some (63 - j) ∧ Ranked bits n j m := by
  -- up: the counts of two, four, eight and sixteen bits
  have hlen : bits.length = 2 * 32 := by have := h₁.len; omega
  have p₁ := paired_of_length hlen
  have h₂ : Level 2 _ := h₁.up p₁
  have hlen₂ : (pairSum bits).length = 2 * 16 := by have := h₂.len; omega
  have p₂ := paired_of_length hlen₂
  have h₄ : Level 4 _ := h₂.up p₂
  have hlen₄ : (pairSum (pairSum bits)).length = 2 * 8 := by have := h₄.len; omega
  have p₄ := paired_of_length hlen₄
  have h₈ : Level 8 _ := h₄.up p₄
  have hlen₈ : (pairSum (pairSum (pairSum bits))).length = 2 * 4 := by have := h₈.len; omega
  have p₈ := paired_of_length hlen₈
  have h₁₆ : Level 16 _ := h₈.up p₈
  have hlen₁₆ : (pairSum (pairSum (pairSum (pairSum bits)))).length = 4 := by have := h₁₆.len; omega
  have p₁₆ := paired_of_length (m := 2) hlen₁₆
  have h₃₂ : Level 32 _ := h₁₆.up p₁₆
  have hlen₃₂ : (pairSum (pairSum (pairSum (pairSum (pairSum bits))))).length = 2 * 1 := by
    have := h₃₂.len
    omega
  have p₃₂ := paired_of_length hlen₃₂
  have h₆₄ : Level 64 _ := h₃₂.up p₃₂
  have ha := twos_eq h₁ hlen
  have hb := fours_eq h₂ hlen₂
  obtain ⟨c, hc, hc'⟩ := sums_eq h₄ hlen₄ (by decide)
  obtain ⟨d, hd, hd'⟩ := sums_eq h₈ hlen₈ (by decide)
  obtain ⟨x, y, ht, hx, hx64, hy⟩ := halves_eq h₁₆ hlen₁₆
  rw [show evenMask 4 8 = U64_MAX / 0x11 by decide +kernel] at hc'
  rw [show evenMask 8 4 = U64_MAX / 0x101 by decide +kernel] at hd'
  -- down: from the whole word to a single bit
  have hsum : (pairSum (pairSum (pairSum (pairSum (pairSum (pairSum bits)))))).sum = bits.sum := by
    rw [sum_pairSum p₃₂, sum_pairSum p₁₆, sum_pairSum p₈, sum_pairSum p₄, sum_pairSum p₂, sum_pairSum p₁]
  obtain ⟨total, htotal⟩ := List.length_eq_one_iff.mp
    (show (pairSum (pairSum (pairSum (pairSum (pairSum (pairSum bits)))))).length = 1 by
      have := h₆₄.len; omega)
  rw [htotal, List.sum_singleton] at hsum
  have hrank : n ≤ 64 := by
    have := h₆₄.le total (by rw [htotal]; exact mem_singleton_self _)
    omega
  have r₆₄ : Ranked (pairSum (pairSum (pairSum (pairSum (pairSum (pairSum bits)))))) n 0 n := by
    rw [htotal, hsum]
    exact ⟨hpos, ⟨_, rfl, hn⟩, by simp⟩
  obtain ⟨j₃₂, n₃₂, s₃₂, r₃₂⟩ := select_down (k := 3) (w := 32) p₃₂ r₆₄ hrank rfl hx hx64 hy
  obtain ⟨e₁₆, j₁₆, n₁₆, s₁₆, r₁₆⟩ := select_field (k := 4) (m := 8) p₁₆ h₁₆ (by decide) (by decide)
    (by decide) r₃₂ hrank rfl
  obtain ⟨e₈, j₈, n₈, s₈, r₈⟩ := select_field (k := 5) (m := 4) p₈ h₈ (by decide) (by decide)
    (by decide) r₁₆ hrank rfl
  obtain ⟨e₄, j₄, n₄, s₄, r₄⟩ := select_field (k := 6) (m := 3) p₄ h₄ (by decide) (by decide)
    (by decide) r₈ hrank rfl
  obtain ⟨e₂, j₂, n₂, s₂, r₂⟩ := select_field (k := 7) (m := 2) p₂ h₂ (by decide) (by decide)
    (by decide) r₄ hrank rfl
  obtain ⟨e₁, j, m, s₁, r₁⟩ := select_field (k := 8) (m := 1) p₁ h₁ (by decide) (by decide)
    (by decide) r₂ hrank rfl
  refine ⟨j, m, ?_, r₁⟩
  have hj : j < 64 := by
    obtain ⟨z, hz, -⟩ := r₁.le
    have := (List.getElem?_eq_some_iff.mp hz).1
    omega
  have hend : Patch.checkedSub 65 (1 * (j + 1)) = some (63 - j + 1) := by
    rw [Patch.checkedSub, if_pos (by omega)]
    congr 1
    omega
  have hlast : Patch.checkedSub (63 - j + 1) 1 = some (63 - j) := by
    rw [Patch.checkedSub, if_pos (Nat.le_add_left _ _), Nat.add_sub_cancel]
  have s₁ := selectHalf_of_select s₁
  unfold nthSetBitU64
  rw [hpack]
  refine Option.bind_eq_some_iff.mpr ⟨_, ha, ?_⟩
  refine Option.bind_eq_some_iff.mpr ⟨_, hb, ?_⟩
  refine Option.bind_eq_some_iff.mpr ⟨_, hc, ?_⟩
  refine Option.bind_eq_some_iff.mpr ⟨_, by rw [hc']; exact hd, ?_⟩
  refine Option.bind_eq_some_iff.mpr ⟨_, by rw [hd']; exact ht, ?_⟩
  rw [hc', hd']
  refine Option.bind_eq_some_iff.mpr ⟨_, s₃₂, ?_⟩
  refine Option.bind_eq_some_iff.mpr ⟨_, e₁₆, ?_⟩
  refine Option.bind_eq_some_iff.mpr ⟨_, s₁₆, ?_⟩
  refine Option.bind_eq_some_iff.mpr ⟨_, e₈, ?_⟩
  refine Option.bind_eq_some_iff.mpr ⟨_, s₈, ?_⟩
  refine Option.bind_eq_some_iff.mpr ⟨_, e₄, ?_⟩
  refine Option.bind_eq_some_iff.mpr ⟨_, s₄, ?_⟩
  refine Option.bind_eq_some_iff.mpr ⟨_, e₂, ?_⟩
  refine Option.bind_eq_some_iff.mpr ⟨_, s₂, ?_⟩
  refine Option.bind_eq_some_iff.mpr ⟨_, e₁, ?_⟩
  refine Option.bind_eq_some_iff.mpr ⟨_, s₁, ?_⟩
  exact Option.bind_eq_some_iff.mpr ⟨_, hend, hlast⟩

/-! ## The bit and its rank -/

/-- The lowest bits of a vector as numbers. -/
def digits {w : Nat} (v : BitVec w) (n : Nat) : List Nat := (List.range n).map fun i => (v.getLsbD i).toNat

theorem pack_testBit (n w : Nat) : pack 1 ((List.range w).map fun i => (n.testBit i).toNat) = n % 2 ^ w := by
  induction w generalizing n with
  | zero => rw [Nat.pow_zero, Nat.mod_one]; rfl
  | succ w ih =>
    have hstep : ∀ i, n.testBit (i + 1) = (n / 2).testBit i := fun i => Nat.testBit_succ ..
    rw [range_succ_eq_map, map_cons, map_map, pack]
    simp only [Function.comp_def, Nat.succ_eq_add_one, hstep]
    rw [ih, Nat.toNat_testBit, Nat.pow_zero, Nat.div_one, Nat.pow_one, Nat.pow_succ, mul_comm (2 ^ w),
      Nat.mod_mul]

section

variable {w : Nat} (v : BitVec w)

theorem pack_digits : pack 1 (digits v w) = v.toNat := by
  exact (pack_testBit v.toNat w).trans (Nat.mod_eq_of_lt v.isLt)

theorem digits_reverse : digits v.reverse w = (digits v w).reverse := by
  refine ext_getElem (by simp [digits]) fun i h₁ h₂ => ?_
  have hi : i < w := by simpa [digits] using h₁
  simp [digits, BitVec.getLsbD_reverse, BitVec.getMsbD, hi]

theorem take_digits {i n : Nat} (h : i ≤ n) : (digits v n).take i = digits v i := by
  rw [digits, ← map_take, take_range, min_eq_left h, digits]

theorem sum_digits (i : Nat) : (digits v i).sum = (List.range i).countP v.getLsbD := by
  rw [digits]
  induction List.range i with
  | nil => rfl
  | cons k l ih =>
    rw [map_cons, sum_cons, ih, countP_cons]
    cases v.getLsbD k with
    | false => simp
    | true => simp [add_comm]

end

theorem level_digits (v : BitVec 64) : Level 1 (digits v 64) := by
  refine ⟨by simp [digits], ?_⟩
  intro x hx
  obtain ⟨i, -, rfl⟩ := List.mem_map.mp hx
  exact Bool.toNat_le _

theorem nthSetBitU64_spec (v : BitVec 64) {n : Nat} (hpos : 1 ≤ n)
    (hn : n ≤ (List.range 64).countP v.getLsbD) :
    ∃ i, nthSetBitU64 v n = some i ∧ IsNthSetBit v n i := by
  have hsum : (digits v.reverse 64).sum = (List.range 64).countP v.getLsbD := by
    rw [digits_reverse, sum_reverse, sum_digits]
  obtain ⟨j, m, hj, hranked⟩ := nthSetBitU64_ranked (level_digits v.reverse) (pack_digits v.reverse).symm hpos
    (by rw [hsum]; exact hn)
  obtain ⟨x, hx, hm⟩ := hranked.le
  have hpos' := hranked.pos
  have hrest := hranked.rest
  rw [digits_reverse] at hx hrest
  have hj64 : j < 64 := by
    have := (List.getElem?_eq_some_iff.mp hx).1
    simpa [digits] using this
  -- the bit is the one as far from the other end
  have hx' : x = (v.getLsbD (63 - j)).toNat := by
    rw [getElem?_reverse (by simpa [digits] using hj64)] at hx
    have hlen : (digits v 64).length - 1 - j = 63 - j := by simp [digits]
    have hlt : 63 - j < 64 := by omega
    rw [hlen, digits, getElem?_map, getElem?_range hlt, Option.map_some] at hx
    exact (Option.some.inj hx).symm
  have hbelow : ((digits v 64).reverse.drop (j + 1)).sum = (List.range (63 - j)).countP v.getLsbD := by
    have hlen : (digits v 64).length - (j + 1) = 63 - j := by
      simp [digits]
    rw [drop_reverse, sum_reverse, hlen, take_digits v (by omega), sum_digits]
  have hle : x ≤ 1 := hx' ▸ Bool.toNat_le _
  refine ⟨63 - j, hj, ?_, ?_⟩
  · have hone : (v.getLsbD (63 - j)).toNat = 1 := by omega
    simpa using hone
  · rw [hbelow] at hrest
    omega

theorem countOnes_eq {w : Nat} (v : BitVec w) : countOnes v = (List.range w).countP v.getLsbD := by
  have hv : v = ofBits w ((List.range w).map v.getLsbD) := by
    refine BitVec.eq_of_getLsbD_eq fun i hi => ?_
    rw [getLsbD_ofBits, getElem?_map, getElem?_range hi]
    simp [hi]
  conv_lhs => rw [hv]
  rw [countOnes_ofBits (by simp), List.count, countP_map]
  refine countP_congr fun i _ => ?_
  simp

/-- **`nth_set_bit`** finds the `n`-th set bit of every word that has as many. -/
theorem nthSetBit_spec (v : BitVec 128) {n : Nat} (hpos : 1 ≤ n) (hn : n ≤ countOnes v) :
    ∃ i, nthSetBit v n = some i ∧ IsNthSetBit v n i := by
  have hlow : ∀ i < 64, (v.setWidth 64).getLsbD i = v.getLsbD i := fun i hi => by simp [hi]
  have hhigh : ∀ i < 64, ((v >>> 64).setWidth 64).getLsbD i = v.getLsbD (64 + i) := fun i hi => by simp [hi]
  have hcount : ∀ k ≤ 64, (List.range k).countP (v.setWidth 64).getLsbD = (List.range k).countP v.getLsbD := by
    intro k hk
    refine countP_congr fun i hi => ?_
    rw [hlow i (by have := List.mem_range.mp hi; omega)]
  -- the bits above the first 64 are counted on
  have habove : ∀ k ≤ 64, (List.range (64 + k)).countP v.getLsbD =
      countOnes (v.setWidth 64) + (List.range k).countP ((v >>> 64).setWidth 64).getLsbD := by
    intro k hk
    rw [range_add, countP_append, countOnes_eq, hcount 64 (le_refl _), countP_map]
    congr 1
    refine countP_congr fun i hi => ?_
    rw [hhigh i (by have := List.mem_range.mp hi; omega)]
    rfl
  rw [nthSetBit]
  split
  · next hlt =>
    have htotal : (List.range 128).countP v.getLsbD = _ := habove 64 (le_refl _)
    rw [countOnes_eq] at hn
    obtain ⟨i, hi, hset, hrank⟩ := @nthSetBitU64_spec ((v >>> 64).setWidth 64) (n - countOnes (v.setWidth 64))
      (by omega) (by omega)
    have hi64 : i < 64 := BitVec.lt_of_getLsbD hset
    refine ⟨64 + i, by rw [hi]; rfl, by rw [← hhigh i hi64]; exact hset, ?_⟩
    rw [habove i (le_of_lt hi64)]
    omega
  · next hge =>
    rw [countOnes_eq] at hge
    obtain ⟨i, hi, hset, hrank⟩ := nthSetBitU64_spec (v.setWidth 64) hpos (Nat.le_of_not_lt hge)
    have hi64 : i < 64 := BitVec.lt_of_getLsbD hset
    refine ⟨i, hi, by rw [← hlow i hi64]; exact hset, ?_⟩
    rw [← hcount i (Nat.le_of_lt hi64)]
    exact hrank

end SpkEditor.Chunked
