import Mathlib.Algebra.Order.Ring.Nat
import Mathlib.Data.List.Basic

/-!
# Bit vectors as lists of bits

A bit vector of width `w` written as the list of its lowest bits, lowest first. What the
operations on vectors are on lists: shifting left and joining is appending, a low mask
takes, a shift to the right drops, and the population count counts.
-/

namespace SpkEditor.Bits

/-- The vector with these bits, lowest first, and zeros behind them. -/
def ofBits (w : Nat) (l : List Bool) : BitVec w := (BitVec.ofBoolListLE l).setWidth w

/-- The lowest `n` bits: `(1 << n) - 1`, where a shift by the width or more gives zero. -/
def lowMask (w n : Nat) : BitVec w := (1#w <<< n) - 1#w

variable {w : Nat}

theorem getLsbD_ofBits (l : List Bool) (i : Nat) :
    (ofBits w l).getLsbD i = (decide (i < w) && l[i]?.getD false) := by
  simp [ofBits]

@[simp] theorem ofBits_nil : ofBits w [] = 0#w := by
  apply BitVec.eq_of_getLsbD_eq
  intro i hi
  simp [getLsbD_ofBits]

theorem getLsbD_lowMask (n i : Nat) :
    (lowMask w n).getLsbD i = (decide (i < w) && decide (i < n)) := by
  by_cases hi : i < w
  · by_cases hn : n < w
    · have h : lowMask w n = (BitVec.allOnes n).setWidth w := by
        apply BitVec.eq_of_toNat_eq
        have hpow : 2 ^ n < 2 ^ w := Nat.pow_lt_pow_right (by omega) hn
        have hone : 1 ≤ 2 ^ n := Nat.one_le_two_pow
        have hw : 1 < 2 ^ w := Nat.one_lt_two_pow (by omega)
        simp only [lowMask, BitVec.toNat_sub, BitVec.toNat_shiftLeft, BitVec.toNat_ofNat,
          BitVec.toNat_setWidth, BitVec.toNat_allOnes, Nat.shiftLeft_eq]
        rw [Nat.mod_eq_of_lt hw, Nat.one_mul, Nat.mod_eq_of_lt hpow]
        rw [show 2 ^ w - 1 + 2 ^ n = 2 ^ w + (2 ^ n - 1) by omega, Nat.add_mod_left]
      rw [h]
      simp [hi]
    · have h : lowMask w n = BitVec.allOnes w := by
        rw [lowMask, BitVec.shiftLeft_eq_zero (by omega), BitVec.zero_sub, BitVec.neg_one_eq_allOnes]
      rw [h]
      simp [hi]
      omega
  · simp [BitVec.getLsbD_of_ge _ _ (by omega : w ≤ i), hi]

theorem ofBits_append (a b : List Bool) :
    ofBits w (a ++ b) = ofBits w a ||| (ofBits w b <<< a.length) := by
  apply BitVec.eq_of_getLsbD_eq
  intro i hi
  simp only [getLsbD_ofBits, BitVec.getLsbD_or, BitVec.getLsbD_shiftLeft, hi, decide_true,
    Bool.true_and]
  by_cases ha : i < a.length
  · simp [List.getElem?_append_left ha, ha]
  · have hb : i - a.length < w := by omega
    simp [List.getElem?_append_right (by omega : a.length ≤ i), ha, hb]

theorem ofBits_and_lowMask (l : List Bool) (n : Nat) :
    ofBits w l &&& lowMask w n = ofBits w (l.take n) := by
  apply BitVec.eq_of_getLsbD_eq
  intro i hi
  simp only [BitVec.getLsbD_and, getLsbD_ofBits, getLsbD_lowMask, hi, decide_true, Bool.true_and]
  by_cases hn : i < n
  · simp [hn]
  · simp [hn]

theorem ofBits_ushiftRight {l : List Bool} (hl : l.length ≤ w) (n : Nat) :
    ofBits w l >>> n = ofBits w (l.drop n) := by
  apply BitVec.eq_of_getLsbD_eq
  intro i hi
  simp only [BitVec.getLsbD_ushiftRight, getLsbD_ofBits, hi, decide_true, Bool.true_and,
    List.getElem?_drop]
  by_cases hin : n + i < w
  · simp [hin]
  · simp [hin, List.getElem?_eq_none (by omega : l.length ≤ n + i)]

theorem one_shiftLeft_and_ne_zero (x : BitVec w) (i : Nat) :
    ((1#w <<< i) &&& x != 0#w) = x.getLsbD i := by
  rw [← BitVec.twoPow_eq, BitVec.twoPow_and]
  cases hx : x.getLsbD i with
  | false => simp
  | true =>
    have hi : i < w := BitVec.lt_of_getLsbD hx
    have hne : BitVec.twoPow w i ≠ 0#w := by
      intro h
      have := congrArg (·.getLsbD i) h
      simp [hi] at this
    simpa using hne

/-- `count_ones`. -/
def countOnes (x : BitVec w) : Nat := x.cpop.toNat

/-- `leading_zeros`. -/
def leadingZeros (x : BitVec w) : Nat := x.clz.toNat

/-- `trailing_zeros`. -/
def trailingZeros (x : BitVec w) : Nat := x.ctz.toNat

theorem cpopNatRec_ofBits (l : List Bool) {n : Nat} (hn : n ≤ w) :
    (ofBits w l).cpopNatRec n 0 = (l.take n).count true := by
  induction n with
  | zero => rfl
  | succ n ih =>
    rw [BitVec.cpopNatRec_succ, BitVec.cpopNatRec_eq, ih (by omega), getLsbD_ofBits,
      List.take_add_one, List.count_append, decide_eq_true (show n < w by omega), Bool.true_and]
    cases h : l[n]? with
    | none => simp
    | some b => cases b <;> simp

theorem countOnes_ofBits {l : List Bool} (hl : l.length ≤ w) : countOnes (ofBits w l) = l.count true := by
  have hcount : l.count true < 2 ^ w :=
    (List.count_le_length.trans hl).trans_lt Nat.lt_two_pow_self
  rw [countOnes, BitVec.cpop, BitVec.toNat_ofNat, cpopNatRec_ofBits l (Nat.le_refl w),
    List.take_of_length_le hl, Nat.mod_eq_of_lt hcount]

theorem ofBits_replicate_false (n : Nat) : ofBits w (List.replicate n false) = 0#w := by
  apply BitVec.eq_of_getLsbD_eq
  intro i hi
  by_cases h : i < n
  · simp [getLsbD_ofBits, h]
  · simp [getLsbD_ofBits, h]

theorem leadingZeros_zero : leadingZeros (0#w) = w := by
  rw [leadingZeros, BitVec.clz_eq_iff_eq_zero.mpr rfl, BitVec.natCast_eq_ofNat, BitVec.toNat_ofNat,
    Nat.mod_eq_of_lt Nat.lt_two_pow_self]

theorem trailingZeros_zero : trailingZeros (0#w) = w := by
  have hzero : (0#w).reverse = 0#w := BitVec.reverse_eq_zero_iff.mpr rfl
  rw [trailingZeros, BitVec.ctz, hzero]
  exact leadingZeros_zero

theorem trailingZeros_ofBits {k : Nat} (hk : k < w) (l : List Bool) :
    trailingZeros (ofBits w (List.replicate k false ++ true :: l)) = k := by
  have hbit : ∀ i, i ≤ k → (ofBits w (List.replicate k false ++ true :: l)).getLsbD i = decide (i = k) := by
    intro i hi
    rw [getLsbD_ofBits, decide_eq_true (show i < w by omega), Bool.true_and]
    rcases Nat.lt_or_eq_of_le hi with hlt | rfl
    · rw [List.getElem?_append_left (by simpa using hlt)]
      simp [hlt, Nat.ne_of_lt hlt]
    · rw [List.getElem?_append_right (by simp)]
      simp
  have hne : ofBits w (List.replicate k false ++ true :: l) ≠ 0#w := by
    intro h
    have := hbit k (Nat.le_refl k)
    rw [h] at this
    simp at this
  apply Nat.le_antisymm
  · refine Nat.le_of_not_lt fun hlt => ?_
    have := BitVec.getLsbD_false_of_lt_ctz hlt
    rw [hbit k (Nat.le_refl k)] at this
    simp at this
  · refine Nat.le_of_not_lt fun hlt => ?_
    have := (hbit _ (Nat.le_of_lt hlt)).symm.trans (BitVec.getLsbD_true_ctz_of_ne_zero hne)
    exact Nat.ne_of_lt hlt (of_decide_eq_true this)

theorem leadingZeros_ofBits {l : List Bool} (hl : l.length < w) (k : Nat) :
    leadingZeros (ofBits w (l ++ true :: List.replicate k false)) = w - (l.length + 1) := by
  have hbit : ∀ i, l.length ≤ i →
      (ofBits w (l ++ true :: List.replicate k false)).getLsbD i = decide (i = l.length) := by
    intro i hi
    rw [getLsbD_ofBits, List.getElem?_append_right hi]
    rcases Nat.eq_or_lt_of_le hi with rfl | hlt
    · simp [hl]
    · obtain ⟨d, rfl⟩ : ∃ d, i = l.length + (d + 1) := ⟨i - l.length - 1, by omega⟩
      have hfalse : (List.replicate k false)[d]?.getD false = false := by
        rw [List.getElem?_replicate]
        split <;> rfl
      rw [Nat.add_sub_cancel_left, List.getElem?_cons_succ, hfalse]
      simp
  have hself := hbit l.length (Nat.le_refl _)
  rw [decide_eq_true rfl] at hself
  have hne : ofBits w (l ++ true :: List.replicate k false) ≠ 0#w := by
    intro h
    rw [h] at hself
    simp at hself
  -- the highest bit is not above it, and not below it
  have hle : w - 1 - leadingZeros (ofBits w (l ++ true :: List.replicate k false)) ≤ l.length := by
    refine Nat.le_of_not_lt fun hlt => ?_
    have := (hbit _ (Nat.le_of_lt hlt)).symm.trans
      (BitVec.getLsbD_true_clz_of_ne_zero (Nat.zero_lt_of_lt hl) hne)
    exact Nat.ne_of_gt hlt (of_decide_eq_true this)
  have hlt : l.length < w - leadingZeros (ofBits w (l ++ true :: List.replicate k false)) := by
    refine (Nat.pow_lt_pow_iff_right (show 1 < 2 by omega)).mp ?_
    exact (Nat.ge_two_pow_of_testBit hself).trans_lt BitVec.toNat_lt_two_pow_sub_clz
  omega

end SpkEditor.Bits
