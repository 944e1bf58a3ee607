import Mathlib.Algebra.Order.Ring.Nat
import Mathlib.Tactic.Ring

/-!
# Numbers packed into one

Fields of `w` bits, side by side in one number, lowest first. Two numbers are added field
by field as long as no field overflows; a mask that keeps every other field, and a shift by
one field before it, pull the fields apart into two halves with room to add them. That is
one level of a population count: from the counts of `w` bits each to the counts of `2 * w`
(`pairSum`). Going back down the levels finds a bit by its rank (`Ranked`).
-/

namespace SpkEditor.Packed

open List

variable {l : List Nat}

/-- The fields side by side. -/
def pack (w : Nat) : List Nat → Nat
  | [] => 0
  | x :: l => x + 2 ^ w * pack w l

/-- Every other field, from the first. -/
def evens : List Nat → List Nat
  | x :: _ :: l => x :: evens l
  | _ => []

/-- Every other field, from the second. -/
def odds : List Nat → List Nat
  | _ :: y :: l => y :: odds l
  | _ => []

/-- Neighbours added. -/
def pairSum : List Nat → List Nat
  | x :: y :: l => (x + y) :: pairSum l
  | _ => []

/-- The mask that keeps every other field of `w` bits, for `m` pairs of them. -/
def evenMask (w m : Nat) : Nat := pack (2 * w) (List.replicate m (2 ^ w - 1))

inductive Paired : List Nat → Prop where
  | nil : Paired []
  | cons (x y : Nat) {l : List Nat} : Paired l → Paired (x :: y :: l)

theorem paired_of_length : ∀ {m : Nat} {l : List Nat}, l.length = 2 * m → Paired l
  | 0, [], _ => .nil
  | m + 1, x :: y :: l, h =>
    .cons x y (paired_of_length (show l.length = 2 * m by simp only [length_cons] at h; omega))

variable {w : Nat}

theorem shiftRight_add_mul (n k x y : Nat) (hx : x < 2 ^ n) :
    (x + 2 ^ n * y) >>> (n + k) = y >>> k := by
  have hdiv : (x + 2 ^ n * y) >>> n = y := by
    rw [Nat.shiftRight_eq_div_pow, Nat.add_mul_div_left _ _ (Nat.two_pow_pos n), Nat.div_eq_of_lt hx,
      zero_add]
  rw [Nat.shiftRight_add, hdiv]

theorem and_add_mul {n x m : Nat} (hx : x < 2 ^ n) (hm : m < 2 ^ n) (y z : Nat) :
    (x + 2 ^ n * y) &&& (m + 2 ^ n * z) = (x &&& m) + 2 ^ n * (y &&& z) := by
  have hand : x &&& m < 2 ^ n := Nat.and_lt_two_pow x hm
  apply Nat.eq_of_testBit_eq
  intro i
  rw [Nat.testBit_and, add_comm x, add_comm m, add_comm (x &&& m),
    Nat.testBit_two_pow_mul_add _ hx, Nat.testBit_two_pow_mul_add _ hm, Nat.testBit_two_pow_mul_add _ hand]
  split
  · rw [Nat.testBit_and]
  · rw [Nat.testBit_and]

theorem pack_append_zero (l : List Nat) : pack w (l ++ [0]) = pack w l := by
  induction l with
  | nil => rfl
  | cons x l ih => rw [cons_append, pack, pack, ih]

theorem pack_add {l' : List Nat} (h : l.length = l'.length) :
    pack w l + pack w l' = pack w (List.zipWith (· + ·) l l') := by
  induction l generalizing l' with
  | nil =>
    cases l' with
    | nil => rfl
    | cons y l' => cases h
  | cons x l ih =>
    cases l' with
    | nil => cases h
    | cons y l' =>
      simp only [length_cons, Nat.add_right_cancel_iff] at h
      rw [zipWith_cons_cons, pack, pack, pack, ← ih h]
      ring

theorem pack_tail {x : Nat} (hx : x < 2 ^ w) : pack w (x :: l) >>> w = pack w l :=
  shiftRight_add_mul w 0 x (pack w l) hx

/-- A field, behind a mask that is wide enough for what is in it. -/
theorem field (hl : ∀ x ∈ l, x < 2 ^ w) {k j x : Nat} (hk : k ≤ w) (hj : l[j]? = some x)
    (hx : x < 2 ^ k) : (pack w l >>> (w * j)) &&& (2 ^ k - 1) = x := by
  induction l generalizing j with
  | nil => cases hj
  | cons y l ih =>
    rw [forall_mem_cons] at hl
    cases j with
    | zero =>
      obtain rfl : y = x := by simpa using hj
      have hmul : 2 ^ w * pack w l = 2 ^ k * (2 ^ (w - k) * pack w l) := by
        rw [← mul_assoc, ← Nat.pow_add, Nat.add_sub_cancel' hk]
      rw [mul_zero, Nat.shiftRight_zero, Nat.and_two_pow_sub_one_eq_mod, pack, hmul,
        Nat.add_mul_mod_self_left, Nat.mod_eq_of_lt hx]
    | succ j =>
      rw [Nat.mul_succ, add_comm, pack, shiftRight_add_mul w _ y _ hl.1]
      exact ih hl.2 (by simpa using hj)

/-! ## One level up -/

theorem pack_pairs (h : Paired l) :
    pack w l = pack (2 * w) (evens l) + 2 ^ w * pack (2 * w) (odds l) := by
  induction h with
  | nil => rfl
  | @cons x y l _ ih =>
    have hpow : (2 : Nat) ^ (2 * w) = 2 ^ w * 2 ^ w := by rw [Nat.two_mul, Nat.pow_add]
    simp only [pack, evens, odds, ih, hpow]
    ring

theorem pack_pairSum (h : Paired l) : pack w (evens l) + pack w (odds l) = pack w (pairSum l) := by
  induction h with
  | nil => rfl
  | @cons x y l _ ih =>
    simp only [pack, evens, odds, pairSum, ← ih]
    ring

theorem pack_and_evenMask (h : Paired l) (hl : ∀ x ∈ l, x < 2 ^ w) :
    pack w l &&& evenMask w (evens l).length = pack (2 * w) (evens l) := by
  induction h with
  | nil => exact Nat.zero_and _
  | @cons x y l _ ih =>
    simp only [forall_mem_cons] at hl
    have hpow : (2 : Nat) ^ (2 * w) = 2 ^ w * 2 ^ w := by rw [Nat.two_mul, Nat.pow_add]
    have hxy : x + 2 ^ w * y < 2 ^ (2 * w) := calc
      x + 2 ^ w * y < 2 ^ w + 2 ^ w * y := Nat.add_lt_add_right hl.1 _
      _ = 2 ^ w * (y + 1) := by ring
      _ ≤ 2 ^ w * 2 ^ w := Nat.mul_le_mul_left _ hl.2.1
      _ = 2 ^ (2 * w) := hpow.symm
    have hmask : 2 ^ w - 1 < 2 ^ (2 * w) := calc
      2 ^ w - 1 < 2 ^ w := Nat.sub_one_lt (Nat.two_pow_pos w).ne'
      _ ≤ 2 ^ (2 * w) := Nat.pow_le_pow_right (by omega) (by omega)
    have hpack : pack w (x :: y :: l) = (x + 2 ^ w * y) + 2 ^ (2 * w) * pack w l := by
      rw [pack, pack, hpow]
      ring
    rw [hpack, evens, length_cons, evenMask, replicate_succ, pack, and_add_mul hxy hmask,
      Nat.and_two_pow_sub_one_eq_mod, Nat.add_mul_mod_self_left, Nat.mod_eq_of_lt hl.1, pack,
      ← ih hl.2.2]
    rfl

theorem pack_shiftRight (hl : ∀ x ∈ l, x < 2 ^ w) : pack w l >>> w = pack w l.tail := by
  cases l with
  | nil => simp [pack]
  | cons x l =>
    rw [forall_mem_cons] at hl
    exact pack_tail hl.1

theorem odds_eq (h : Paired l) : odds l = evens (l.tail ++ [0]) := by
  induction h with
  | nil => rfl
  | @cons x y l h ih =>
    cases h with
    | nil => rfl
    | cons x' y' h => simpa [odds, evens] using ih

theorem length_evens (h : Paired l) : 2 * (evens l).length = l.length := by
  induction h with
  | nil => rfl
  | cons x y _ ih =>
    simp only [evens, length_cons]
    omega

section

variable {m : Nat} (hlen : l.length = 2 * m)
include hlen

theorem pack_shiftRight_and_evenMask (hl : ∀ x ∈ l, x < 2 ^ w) : (pack w l >>> w) &&& evenMask w m = pack (2 * w) (odds l) := by
  have hpaired := paired_of_length hlen
  rw [pack_shiftRight hl, ← pack_append_zero, odds_eq hpaired]
  cases l with
  | nil =>
    obtain rfl : m = 0 := by simpa using hlen.symm
    exact Nat.zero_and _
  | cons x l =>
    have hlen' : (l ++ [0]).length = 2 * m := by simpa using hlen
    have hpaired' := paired_of_length hlen'
    have hm : m = (evens (l ++ [0])).length := by
      have := length_evens hpaired'
      omega
    rw [hm]
    refine pack_and_evenMask hpaired' fun y hy => ?_
    rcases List.mem_append.mp hy with hy | hy
    · exact hl y (mem_cons_of_mem _ hy)
    · rw [List.mem_singleton.mp hy]
      exact Nat.two_pow_pos w

theorem pack_and_evenMask_of_length (hl : ∀ x ∈ l, x < 2 ^ w) : pack w l &&& evenMask w m = pack (2 * w) (evens l) := by
  have hpaired := paired_of_length hlen
  have hm : m = (evens l).length := by
    have := length_evens hpaired
    omega
  rw [hm]
  exact pack_and_evenMask hpaired hl

theorem pack_sub_level (hl : ∀ x ∈ l, x < 2 ^ 1) :
    pack 1 l - ((pack 1 l >>> 1) &&& evenMask 1 m) = pack 2 (pairSum l) := by
  have hpaired := paired_of_length hlen
  have hsum : pack 1 l = pack 2 (evens l) + 2 * pack 2 (odds l) := pack_pairs hpaired
  have hodds : (pack 1 l >>> 1) &&& evenMask 1 m = pack 2 (odds l) := pack_shiftRight_and_evenMask hlen hl
  rw [hodds, ← pack_pairSum hpaired]
  omega

/-- The counts of the next level, where the sums need the room of two fields. -/
theorem pack_and_level (hl : ∀ x ∈ l, x < 2 ^ w) :
    (pack w l &&& evenMask w m) + ((pack w l >>> w) &&& evenMask w m) = pack (2 * w) (pairSum l) := by
  rw [pack_shiftRight_and_evenMask hlen hl, pack_and_evenMask_of_length hlen hl,
    pack_pairSum (paired_of_length hlen)]

end

theorem evens_zipWith (h : Paired l) :
    evens (List.zipWith (· + ·) l (l.tail ++ [0])) = pairSum l := by
  induction h with
  | nil => rfl
  | @cons x y l h ih =>
    cases h with
    | nil => rfl
    | cons x' y' h => simpa [evens, pairSum] using ih

/-- The counts of the next level, where the sums fit the fields they come from. -/
theorem pack_add_level {m : Nat} (hlen : l.length = 2 * m) (hl : ∀ x ∈ l, 2 * x < 2 ^ w) :
    (pack w l + (pack w l >>> w)) &&& evenMask w m = pack (2 * w) (pairSum l) := by
  have hpaired := paired_of_length hlen
  have hfits : ∀ x ∈ l, x < 2 ^ w := fun x hx => by
    have := hl x hx
    omega
  cases l with
  | nil =>
    obtain rfl : m = 0 := by simpa using hlen.symm
    simp [pack, pairSum]
  | cons x l =>
    rw [pack_shiftRight hfits, ← pack_append_zero (x :: l).tail, pack_add (by simp),
      ← evens_zipWith hpaired]
    refine pack_and_evenMask_of_length (by simpa using hlen) fun z hz => ?_
    -- a sum of two neighbours, or the last field with nothing behind it
    rw [← map_uncurry_zip_eq_zipWith] at hz
    obtain ⟨⟨a, b⟩, hab, rfl⟩ := List.mem_map.mp hz
    obtain ⟨ha, hb⟩ := of_mem_zip hab
    have hx := hl a ha
    rcases List.mem_append.mp hb with hb | hb
    · have hy := hl b (mem_cons_of_mem _ hb)
      change a + b < 2 ^ w
      omega
    · rw [List.mem_singleton.mp hb]
      change a + 0 < 2 ^ w
      omega

/-! ## One level down -/

theorem length_pairSum (h : Paired l) : 2 * (pairSum l).length = l.length := by
  induction h with
  | nil => rfl
  | cons x y _ ih =>
    simp only [pairSum, length_cons]
    omega

theorem pairSum_le (h : Paired l) {b : Nat} (hb : ∀ x ∈ l, x ≤ b) : ∀ x ∈ pairSum l, x ≤ 2 * b := by
  induction h with
  | nil => simp [pairSum]
  | @cons x y l _ ih =>
    simp only [forall_mem_cons] at hb
    simp only [pairSum, forall_mem_cons]
    exact ⟨by omega, ih hb.2.2⟩

theorem sum_pairSum (h : Paired l) : (pairSum l).sum = l.sum := by
  induction h with
  | nil => rfl
  | cons x y _ ih => rw [pairSum, sum_cons, sum_cons, sum_cons, ih, add_assoc]

theorem pairSum_getElem? (h : Paired l) {j x : Nat} (hj : (pairSum l)[j]? = some x) :
    ∃ a b, l[2 * j]? = some a ∧ l[2 * j + 1]? = some b ∧ x = a + b ∧
      ((pairSum l).drop (j + 1)).sum = (l.drop (2 * j + 1 + 1)).sum := by
  induction h generalizing j with
  | nil => cases hj
  | @cons x' y' l h ih =>
    cases j with
    | zero =>
      obtain rfl : x' + y' = x := by simpa [pairSum] using hj
      exact ⟨x', y', rfl, rfl, rfl, sum_pairSum h⟩
    | succ j =>
      obtain ⟨a, b, ha, hb, hx, hsum⟩ := ih (by simpa [pairSum] using hj)
      exact ⟨a, b, ha, hb, hx, hsum⟩

/-- The one that is looked for is in the field, when they are counted from the last. -/
structure Ranked (l : List Nat) (rank j n : Nat) : Prop where
  pos : 1 ≤ n
  le : ∃ x, l[j]? = some x ∧ n ≤ x
  rest : (l.drop (j + 1)).sum + n = rank

theorem Ranked.le_rank {rank j n : Nat} (h : Ranked l rank j n) : n ≤ rank := by
  have := h.rest
  omega

theorem drop_sum_succ {j x : Nat} (h : l[j]? = some x) :
    (l.drop j).sum = x + (l.drop (j + 1)).sum := by
  obtain ⟨hj, rfl⟩ := List.getElem?_eq_some_iff.mp h
  rw [drop_eq_getElem_cons hj, sum_cons]

/-- **One level down**: it is in the upper of the two fields, or in the lower one behind
all that are in the upper. -/
theorem Ranked.down (hl : Paired l) {rank j n : Nat} (h : Ranked (pairSum l) rank j n) :
    ∃ t, l[2 * j + 1]? = some t ∧ (t < n → Ranked l rank (2 * j) (n - t)) ∧
      (n ≤ t → Ranked l rank (2 * j + 1) n) := by
  obtain ⟨x, hx, hn⟩ := h.le
  obtain ⟨a, b, ha, hb, rfl, hsum⟩ := pairSum_getElem? hl hx
  have hrest := h.rest
  have hpos := h.pos
  refine ⟨b, hb, fun hlt => ⟨by omega, ⟨a, ha, by omega⟩, ?_⟩, fun hle => ⟨hpos, ⟨b, hb, hle⟩, ?_⟩⟩
  · rw [drop_sum_succ hb]
    omega
  · omega

end SpkEditor.Packed
