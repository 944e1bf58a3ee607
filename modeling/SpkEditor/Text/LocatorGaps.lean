import SpkEditor.Text.Locator
import Mathlib.Algebra.Order.Ring.Nat

/-!
# Splitting gaps between locators

The loop of `Locator::between` as it runs: two endless streams of digits, one round for each pair, until
a digit is above the left one. It stops one round after the longer of the two locators at the latest, no
addition overflows, and what it returns is `between`.

A collection of locators grows from `min` and `max` by splitting the gap of two neighbours. It stays
strictly ordered, however often and wherever it is split.
-/

namespace SpkEditor

open List

namespace Locator

/-- The digits are of type `u64`. -/
def IsU64 (l : Locator) : Prop := ∀ d ∈ l, d ≤ U64_MAX

/-- The loop of `Locator::between`, from what is left of the two locators on. `none` is an overflow, or
a loop that has not stopped in time. -/
def betweenRounds : Nat → Locator → Locator → Option Locator
  | 0, _, _ => none
  | rounds + 1, lhs, rhs =>
    let l := lhs.headD 0
    let r := rhs.headD U64_MAX
    let mid := l + ((r - l) >>> 48)
    if U64_MAX < mid then none
    else if l < mid then some [mid]
    else (betweenRounds rounds lhs.tail rhs.tail).map (mid :: ·)

theorem mid_le {l r : Nat} (hl : l ≤ U64_MAX) (hr : r ≤ U64_MAX) : l + ((r - l) >>> 48) ≤ U64_MAX := by
  omega

theorem IsU64.tail {l : Locator} (h : IsU64 l) : IsU64 l.tail := fun d hd => h d (mem_of_mem_tail hd)

theorem IsU64.headD {l : Locator} (h : IsU64 l) {d : Nat} (hd : d ≤ U64_MAX) : l.headD d ≤ U64_MAX := by
  cases l with
  | nil => exact hd
  | cons x l => exact h x mem_cons_self

theorem betweenRounds_succ {l r : Locator} (hl : IsU64 l) (hr : IsU64 r) (rounds : Nat) :
    betweenRounds (rounds + 1) l r =
      if (r.headD U64_MAX - l.headD 0) >>> 48 = 0 then
        (betweenRounds rounds l.tail r.tail).map (l.headD 0 :: ·)
      else some [l.headD 0 + ((r.headD U64_MAX - l.headD 0) >>> 48)] := by
  have hle := mid_le (hl.headD (Nat.zero_le _)) (hr.headD (le_refl _))
  rw [betweenRounds, if_neg (Nat.not_lt.mpr hle)]
  by_cases h : (r.headD U64_MAX - l.headD 0) >>> 48 = 0
  · rw [if_pos h, h, add_zero, if_neg (lt_irrefl _)]
  · rw [if_neg h, if_pos (by omega)]

/-- **The loop stops without an overflow**, and it returns `between`. -/
theorem betweenRounds_eq (l r : Locator) (hl : IsU64 l) (hr : IsU64 r) {rounds : Nat}
    (h : l.length < rounds ∧ r.length < rounds) : betweenRounds rounds l r = some (between l r) := by
  unfold between
  induction l generalizing r rounds with
  | nil =>
    induction r generalizing rounds with
    | nil =>
      obtain ⟨rounds, rfl⟩ := Nat.exists_eq_succ_of_ne_zero (ne_of_gt h.1)
      rfl
    | cons d r ih =>
      obtain ⟨rounds, rfl⟩ := Nat.exists_eq_succ_of_ne_zero (ne_of_gt (Nat.zero_lt_of_lt h.1))
      rw [betweenRounds_succ hl hr, zipped_nil_cons, betweenLoop_cons]
      simp only [headD_nil, headD_cons, tail_nil, tail_cons]
      rw [ih hr.tail (by simp at h ⊢; omega)]
      exact (apply_ite some _ _ _).symm
  | cons d l ih =>
    obtain ⟨rounds, rfl⟩ := Nat.exists_eq_succ_of_ne_zero (ne_of_gt (Nat.zero_lt_of_lt h.1))
    rw [betweenRounds_succ hl hr, zipped, betweenLoop_cons]
    simp only [headD_cons, tail_cons]
    rw [ih _ hl.tail hr.tail (by simp at h ⊢; omega)]
    exact (apply_ite some _ _ _).symm

theorem isU64_of_betweenRounds {rounds : Nat} {l r m : Locator} (h : betweenRounds rounds l r = some m) :
    IsU64 m := by
  induction rounds generalizing l r m with
  | zero => cases h
  | succ rounds ih =>
    rw [betweenRounds] at h
    split at h
    · cases h
    · next hle =>
      split at h
      · cases h
        intro d hd
        rw [List.mem_singleton.mp hd]
        exact Nat.le_of_not_lt hle
      · obtain ⟨m', hm', rfl⟩ := Option.map_eq_some_iff.mp h
        intro d hd
        rcases List.mem_cons.mp hd with rfl | hd
        · exact Nat.le_of_not_lt hle
        · exact ih hm' d hd

theorem isU64_between {l r : Locator} (hl : IsU64 l) (hr : IsU64 r) : IsU64 (between l r) :=
  isU64_of_betweenRounds (betweenRounds_eq l r hl hr
    ⟨Nat.lt_succ_of_le (le_max_left _ _), Nat.lt_succ_of_le (le_max_right _ _)⟩)

/-! ## Collections -/

/-- What is made from `min` and `max` by splitting the gaps of neighbours. -/
inductive Collection : List Locator → Prop
  | new : Collection [min, max]
  | split {before after : List Locator} {l r m : Locator} {rounds : Nat} :
      Collection (before ++ l :: r :: after) → betweenRounds rounds l r = some m →
      Collection (before ++ l :: m :: r :: after)

/-- A collection of `u64` locators in order, from `min` to `max`, of which all but `min` can be the right
end of a gap. -/
structure Ordered (c : List Locator) : Prop where
  sorted : c.Pairwise (· < ·)
  digits : ∀ l ∈ c, IsU64 l
  first : c.head? = some min
  last : c.getLast? = some max
  tails : ∀ l ∈ c.tail, l.getLast? ≠ some 0

theorem betweenRounds_some {l r m : Locator} (hl : IsU64 l) (hr : IsU64 r) {rounds : Nat}
    (h : betweenRounds rounds l r = some m) : m = between l r := by
  -- more rounds give the same result
  have hmore : ∀ {rounds : Nat} {l r m : Locator}, betweenRounds rounds l r = some m →
      betweenRounds (rounds + 1) l r = some m := by
    intro rounds
    induction rounds with
    | zero => exact fun h => absurd h (by simp [betweenRounds])
    | succ rounds ih =>
      intro l r m h
      rw [betweenRounds] at h ⊢
      split at h
      · cases h
      · next hle =>
        rw [if_neg hle]
        split at h
        · next hlt => rw [if_pos hlt, h]
        · next hge =>
          obtain ⟨m', hm', rfl⟩ := Option.map_eq_some_iff.mp h
          rw [if_neg hge, ih hm', Option.map_some]
  have hadd : ∀ k, betweenRounds (rounds + k) l r = some m := by
    intro k
    induction k with
    | zero => exact h
    | succ k ih => exact hmore ih
  have hall : betweenRounds (rounds + (l.length + r.length + 1)) l r = some (between l r) :=
    betweenRounds_eq l r hl hr ⟨by omega, by omega⟩
  exact Option.some.inj ((hadd _).symm.trans hall)

theorem Ordered.split {before after : List Locator} {l r : Locator}
    (h : Ordered (before ++ l :: r :: after)) : Ordered (before ++ l :: between l r :: r :: after) := by
  obtain ⟨hbefore, hrest, hcross⟩ := List.pairwise_append.mp h.sorted
  obtain ⟨hl, hrest⟩ := List.pairwise_cons.mp hrest
  obtain ⟨hr, hafter⟩ := List.pairwise_cons.mp hrest
  have hlr : l < r := hl r mem_cons_self
  have hlast : r.getLast? ≠ some 0 := h.tails r (by cases before <;> simp)
  obtain ⟨hlt, hgt, hend⟩ := between_spec hlr hlast
  refine ⟨?_, ?_, ?_, ?_, ?_⟩
  · refine List.pairwise_append.mpr ⟨hbefore, ?_, ?_⟩
    · refine List.pairwise_cons.mpr ⟨?_, List.pairwise_cons.mpr ⟨?_, hrest⟩⟩
      · exact List.forall_mem_cons.mpr ⟨hlt, hl⟩
      · exact List.forall_mem_cons.mpr ⟨hgt, fun x hx => lt_trans hgt (hr x hx)⟩
    · intro x hx y hy
      rcases List.mem_cons.mp hy with rfl | hy
      · exact hcross x hx y mem_cons_self
      · rcases List.mem_cons.mp hy with rfl | hy
        · exact lt_trans (hcross x hx l mem_cons_self) hlt
        · exact hcross x hx y (mem_cons_of_mem l hy)
  · have hdl := h.digits l (by simp)
    have hdr := h.digits r (by simp)
    intro x hx
    rcases List.mem_append.mp hx with hx | hx
    · exact h.digits x (mem_append_left _ hx)
    · rcases List.mem_cons.mp hx with rfl | hx
      · exact hdl
      · rcases List.mem_cons.mp hx with rfl | hx
        · exact isU64_between hdl hdr
        · exact h.digits x (mem_append_right _ (mem_cons_of_mem l hx))
  · have hfirst := h.first
    cases before with
    | nil => exact hfirst
    | cons x before => exact hfirst
  · have hend := h.last
    simpa using hend
  · intro x hx
    have hmem : x = between l r ∨ x ∈ (before ++ l :: r :: after).tail := by
      cases before with
      | nil => simpa using hx
      | cons y before =>
        simp only [cons_append, tail_cons, mem_append, mem_cons] at hx ⊢
        tauto
    rcases hmem with rfl | hx
    · exact hend
    · exact h.tails x hx

theorem Collection.ordered {c : List Locator} (h : Collection c) : Ordered c := by
  induction h with
  | new =>
    refine ⟨by simp [min_lt_max], ?_, rfl, rfl, ?_⟩
    · intro l hl
      rcases List.mem_cons.mp hl with rfl | hl
      · simp [IsU64, min]
      · rw [List.mem_singleton.mp hl]
        simp [IsU64, max]
    · intro l hl
      rw [List.mem_singleton.mp hl]
      exact max_last
  | @split before after l r m rounds _ hm ih =>
    rw [betweenRounds_some (ih.digits l (by simp)) (ih.digits r (by simp)) hm]
    exact ih.split

/-- **`between` splits every gap** whose right end does not finish in a zero, and so a collection that is
split again and again stays in order. -/
theorem between_splits :
    (∀ l r : Locator, IsU64 l → IsU64 r → l < r → r.getLast? ≠ some 0 →
      ∃ m, (∀ rounds, l.length < rounds ∧ r.length < rounds → betweenRounds rounds l r = some m) ∧
        IsU64 m ∧ l < m ∧ m < r ∧ ∃ d, m.getLast? = some d ∧ d ≠ 0) ∧
    ∀ c, Collection c → c.Pairwise (· < ·) ∧ (∃ inner, c = inner ++ [max] ∧ ∀ l ∈ inner, l < max) ∧
      ∀ before l r after, c = before ++ l :: r :: after →
        ∃ rounds m, betweenRounds rounds l r = some m := by
  refine ⟨?_, ?_⟩
  · intro l r hl hr hlt hlast
    obtain ⟨hleft, hright, hend⟩ := between_spec hlt hlast
    refine ⟨between l r, fun rounds h => betweenRounds_eq l r hl hr h, isU64_between hl hr, hleft, hright, ?_⟩
    have hne : between l r ≠ [] := fun hnil => List.not_lt_nil l (hnil ▸ hleft)
    obtain ⟨d, hd⟩ := Option.ne_none_iff_exists'.mp (mt List.getLast?_eq_none_iff.mp hne)
    exact ⟨d, hd, fun h0 => hend (h0 ▸ hd)⟩
  · intro c hc
    have h := hc.ordered
    refine ⟨h.sorted, ⟨c.dropLast, (dropLast_append_getLast? _ h.last).symm, ?_⟩, ?_⟩
    · have hsorted := h.sorted
      rw [← dropLast_append_getLast? _ h.last] at hsorted
      exact fun l hl => (List.pairwise_append.mp hsorted).2.2 l hl max mem_cons_self
    · rintro before l r after rfl
      have hrounds : l.length < l.length + r.length + 1 ∧ r.length < l.length + r.length + 1 := by omega
      exact ⟨_, _, betweenRounds_eq l r (h.digits l (by simp)) (h.digits r (by simp)) hrounds⟩

end Locator

end SpkEditor
