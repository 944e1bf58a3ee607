import Mathlib.Algebra.Order.Ring.Nat
import Mathlib.Data.List.Lex
import Mathlib.Tactic.Basic

/-!
# Locators

`crates/text/src/locator.rs`. A locator is a position in an ordered collection,
compared lexicographically, and `between` finds one strictly inside a gap without
renumbering anything else. Every fragment of a buffer is filed under one.

`between` reads its left argument as padded with zeros and its right one as
padded with `u64::MAX`. The padding is what makes it terminate, and it is also
why the right end of a gap must not end in a zero: `[1]` and `[1, 0]` are
adjacent, and `between` has nowhere to go.
-/

namespace SpkEditor

/-- A position in an ordered collection; the derived order is lexicographic. -/
abbrev Locator := List Nat

namespace Locator

/-- `u64::MAX`. -/
def U64_MAX : Nat := 2 ^ 64 - 1

/-- `Locator::min`. -/
def min : Locator := [0]

/-- `Locator::max`. -/
def max : Locator := [U64_MAX]

/-- The two padded digit streams, side by side, up to the first position past
the end of both. There the pair is `(u64::MIN, u64::MAX)` and the loop stops. -/
def zipped : Locator → Locator → List (Nat × Nat)
  | [], rhs => rhs.map (fun r => (0, r)) ++ [(0, U64_MAX)]
  | l :: ls, rhs => (l, rhs.headD U64_MAX) :: zipped ls rhs.tail

/-- The loop of `Locator::between`: `Nat` subtraction is `saturating_sub`. -/
def betweenLoop : List (Nat × Nat) → Locator
  | [] => []
  | (lhs, rhs) :: rest =>
    let mid := lhs + ((rhs - lhs) >>> 48)
    if mid > lhs then [mid] else mid :: betweenLoop rest

/-- `Locator::between`. -/
def between (lhs rhs : Locator) : Locator := betweenLoop (zipped lhs rhs)

theorem zipped_nil_cons (r : Nat) (rs : Locator) :
    zipped [] (r :: rs) = (0, r) :: zipped [] rs := rfl

theorem zipped_cons_cons (l r : Nat) (ls rs : Locator) :
    zipped (l :: ls) (r :: rs) = (l, r) :: zipped ls rs := rfl

theorem betweenLoop_cons (l r : Nat) (rest : List (Nat × Nat)) :
    betweenLoop ((l, r) :: rest) =
      if (r - l) >>> 48 = 0 then l :: betweenLoop rest else [l + ((r - l) >>> 48)] := by
  simp only [betweenLoop]
  by_cases h : (r - l) >>> 48 = 0
  · simp [h]
  · rw [if_neg h, if_pos (by omega)]

theorem shiftRight_48_lt {n : Nat} (h : 0 < n) : n >>> 48 < n := by
  rw [Nat.shiftRight_eq_div_pow]
  exact Nat.div_lt_self h (by decide)

theorem lt_between (l r : Locator) : l < between l r := by
  unfold between
  induction l generalizing r with
  | nil =>
    cases r with
    | nil => simp [zipped, betweenLoop]
    | cons r rs =>
      rw [zipped_nil_cons, betweenLoop_cons]
      split <;> exact List.nil_lt_cons _ _
  | cons l ls ih =>
    rw [zipped, betweenLoop_cons]
    split
    · exact List.cons_lt_cons_iff.mpr (Or.inr ⟨rfl, ih _⟩)
    · exact List.cons_lt_cons_iff.mpr (Or.inl (by omega))

/-- Once the right stream has passed the left one, nothing the loop appends matters:
what is left to compare is a locator with a non-zero last digit against zeros. -/
theorem betweenLoop_nil_lt : ∀ (r : Locator), r ≠ [] → r.getLast? ≠ some 0 →
    betweenLoop (zipped [] r) < r
  | [], h, _ => absurd rfl h
  | r :: rs, _, hlast => by
      rw [zipped_nil_cons, betweenLoop_cons]
      split
      · rcases Nat.eq_zero_or_pos r with hr | hr
        · subst hr
          cases rs with
          | nil => simp at hlast
          | cons r' rs' =>
            refine List.cons_lt_cons_iff.mpr (Or.inr ⟨rfl, ?_⟩)
            exact betweenLoop_nil_lt (r' :: rs') (by simp) (by simpa using hlast)
        · exact List.cons_lt_cons_iff.mpr (Or.inl hr)
      · rename_i h
        have hr : 0 < r := by
          rcases Nat.eq_zero_or_pos r with hr | hr
          · subst hr; simp at h
          · exact hr
        refine List.cons_lt_cons_iff.mpr (Or.inl ?_)
        simpa using shiftRight_48_lt hr

/-- **`between` stays below its right end**, provided that end does not finish in
a zero digit. -/
theorem between_lt : ∀ {l r : Locator}, l < r → r.getLast? ≠ some 0 → between l r < r
  | _, [], h, _ => absurd h (List.not_lt_nil _)
  | [], r :: rs, _, hlast => betweenLoop_nil_lt (r :: rs) (by simp) hlast
  | l :: ls, r :: rs, h, hlast => by
      rw [between, zipped_cons_cons, betweenLoop_cons]
      rcases List.cons_lt_cons_iff.mp h with hlt | ⟨rfl, hlt⟩
      · split
        · exact List.cons_lt_cons_iff.mpr (Or.inl hlt)
        · refine List.cons_lt_cons_iff.mpr (Or.inl ?_)
          have := shiftRight_48_lt (n := r - l) (by omega)
          omega
      · rw [if_pos (by simp)]
        cases rs with
        | nil => exact absurd hlt (List.not_lt_nil _)
        | cons r' rs' =>
          refine List.cons_lt_cons_iff.mpr (Or.inr ⟨rfl, ?_⟩)
          exact between_lt hlt (by simpa using hlast)

/-! ## The digits `between` produces -/

theorem zipped_concat : ∀ l r : Locator, ∃ ps, zipped l r = ps ++ [(0, U64_MAX)]
  | [], _ => ⟨_, rfl⟩
  | _ :: ls, r => by
      obtain ⟨ps, h⟩ := zipped_concat ls r.tail
      exact ⟨_ :: ps, congrArg _ h⟩

theorem betweenLoop_concat : ∀ ps : List (Nat × Nat),
    (betweenLoop (ps ++ [(0, U64_MAX)])).getLast? ≠ some 0 ∧ betweenLoop (ps ++ [(0, U64_MAX)]) ≠ []
  | [] => by decide
  | (l, r) :: ps => by
      have ih := betweenLoop_concat ps
      rw [List.cons_append, betweenLoop_cons]
      split
      · exact ⟨by rw [List.getLast?_cons_of_ne_nil ih.2]; exact ih.1, by simp⟩
      · refine ⟨?_, by simp⟩
        simp only [List.getLast?_singleton, ne_eq, Option.some.injEq]; omega

theorem betweenLoop_last (l r : Locator) : (betweenLoop (zipped l r)).getLast? ≠ some 0 := by
  obtain ⟨ps, h⟩ := zipped_concat l r
  rw [h]
  exact (betweenLoop_concat ps).1

/--
A locator a fragment may carry: strictly between `min` and `max`, and usable as
the right end of a gap.
-/
structure Good (l : Locator) : Prop where
  /-- Above the sentinel at the front. -/
  min_lt : min < l
  /-- Below the sentinel at the back. -/
  lt_max : l < max
  /-- No trailing zero digit. -/
  last : l.getLast? ≠ some 0

theorem max_last : max.getLast? ≠ some 0 := by decide

theorem min_lt_max : min < max := by decide

/-- **`between` splits a gap**: the new locator is strictly inside it and is
itself a good right end. -/
theorem between_spec {l r : Locator} (h : l < r) (hr : r.getLast? ≠ some 0) :
    l < between l r ∧ between l r < r ∧ (between l r).getLast? ≠ some 0 :=
  ⟨lt_between l r, between_lt h hr, betweenLoop_last l r⟩

theorem good_between {l r : Locator} (hl : min ≤ l) (h : l < r) (hr : r ≤ max)
    (hlast : r.getLast? ≠ some 0) : Good (between l r) :=
  ⟨lt_of_le_of_lt hl (lt_between l r), lt_of_lt_of_le (between_lt h hlast) hr,
    betweenLoop_last l r⟩

end Locator

end SpkEditor
