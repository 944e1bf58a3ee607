import Mathlib.Algebra.Order.Ring.Nat
import Mathlib.Order.Interval.Finset.Nat

/-!
# Rows of a text, and rows that are marked

A separator cuts a list into rows. All of them but the last are closed: what is appended
later only ever goes on with the last one (`splitOn_append`). A set of row numbers marks
some of the rows, and `unmarked` are the others, in order. The lemmas say what is left
unmarked when a text grows and marks are set on the rows it grows by.
-/

namespace SpkEditor

open List

namespace Rows

variable {α : Type} [DecidableEq α] {sep : α}

def closedRows (sep : α) (s : List α) : List (List α) := (s.splitOn sep).dropLast

def lastRow (sep : α) (s : List α) : List α := (s.splitOn sep).getLast (splitOn_ne_nil sep s)

/-- The number of the row that the text ends in. -/
def lastIx (sep : α) (s : List α) : Nat := (closedRows sep s).length

theorem splitOn_eq (sep : α) (s : List α) : s.splitOn sep = closedRows sep s ++ [lastRow sep s] :=
  (dropLast_append_getLast (splitOn_ne_nil sep s)).symm

@[simp] theorem closedRows_nil : closedRows sep [] = [] := rfl

@[simp] theorem lastRow_nil : lastRow sep [] = [] := rfl

@[simp] theorem lastIx_nil : lastIx sep [] = 0 := rfl

theorem length_splitOn (sep : α) (s : List α) : (s.splitOn sep).length = lastIx sep s + 1 := by
  rw [splitOn_eq, length_append]
  rfl

theorem of_splitOn {s : List α} {rs : List (List α)} {r : List α} (h : s.splitOn sep = rs ++ [r]) :
    closedRows sep s = rs ∧ lastRow sep s = r := by
  rw [splitOn_eq] at h
  exact ⟨append_inj_left' h rfl, by simpa using append_inj_right' h rfl⟩

section

variable (sep : α) (s t : List α)

theorem splitOn_append :
    (s ++ t).splitOn sep = closedRows sep s ++ (lastRow sep s ++ t).splitOn sep := by
  induction s with
  | nil => simp
  | cons c s ih =>
    by_cases hc : c = sep
    · subst hc
      have hcut : ∀ u : List α, (c :: u).splitOn c = [] :: u.splitOn c := by
        intro u
        simp [splitOn_cons_eq_if_modifyHead]
      obtain ⟨hclosed, hlast⟩ := @of_splitOn _ _ c (c :: s) ([] :: closedRows c s) (lastRow c s)
        (by rw [hcut, splitOn_eq, cons_append])
      rw [cons_append, hcut, ih, hclosed, hlast, cons_append]
    · have hcut : ∀ u : List α, (c :: u).splitOn sep = (u.splitOn sep).modifyHead (List.cons c) := by
        intro u
        rw [splitOn_cons_eq_if_modifyHead, if_neg (by simpa using hc)]
      have hs := hcut s
      rw [splitOn_eq sep s] at hs
      rw [cons_append, hcut, ih]
      cases hrows : closedRows sep s with
      | nil =>
        rw [hrows, nil_append] at hs
        obtain ⟨hclosed, hlast⟩ := @of_splitOn _ _ sep (c :: s) [] (c :: lastRow sep s) hs
        rw [hclosed, hlast, nil_append, nil_append, cons_append, hcut]
      | cons r rs =>
        rw [hrows] at hs
        obtain ⟨hclosed, hlast⟩ := @of_splitOn _ _ sep (c :: s) ((c :: r) :: rs) (lastRow sep s) hs
        rw [hclosed, hlast]
        rfl

theorem closedRows_append :
    closedRows sep (s ++ t) = closedRows sep s ++ closedRows sep (lastRow sep s ++ t) := by
  have h : (s ++ t).splitOn sep =
      (closedRows sep s ++ closedRows sep (lastRow sep s ++ t)) ++ [lastRow sep (lastRow sep s ++ t)] := by
    rw [splitOn_append, splitOn_eq sep (lastRow sep s ++ t), append_assoc]
  exact (of_splitOn h).1

theorem lastIx_append : lastIx sep (s ++ t) = lastIx sep s + lastIx sep (lastRow sep s ++ t) := by
  rw [lastIx, closedRows_append, length_append]
  rfl

end

theorem not_mem_lastRow (sep : α) (s : List α) : sep ∉ lastRow sep s := by
  -- Otherwise the last row could be cut once more, and appending nothing shows that it is not.
  have hself := splitOn_append sep s []
  rw [append_nil, append_nil, splitOn_eq sep s] at hself
  have hone := (append_cancel_left hself).symm
  intro hmem
  obtain ⟨a, b, hab⟩ := append_of_mem hmem
  rw [hab, splitOn_append_cons_self] at hone
  have hlen := congrArg List.length hone
  rw [length_append, length_splitOn, length_splitOn, length_singleton] at hlen
  omega

/-- What follows without a separator goes on with the last row. -/
theorem splitOn_append_of_not_mem {s u : List α} (h : sep ∉ u) :
    (s ++ u).splitOn sep = closedRows sep s ++ [lastRow sep s ++ u] := by
  rw [splitOn_append, splitOn_eq_singleton]
  rw [mem_append]
  exact not_or.2 ⟨not_mem_lastRow sep s, h⟩

theorem head?_splitOn (sep : α) (s : List α) :
    (s.splitOn sep).head? = some (s.takeWhile (· ≠ sep)) := by
  induction s with
  | nil => rfl
  | cons c s ih =>
    rw [splitOn_cons_eq_if_modifyHead]
    by_cases hc : c = sep
    · simp [hc]
    · rw [if_neg (by simpa using hc), List.head?_modifyHead, ih]
      simp [hc]

/-- The row that a part of a text ends in goes on until the next separator. -/
theorem getElem?_lastIx (sep : α) (s t : List α) :
    ((s ++ t).splitOn sep)[lastIx sep s]? = some (lastRow sep s ++ t.takeWhile (· ≠ sep)) := by
  rw [splitOn_append, lastIx, List.getElem?_append_right (le_refl _), Nat.sub_self,
    ← List.head?_eq_getElem?, head?_splitOn, takeWhile_append_of_pos]
  intro c hc
  have hne : c ≠ sep := by
    rintro rfl
    exact not_mem_lastRow c s hc
  simpa using hne

theorem lastRow_append_sep (s t : List α) : lastRow sep (s ++ sep :: t) = lastRow sep t := by
  have h : (s ++ sep :: t).splitOn sep = (s.splitOn sep ++ closedRows sep t) ++ [lastRow sep t] := by
    rw [splitOn_append_cons_self, splitOn_eq sep t, append_assoc]
  exact (of_splitOn h).2

theorem lastIx_append_sep (s t : List α) :
    lastIx sep (s ++ sep :: t) = lastIx sep s + 1 + lastIx sep t := by
  have h := congrArg List.length (@List.splitOn_append_cons_self _ _ _ sep s t)
  rw [length_append, length_splitOn, length_splitOn, length_splitOn] at h
  omega

/-! ## Marked rows -/

/-- The rows that a set of row numbers does not mark, the first one having number `i`. -/
def unmarked {β : Type} (M : Finset Nat) : Nat → List β → List β
  | _, [] => []
  | i, r :: rs => if i ∈ M then unmarked M (i + 1) rs else r :: unmarked M (i + 1) rs

variable {β : Type} {M M' : Finset Nat}

theorem unmarked_append (M : Finset Nat) : ∀ (i : Nat) (rs rs' : List β),
    unmarked M i (rs ++ rs') = unmarked M i rs ++ unmarked M (i + rs.length) rs'
  | _, [], _ => rfl
  | i, r :: rs, rs' => by
      rw [cons_append, unmarked, unmarked, unmarked_append M (i + 1) rs rs', length_cons,
        add_right_comm i 1, add_assoc i]
      split <;> rfl

theorem unmarked_congr : ∀ {i : Nat} {rs : List β},
    (∀ k, i ≤ k → k < i + rs.length → (k ∈ M ↔ k ∈ M')) → unmarked M i rs = unmarked M' i rs
  | _, [], _ => rfl
  | i, r :: rs, h => by
      have hrest : unmarked M (i + 1) rs = unmarked M' (i + 1) rs := by
        refine unmarked_congr fun k hlo hhi => h k (by omega) ?_
        rw [length_cons]
        omega
      have hi : i ∈ M ↔ i ∈ M' := h i (le_refl i) (by rw [length_cons]; omega)
      simp only [unmarked, hrest, hi]

theorem unmarked_eq_nil : ∀ {i : Nat} {rs : List β},
    (∀ k, i ≤ k → k < i + rs.length → k ∈ M) → unmarked M i rs = []
  | _, [], _ => rfl
  | i, r :: rs, h => by
      rw [unmarked, if_pos (h i (le_refl i) (by rw [length_cons]; omega))]
      refine unmarked_eq_nil fun k hlo hhi => h k (by omega) ?_
      rw [length_cons]
      omega

theorem unmarked_eq_self : ∀ {i : Nat} {rs : List β},
    (∀ k, i ≤ k → k < i + rs.length → k ∉ M) → unmarked M i rs = rs
  | _, [], _ => rfl
  | i, r :: rs, h => by
      rw [unmarked, if_neg (h i (le_refl i) (by rw [length_cons]; omega))]
      refine congrArg (r :: ·) (unmarked_eq_self fun k hlo hhi => h k (by omega) ?_)
      rw [length_cons]
      omega

section

variable (M : Finset Nat)

theorem unmarked_splitOn (s : List α) :
    unmarked M 0 (s.splitOn sep) = unmarked M 0 (closedRows sep s) ++
      (if lastIx sep s ∈ M then [] else [lastRow sep s]) := by
  rw [splitOn_eq, unmarked_append, zero_add]
  rfl

/-- Marks below a bound, and others from there on: below the bound only the former count. -/
theorem unmarked_closedRows_union (s : List α) {N : Finset Nat} (h : ∀ k ∈ N, lastIx sep s ≤ k) :
    unmarked (M ∪ N) 0 (closedRows sep s) = unmarked M 0 (closedRows sep s) := by
  refine unmarked_congr fun k _ hk => ?_
  rw [Finset.mem_union]
  refine or_iff_left fun hN => ?_
  have := h k hN
  have : lastIx sep s = (closedRows sep s).length := rfl
  omega

theorem unmarked_grow_all (s t : List α) :
    unmarked (M ∪ Finset.Icc (lastIx sep s) (lastIx sep (s ++ t))) 0 ((s ++ t).splitOn sep) =
      unmarked M 0 (closedRows sep s) := by
  rw [splitOn_append, unmarked_append, unmarked_closedRows_union M s fun k hk => (Finset.mem_Icc.1 hk).1]
  refine List.append_right_eq_self.2 (unmarked_eq_nil fun k hlo hhi => ?_)
  rw [length_splitOn, zero_add] at hhi
  rw [zero_add] at hlo
  rw [Finset.mem_union, Finset.mem_Icc, lastIx_append]
  exact .inr ⟨hlo, by rw [lastIx]; omega⟩

theorem unmarked_grow_after (s t : List α) :
    unmarked (M ∪ Finset.Icc (lastIx sep s + 1) (lastIx sep (s ++ sep :: t))) 0
        ((s ++ sep :: t).splitOn sep) =
      unmarked M 0 (s.splitOn sep) := by
  rw [splitOn_append_cons_self, unmarked_append]
  have hold : unmarked (M ∪ Finset.Icc (lastIx sep s + 1) (lastIx sep (s ++ sep :: t))) 0 (s.splitOn sep) =
      unmarked M 0 (s.splitOn sep) := by
    refine unmarked_congr fun k _ hk => ?_
    rw [length_splitOn] at hk
    rw [Finset.mem_union, Finset.mem_Icc]
    exact or_iff_left fun h => by omega
  rw [hold]
  refine List.append_right_eq_self.2 (unmarked_eq_nil fun k hlo hhi => ?_)
  rw [length_splitOn, length_splitOn] at hhi
  rw [length_splitOn] at hlo
  rw [Finset.mem_union, Finset.mem_Icc, lastIx_append_sep]
  exact .inr ⟨by omega, by omega⟩

end

/-- All rows that a text grows by are marked, except the empty one that it then ends in. -/
theorem unmarked_grow_until {s t : List α} (hend : lastRow sep (s ++ t) = [])
    (hM : lastIx sep (s ++ t) ∉ M) :
    unmarked (M ∪ Finset.Ico (lastIx sep s) (lastIx sep (s ++ t))) 0 ((s ++ t).splitOn sep) =
      unmarked M 0 (closedRows sep s) ++ [[]] := by
  have hlast : lastIx sep (s ++ t) ∉ M ∪ Finset.Ico (lastIx sep s) (lastIx sep (s ++ t)) := by
    rw [Finset.mem_union, Finset.mem_Ico]
    exact not_or.2 ⟨hM, fun h => lt_irrefl _ h.2⟩
  rw [unmarked_splitOn, if_neg hlast, hend, closedRows_append, unmarked_append,
    unmarked_closedRows_union M s fun k hk => (Finset.mem_Ico.1 hk).1]
  refine congrArg (· ++ [[]]) (List.append_right_eq_self.2 (unmarked_eq_nil fun k hlo hhi => ?_))
  rw [zero_add] at hlo hhi
  rw [Finset.mem_union, Finset.mem_Ico, lastIx_append]
  exact .inr ⟨hlo, hhi⟩

theorem unmarked_grow_none {s : List α} (t : List α) (hM : ∀ k ∈ M, k ≤ lastIx sep s) :
    unmarked M 0 ((s ++ sep :: t).splitOn sep) = unmarked M 0 (s.splitOn sep) ++ t.splitOn sep := by
  rw [splitOn_append_cons_self, unmarked_append]
  refine congrArg (unmarked M 0 (s.splitOn sep) ++ ·) (unmarked_eq_self fun k hlo _ hk => ?_)
  rw [length_splitOn] at hlo
  have := hM k hk
  omega

end Rows

end SpkEditor
