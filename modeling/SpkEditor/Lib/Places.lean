import Mathlib.Data.List.Infix

/-!
# Places in a list

Where an element stands in a list is the index of its first occurrence; what stands
before it is the stretch up to there. Leaving elements out does not change which of two
others comes first.
-/

namespace SpkEditor

open List

variable {α : Type}

theorem take_countP_filter (keep : α → Bool) (l : List α) (k : Nat) :
    (l.filter keep).take ((l.take k).countP keep) = (l.take k).filter keep := by
  have h : l.filter keep = (l.take k).filter keep ++ (l.drop k).filter keep := by
    rw [← filter_append, take_append_drop]
  rw [h, take_left' List.countP_eq_length_filter.symm]

theorem slice_countP_filter (keep : α → Bool) (l : List α) {j k : Nat} (h : j ≤ k) :
    ((l.filter keep).take ((l.take k).countP keep)).drop ((l.take j).countP keep) =
      ((l.take k).drop j).filter keep := by
  have hsplit : (l.take k).filter keep = (l.take j).filter keep ++ ((l.take k).drop j).filter keep := by
    have hj : l.take j = (l.take k).take j := by rw [take_take, Nat.min_eq_left h]
    rw [hj, ← filter_append, take_append_drop]
  rw [take_countP_filter, hsplit, drop_left' List.countP_eq_length_filter.symm]

variable [BEq α] [LawfulBEq α]

theorem take_idxOf_filter {keep : α → Bool} {x : α} (hx : keep x = true) : ∀ l : List α,
    (l.filter keep).take ((l.filter keep).idxOf x) = (l.take (l.idxOf x)).filter keep
  | [] => rfl
  | a :: l => by
      by_cases ha : a = x
      · subst ha
        rw [filter_cons_of_pos hx, idxOf_cons_self, idxOf_cons_self]
        rfl
      · rw [idxOf_cons_ne _ ha]
        cases hk : keep a with
        | true =>
          rw [filter_cons_of_pos hk, idxOf_cons_ne _ ha, take_succ_cons,
            take_succ_cons, filter_cons_of_pos hk, take_idxOf_filter hx l]
        | false =>
          have hk' : ¬ keep a = true := by rw [hk]; exact Bool.false_ne_true
          rw [filter_cons_of_neg hk', take_succ_cons, filter_cons_of_neg hk',
            take_idxOf_filter hx l]

/-- **Leaving elements out does not change which of two comes first.** -/
theorem idxOf_lt_filter {keep : α → Bool} {l : List α} {x y : α} (hx : keep x = true)
    (hy : keep y = true) (hin : x ∈ l) :
    (l.filter keep).idxOf x < (l.filter keep).idxOf y ↔ l.idxOf x < l.idxOf y := by
  rw [← mem_take_iff_idxOf_lt (List.mem_filter.mpr ⟨hin, hx⟩), take_idxOf_filter hy,
    mem_filter, mem_take_iff_idxOf_lt hin]
  exact and_iff_left hx

theorem idxOf_append_cons {l m : List α} {x : α} (h : x ∉ l) : (l ++ x :: m).idxOf x = l.length := by
  rw [idxOf_append_of_notMem h, idxOf_cons_self, Nat.add_zero]

end SpkEditor
