import SpkEditor.Diff.LineDiff

/-!
# Rows that are left over on both sides

What the line diff does to its two sets of rows, with the texts in the place of their
extents. `Aligned` is what makes the marks good: the rows that are left unmarked, among
those reached so far, read the same on both sides. The two rows that are being gone
through may be marked or not. When only one of them is, the old text stands at the end of
a line: either a newline was inserted there, or lines were deleted from there on.
-/

namespace SpkEditor

open Rows List

/-- A text that goes on with a new line, or not at all. -/
def AtLineEnd (post : List Char) : Prop := ∀ c ∈ post.head?, c = '\n'

/-- What the sets of deleted and inserted rows say, once the old text has been followed
through `pre`, up to `post`, and the new one through `new`. -/
structure Aligned (newline : Bool) (D I : Finset Nat) (pre post new : List Char) : Prop where
  /-- The rows left over are the same. -/
  leftover : unmarked D 0 (pre.splitOn '\n') = unmarked I 0 (new.splitOn '\n')
  deleted_le : ∀ r ∈ D, r ≤ lastIx '\n' pre
  inserted_le : ∀ r ∈ I, r ≤ lastIx '\n' new
  /-- Only at the end of a line is one of the current rows marked and the other not. -/
  both : AtLineEnd post ∨ (lastIx '\n' pre ∈ D ↔ lastIx '\n' new ∈ I)
  /-- A new row that is marked alone came with a newline. -/
  alone : lastIx '\n' new ∈ I → lastIx '\n' pre ∉ D → newline = true
  /-- An inserted newline has closed an old row that is not empty. -/
  closed : newline = true → lastIx '\n' new ∈ I ∧ lastRow '\n' pre ≠ []

namespace Aligned

variable {newline : Bool} {D I : Finset Nat} {pre post new : List Char}

theorem start (post : List Char) : Aligned false ∅ ∅ [] post [] where
  leftover := rfl
  deleted_le := by simp
  inserted_le := by simp
  both := .inr (by simp)
  alone := by simp
  closed := by simp

theorem closedRows_eq (h : Aligned newline D I pre post new)
    (hboth : lastIx '\n' pre ∈ D ↔ lastIx '\n' new ∈ I) :
    unmarked D 0 (closedRows '\n' pre) = unmarked I 0 (closedRows '\n' new) := by
  have hleft := h.leftover
  rw [unmarked_splitOn, unmarked_splitOn] at hleft
  by_cases hI : lastIx '\n' new ∈ I
  · rwa [if_pos hI, if_pos (hboth.2 hI), append_nil, append_nil] at hleft
  · rw [if_neg hI, if_neg (mt hboth.1 hI)] at hleft
    exact append_inj_left' hleft rfl

theorem lastRow_eq (h : Aligned newline D I pre post new) (hD : lastIx '\n' pre ∉ D)
    (hI : lastIx '\n' new ∉ I) : lastRow '\n' pre = lastRow '\n' new := by
  have hleft := h.leftover
  rw [unmarked_splitOn, unmarked_splitOn, if_neg hI, if_neg hD] at hleft
  simpa using append_inj_right' hleft rfl

theorem lastIx_le_append (s t : List Char) : lastIx '\n' s ≤ lastIx '\n' (s ++ t) := by
  rw [lastIx_append]
  omega

theorem insert_all (h : Aligned newline D I pre post new) (t : List Char)
    (hboth : lastIx '\n' pre ∈ D ↔ lastIx '\n' new ∈ I) :
    Aligned newline (D ∪ {lastIx '\n' pre})
      (I ∪ Finset.Icc (lastIx '\n' new) (lastIx '\n' (new ++ t))) pre post (new ++ t) where
  leftover := by
    rw [unmarked_grow_all, unmarked_splitOn, if_pos (by simp), append_nil,
      unmarked_closedRows_union D pre (by simp)]
    exact h.closedRows_eq hboth
  deleted_le := by
    intro r hr
    rcases Finset.mem_union.1 hr with hr | hr
    · exact h.deleted_le r hr
    · exact le_of_eq (Finset.mem_singleton.1 hr)
  inserted_le := by
    intro r hr
    rcases Finset.mem_union.1 hr with hr | hr
    · exact le_trans (h.inserted_le r hr) (lastIx_le_append new t)
    · exact (Finset.mem_Icc.1 hr).2
  both := .inr (by simp [lastIx_le_append])
  alone := by simp
  closed := by
    intro hn
    exact ⟨by simp [lastIx_le_append], (h.closed hn).2⟩

theorem insert_more (h : Aligned true D I pre post new) (t : List Char) (hend : AtLineEnd post) :
    Aligned true D (I ∪ Finset.Icc (lastIx '\n' new) (lastIx '\n' (new ++ t))) pre post (new ++ t) where
  leftover := by
    have hleft := h.leftover
    rw [unmarked_splitOn I, if_pos (h.closed rfl).1, append_nil] at hleft
    rw [unmarked_grow_all, hleft]
  deleted_le := h.deleted_le
  inserted_le := by
    intro r hr
    rcases Finset.mem_union.1 hr with hr | hr
    · exact le_trans (h.inserted_le r hr) (lastIx_le_append new t)
    · exact (Finset.mem_Icc.1 hr).2
  both := .inl hend
  alone := fun _ _ => rfl
  closed := fun _ => ⟨by simp [lastIx_le_append], (h.closed rfl).2⟩

theorem insert_after (h : Aligned newline D I pre post new) (t : List Char) (hend : AtLineEnd post)
    (hpre : lastRow '\n' pre ≠ []) :
    Aligned true D (I ∪ Finset.Icc (lastIx '\n' new + 1) (lastIx '\n' (new ++ '\n' :: t))) pre post
      (new ++ '\n' :: t) where
  leftover := by rw [unmarked_grow_after, h.leftover]
  deleted_le := h.deleted_le
  inserted_le := by
    intro r hr
    rcases Finset.mem_union.1 hr with hr | hr
    · exact le_trans (h.inserted_le r hr) (lastIx_le_append new _)
    · exact (Finset.mem_Icc.1 hr).2
  both := .inl hend
  alone := fun _ _ => rfl
  closed := by
    refine fun _ => ⟨?_, hpre⟩
    rw [Finset.mem_union, Finset.mem_Icc, lastIx_append_sep]
    exact .inr ⟨by omega, by omega⟩

theorem insert_until (h : Aligned newline D I pre post new) {t : List Char} (hpre : lastRow '\n' pre = [])
    (hnew : lastRow '\n' new = []) (hgrown : lastRow '\n' (new ++ t) = []) (hI : lastIx '\n' new ∉ I) :
    Aligned newline D (I ∪ Finset.Ico (lastIx '\n' new) (lastIx '\n' (new ++ t))) pre post (new ++ t) := by
  have hfresh : lastIx '\n' (new ++ t) ∉ I := by
    intro hmem
    have hle := h.inserted_le _ hmem
    have hge := lastIx_le_append new t
    exact hI (le_antisymm hle hge ▸ hmem)
  have hlast : lastIx '\n' (new ++ t) ∉ I ∪ Finset.Ico (lastIx '\n' new) (lastIx '\n' (new ++ t)) := by
    simp [hfresh]
  refine ⟨?_, h.deleted_le, ?_, ?_, ?_, ?_⟩
  · have hleft := h.leftover
    rw [unmarked_splitOn I, if_neg hI, hnew] at hleft
    rw [unmarked_grow_until hgrown hfresh, hleft]
  · intro r hr
    rcases Finset.mem_union.1 hr with hr | hr
    · exact le_trans (h.inserted_le r hr) (lastIx_le_append new _)
    · exact le_of_lt (Finset.mem_Ico.1 hr).2
  · rcases h.both with hend | hboth
    · exact .inl hend
    · exact .inr (iff_of_false (mt hboth.1 hI) hlast)
  · exact fun hmem => absurd hmem hlast
  · exact fun hn => absurd hpre (h.closed hn).2

theorem delete_after {w : List Char} (h : Aligned newline D I pre ('\n' :: w ++ post) new)
    (hend : AtLineEnd post) :
    Aligned false (D ∪ Finset.Icc (lastIx '\n' pre + 1) (lastIx '\n' (pre ++ '\n' :: w))) I
      (pre ++ '\n' :: w) post new where
  leftover := by rw [unmarked_grow_after, h.leftover]
  deleted_le := by
    intro r hr
    rcases Finset.mem_union.1 hr with hr | hr
    · exact le_trans (h.deleted_le r hr) (lastIx_le_append pre _)
    · exact (Finset.mem_Icc.1 hr).2
  inserted_le := h.inserted_le
  both := .inl hend
  alone := by
    intro _ hD
    refine absurd ?_ hD
    rw [Finset.mem_union, Finset.mem_Icc, lastIx_append_sep]
    exact .inr ⟨by omega, by omega⟩
  closed := by simp

section

variable {w : List Char} (h : Aligned newline D I pre (w ++ post) new)
include h

theorem delete_until (hpre : lastRow '\n' pre = []) (hgrown : lastRow '\n' (pre ++ w) = [])
    (hD : lastIx '\n' pre ∉ D) (hI : lastIx '\n' new ∉ I) :
    Aligned false (D ∪ Finset.Ico (lastIx '\n' pre) (lastIx '\n' (pre ++ w))) I (pre ++ w) post new := by
  have hfresh : lastIx '\n' (pre ++ w) ∉ D := by
    intro hmem
    have hle := h.deleted_le _ hmem
    have hge := lastIx_le_append pre w
    exact hD (le_antisymm hle hge ▸ hmem)
  have hlast : lastIx '\n' (pre ++ w) ∉ D ∪ Finset.Ico (lastIx '\n' pre) (lastIx '\n' (pre ++ w)) := by
    simp [hfresh]
  refine ⟨?_, ?_, h.inserted_le, .inr (iff_of_false hlast hI), ?_, ?_⟩
  · have hleft := h.leftover
    rw [unmarked_splitOn D, if_neg hD, hpre] at hleft
    rw [unmarked_grow_until hgrown hfresh, hleft]
  · intro r hr
    rcases Finset.mem_union.1 hr with hr | hr
    · exact le_trans (h.deleted_le r hr) (lastIx_le_append pre _)
    · exact le_of_lt (Finset.mem_Ico.1 hr).2
  · exact fun hmem => absurd hmem hI
  · simp

/-- Everything deleted is marked, and the new row it is missing from. -/
theorem delete_all (hboth : lastIx '\n' pre ∈ D ↔ lastIx '\n' new ∈ I) :
    Aligned false (D ∪ Finset.Icc (lastIx '\n' pre) (lastIx '\n' (pre ++ w))) (I ∪ {lastIx '\n' new})
      (pre ++ w) post new where
  leftover := by
    rw [unmarked_grow_all, unmarked_splitOn, if_pos (by simp), append_nil,
      unmarked_closedRows_union I new (by simp)]
    exact h.closedRows_eq hboth
  deleted_le := by
    intro r hr
    rcases Finset.mem_union.1 hr with hr | hr
    · exact le_trans (h.deleted_le r hr) (lastIx_le_append pre w)
    · exact (Finset.mem_Icc.1 hr).2
  inserted_le := by
    intro r hr
    rcases Finset.mem_union.1 hr with hr | hr
    · exact h.inserted_le r hr
    · exact le_of_eq (Finset.mem_singleton.1 hr)
  both := .inr (by simp [lastIx_le_append])
  alone := by
    intro _ hD
    refine absurd ?_ hD
    simp [lastIx_le_append]
  closed := by simp

end

/-! ## Kept text -/

theorem keep_row {u : List Char} (h : Aligned newline D I pre (u ++ post) new) (hu : u ≠ [])
    (hrow : '\n' ∉ u) : Aligned false D I (pre ++ u) post (new ++ u) := by
  obtain ⟨hpre, hpre'⟩ := of_splitOn (@splitOn_append_of_not_mem _ _ '\n' pre u hrow)
  obtain ⟨hnew, hnew'⟩ := of_splitOn (@splitOn_append_of_not_mem _ _ '\n' new u hrow)
  have hixp : lastIx '\n' (pre ++ u) = lastIx '\n' pre := congrArg List.length hpre
  have hixn : lastIx '\n' (new ++ u) = lastIx '\n' new := congrArg List.length hnew
  -- The line goes on, so that it is not at its end here.
  have hboth : lastIx '\n' pre ∈ D ↔ lastIx '\n' new ∈ I := by
    refine h.both.resolve_left fun hend => ?_
    obtain ⟨c, u, rfl⟩ := exists_cons_of_ne_nil hu
    have hc : c = '\n' := hend c (by simp)
    exact hrow (by simp [hc])
  refine ⟨?_, hixp ▸ h.deleted_le, hixn ▸ h.inserted_le, .inr ?_, ?_, by simp⟩
  · rw [unmarked_splitOn, unmarked_splitOn, hpre, hnew, hpre', hnew', hixp, hixn, h.closedRows_eq hboth]
    by_cases hI : lastIx '\n' new ∈ I
    · rw [if_pos hI, if_pos (hboth.2 hI)]
    · rw [if_neg hI, if_neg (mt hboth.1 hI), h.lastRow_eq (mt hboth.1 hI) hI]
  · rw [hixp, hixn]
    exact hboth
  · rw [hixp, hixn]
    exact fun hI hD => absurd (hboth.2 hI) hD

theorem keep_newline {w : List Char} (h : Aligned newline D I pre ('\n' :: w ++ post) new) :
    Aligned false D I (pre ++ '\n' :: w) post (new ++ '\n' :: w) := by
  have hpre : lastIx '\n' (pre ++ '\n' :: w) ∉ D := by
    intro hmem
    have := h.deleted_le _ hmem
    rw [lastIx_append_sep] at this
    omega
  have hnew : lastIx '\n' (new ++ '\n' :: w) ∉ I := by
    intro hmem
    have := h.inserted_le _ hmem
    rw [lastIx_append_sep] at this
    omega
  refine ⟨?_, ?_, ?_, .inr (iff_of_false hpre hnew), fun hI => absurd hI hnew, by simp⟩
  · rw [unmarked_grow_none w h.deleted_le, unmarked_grow_none w h.inserted_le, h.leftover]
  · exact fun r hr => le_trans (h.deleted_le r hr) (lastIx_le_append pre _)
  · exact fun r hr => le_trans (h.inserted_le r hr) (lastIx_le_append new _)

theorem keep {w : List Char} (h : Aligned newline D I pre (w ++ post) new) (hw : w ≠ []) :
    Aligned false D I (pre ++ w) post (new ++ w) := by
  obtain ⟨u, rest, rfl, hrow, hrest⟩ : ∃ u rest, w = u ++ rest ∧ '\n' ∉ u ∧
      (rest = [] ∨ ∃ v, rest = '\n' :: v) := by
    refine ⟨w.takeWhile (· ≠ '\n'), w.dropWhile (· ≠ '\n'), List.takeWhile_append_dropWhile.symm, ?_, ?_⟩
    · intro hmem
      simpa using mem_takeWhile_imp hmem
    · cases hdrop : w.dropWhile (· ≠ '\n') with
      | nil => exact .inl rfl
      | cons c v =>
        have hc : c = '\n' := by
          have := List.head?_dropWhile_not (· ≠ '\n') w
          rw [hdrop] at this
          simpa using this
        exact .inr ⟨v, by rw [hc]⟩
  by_cases hu : u = []
  · subst hu
    obtain rfl | ⟨v, rfl⟩ := hrest
    · exact absurd rfl hw
    · exact h.keep_newline
  · rw [append_assoc] at h
    have hkept := h.keep_row hu hrow
    obtain rfl | ⟨v, rfl⟩ := hrest
    · simpa using hkept
    · have := hkept.keep_newline
      rwa [append_assoc, append_assoc] at this

end Aligned

end SpkEditor
