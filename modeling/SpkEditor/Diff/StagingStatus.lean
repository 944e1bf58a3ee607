import SpkEditor.Diff.StagingIndex

/-!
# Hunks asked for, and their status

Pending hunks are hunks of the diff between the head and the buffer, in their order, or the one
that stands for the whole file. When all hunks are asked for, nothing that was pending before is
left; the ones that are passed over are settled already: no unstaged hunk touches them, or there
is one with the very same range.
-/

namespace SpkEditor.Staging

open List

theorem pointAt_row_le (text : Bytes) {a b : Nat} (h : a ≤ b) :
    (pointAt text a).row ≤ (pointAt text b).row :=
  (take_sublist_take_left h).count_le 10

section

variable {text : Bytes} {a b : Nat}

/-- An offset behind another one has another point: a newline in between changes the row, and
anything else the column. -/
theorem pointAt_ne (hab : a < b) (hb : b ≤ text.length) : pointAt text a ≠ pointAt text b := by
  have hsplit : text.take b = text.take a ++ (text.drop a).take (b - a) := by
    rw [← take_add, Nat.add_sub_cancel' hab.le]
  have hlen : ((text.drop a).take (b - a)).length = b - a := by
    simp only [length_take, length_drop]
    omega
  intro h
  simp only [pointAt, Point.mk.injEq] at h
  rw [hsplit] at h
  obtain ⟨hrow, hcol⟩ := h
  rw [count_append] at hrow
  have hno : ∀ c ∈ ((text.drop a).take (b - a)).reverse, (c != 10) = true := by
    intro c hc
    have : (10 : UInt8) ∉ (text.drop a).take (b - a) := List.count_eq_zero.mp (by omega)
    simp only [bne_iff_ne]
    rintro rfl
    exact this (List.mem_reverse.mp hc)
  rw [reverse_append, takeWhile_append_of_pos hno, length_append, length_reverse, hlen] at hcol
  omega

theorem pointAt_inj (ha : a ≤ text.length) (hb : b ≤ text.length)
    (h : pointAt text a = pointAt text b) : a = b := by
  rcases Nat.lt_trichotomy a b with hlt | rfl | hlt
  · exact absurd h (pointAt_ne hlt hb)
  · rfl
  · exact absurd h.symm (pointAt_ne hlt ha)

/-- The end of a row is not rounded, and what is rounded from the end of the buffer is no point
of it. -/
theorem eq_of_roundedPoint (ha : a ≤ text.length)
    (hrow : (pointAt text a).column = 0 ∨ a = text.length) (hb : b ≤ text.length)
    (h : roundedPoint text a = pointAt text b) : a = b := by
  unfold roundedPoint at h
  split at h
  · next hcol =>
    have := pointAt_row_le text (show b ≤ a by omega)
    have hr := congrArg Point.row h
    simp only at hr
    omega
  · exact pointAt_inj ha hb h

end

theorem hunkEnd_eq {text : Bytes} {a : Nat} (ha : (pointAt text a).column = 0 ∨ a = text.length) :
    hunkEnd text a = a := by
  rw [hunkEnd, if_neg]
  omega

/-! ## The status of a hunk -/

section

variable {base text : Bytes} {unstaged : List Hunk} {h u : Hunk}

theorem dropWhile_dropWhile {α : Type} {f f' : α → Bool} (hf : ∀ x, f x = true → f' x = true) :
    ∀ l : List α, (l.dropWhile f).dropWhile f' = l.dropWhile f'
  | [] => rfl
  | x :: l => by
      by_cases hx : f x = true
      · rw [dropWhile_cons_of_pos hx, dropWhile_cons_of_pos (hf x hx)]
        exact dropWhile_dropWhile hf l
      · rw [dropWhile_cons_of_neg hx]

theorem hunksWithStatus_map : ∀ {pending : List PendingHunk} {unstaged hunks : List Hunk},
    (∀ h ∈ hunks, (pointAt text h.buffer.stop).column = 0 ∨ h.buffer.stop = text.length) →
    (hunksWithStatus text pending unstaged hunks).map DiffHunk.toHunk = hunks
  | _, _, [], _ => rfl
  | pending, unstaged, h :: hunks, hstop => by
      have heq := hunkEnd_eq (hstop h (mem_cons_self ..))
      rw [hunksWithStatus]
      simp only [heq]
      split <;> exact congrArg (h :: ·)
        (hunksWithStatus_map fun k hk => hstop k (mem_cons_of_mem _ hk))

/-- A status is that of a pending hunk, or comes from the first unstaged hunk that does not end
before the hunk. -/
theorem hunksWithStatus_status : ∀ {pending : List PendingHunk} {unstaged hunks : List Hunk},
    (∀ h ∈ hunks, (pointAt text h.buffer.stop).column = 0 ∨ h.buffer.stop = text.length) →
    hunks.Pairwise (fun h h' => h.buffer.start ≤ h'.buffer.start) →
    (∀ p ∈ pending, IsPending p.newStatus) →
    ∀ r ∈ hunksWithStatus text pending unstaged hunks, IsPending r.secondaryStatus ∨
      r.secondaryStatus = secondaryStatusOf text r.toHunk
        (unstaged.dropWhile fun u => u.buffer.stop < r.buffer.start).head?
  | _, _, [], _, _, _, r, hr => by simp [hunksWithStatus] at hr
  | pending, unstaged, h :: hunks, hstop, hsort, hp, r, hr => by
      have heq := hunkEnd_eq (hstop h (mem_cons_self ..))
      have hstop' : ∀ k ∈ hunks, _ := fun k hk => hstop k (mem_cons_of_mem _ hk)
      have hsort' := List.pairwise_cons.mp hsort
      have hp' : ∀ p ∈ pending.dropWhile fun p => p.buffer.stop < h.buffer.start,
          IsPending p.newStatus := fun p hm => hp p (dropWhile_subset _ hm)
      rw [hunksWithStatus] at hr
      simp only [heq] at hr
      split at hr
      · next status hst =>
        rcases List.mem_cons.mp hr with rfl | hr
        · refine .inl ?_
          unfold pendingStatus at hst
          split at hst
          · cases hst
          · next p hhead =>
            split at hst
            · simp only [Option.some.injEq] at hst
              subst hst
              exact hp' p (List.mem_of_mem_head? hhead)
            · cases hst
        · exact hunksWithStatus_status hstop' hsort'.2 hp' r hr
      · rcases List.mem_cons.mp hr with rfl | hr
        · exact .inr rfl
        · refine (hunksWithStatus_status hstop' hsort'.2 hp' r hr).imp_right fun hst => ?_
          -- the cursor has only passed hunks that end before this one
          have hm : r.toHunk ∈ hunks := by
            rw [← hunksWithStatus_map hstop']
            exact List.mem_map_of_mem hr
          have hle := hsort'.1 r.toHunk hm
          rw [hst, dropWhile_dropWhile]
          intro u hu
          simp only [decide_eq_true_eq] at hu ⊢
          omega

theorem dropWhile_head_cases (he : ExactFrom base text 0 0 unstaged) (s : Nat) :
    ((unstaged.dropWhile fun u => u.buffer.stop < s).head? = none ∧
        ∀ v ∈ unstaged, v.buffer.stop < s) ∨
      ∃ u ∈ unstaged, (unstaged.dropWhile fun u => u.buffer.stop < s).head? = some u ∧
        ∀ v ∈ unstaged, v.buffer.stop < s ∨ v = u ∨ u.buffer.stop < v.buffer.start := by
  have hsplit : unstaged = (unstaged.takeWhile fun u => u.buffer.stop < s) ++
      unstaged.dropWhile fun u => u.buffer.stop < s := List.takeWhile_append_dropWhile.symm
  have hlt : ∀ v ∈ unstaged.takeWhile fun u => u.buffer.stop < s, v.buffer.stop < s :=
    fun v hv => by simpa using mem_takeWhile_imp hv
  have hsorted := he.sorted.2
  cases hd : unstaged.dropWhile fun u => u.buffer.stop < s with
  | nil =>
    rw [hd, append_nil] at hsplit
    refine .inl ⟨rfl, fun v hv => hlt v ?_⟩
    rw [← hsplit]
    exact hv
  | cons u rest =>
    rw [hd] at hsplit
    refine .inr ⟨u, by rw [hsplit]; simp, rfl, fun v hv => ?_⟩
    rw [hsplit, pairwise_append] at hsorted
    rw [hsplit, mem_append, mem_cons] at hv
    rcases hv with hv | rfl | hv
    · exact .inl (hlt v hv)
    · exact .inr (.inl rfl)
    · exact .inr (.inr (rel_of_pairwise_cons hsorted.2.1 hv).1)

theorem untouched_of_noSecondaryHunk (hd : ExactDiff base text unstaged)
    (hs : secondaryStatusOf text h
      (unstaged.dropWhile fun u => u.buffer.stop < h.buffer.start).head? = .noSecondaryHunk) :
    ∀ v ∈ unstaged, v.buffer.stop < h.buffer.start ∨ h.buffer.stop < v.buffer.start := by
  rcases dropWhile_head_cases hd.exact h.buffer.start with ⟨-, hall⟩ | ⟨u, hu, hhead, hall⟩
  · exact fun v hv => .inl (hall v hv)
  · obtain ⟨hle, -, hstop, -, hne⟩ := hd.exact.valid u hu
    rw [hhead, secondaryStatusOf] at hs
    split at hs
    · next hcond =>
      -- a hunk of a diff is not empty on both sides
      have := eq_of_roundedPoint hstop (hd.stops u hu) (by omega) hcond.1.symm
      omega
    · split at hs
      · cases hs
      · split at hs
        · cases hs
        · next hlt =>
          intro v hv
          rcases hall v hv with hv | rfl | hv
          · exact .inl hv
          · exact .inr (by omega)
          · exact .inr (by omega)

theorem same_of_hasSecondaryHunk (hd : ExactDiff base text unstaged)
    (hl : h.buffer.stop ≤ text.length) (hle : h.buffer.start ≤ h.buffer.stop)
    (hs : secondaryStatusOf text h
      (unstaged.dropWhile fun u => u.buffer.stop < h.buffer.start).head? = .hasSecondaryHunk) :
    ∃ u ∈ unstaged, u.buffer = h.buffer := by
  rcases dropWhile_head_cases hd.exact h.buffer.start with ⟨hhead, -⟩ | ⟨u, hu, hhead, -⟩
  · rw [hhead] at hs
    cases hs
  · obtain ⟨hule, -, hustop, -⟩ := hd.exact.valid u hu
    rw [hhead, secondaryStatusOf] at hs
    split at hs
    · cases hs
    · split at hs
      · next hcond =>
        have h1 := pointAt_inj (by omega) (by omega) hcond.1
        have h2 := eq_of_roundedPoint hustop (hd.stops u hu) hl hcond.2
        refine ⟨u, hu, ?_⟩
        cases hub : u.buffer
        cases hhb : h.buffer
        simp_all
      · split at hs <;> cases hs

end

end SpkEditor.Staging
