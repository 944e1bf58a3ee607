import SpkEditor.Diff.LineDiffProof

/-!
# Line operations rebuild the new text

`line_operations` walks both sets of marked rows side by side. As long as the rows left
over read the same, every step it takes is one that both texts allow, and what it writes
rebuilds the new text (`lineOperationsFrom_spec`).
-/

namespace SpkEditor

open Rows List Option

/-! ## Carrying out operations one by one -/

theorem applyLineOperations_append : ∀ (ops ops' : List LineOperation) (os ns : List (List Char)),
    applyLineOperations (ops ++ ops') os ns = (applyLineOperations ops os ns).bind fun r =>
        (applyLineOperations ops' r.2.1 r.2.2).map fun r' => (r.1 ++ r'.1, r'.2)
  | [], ops', os, ns => by simp [applyLineOperations]
  | .keep lines :: ops, ops', os, ns => by
      rw [cons_append, applyLineOperations, applyLineOperations]
      split
      · rw [applyLineOperations_append ops ops']
        simp [Option.map_bind, bind_map, Function.comp_def]
      · rfl
  | .delete lines :: ops, ops', os, ns => by
      rw [cons_append, applyLineOperations, applyLineOperations]
      split
      · rw [applyLineOperations_append ops ops']
      · rfl
  | .insert lines :: ops, ops', os, ns => by
      rw [cons_append, applyLineOperations, applyLineOperations]
      split
      · rw [applyLineOperations_append ops ops']
        simp [Option.map_bind, bind_map, Function.comp_def]
      · rfl

namespace LineDiff

variable {ops : List LineOperation} {os₀ ns₀ res os ns : List (List Char)}

theorem apply_snoc (op : LineOperation) {r : List (List Char) × List (List Char) × List (List Char)}
    (h : applyLineOperations ops.reverse os₀ ns₀ = some (res, os, ns))
    (hop : applyLineOperations [op] os ns = some r) :
    applyLineOperations (op :: ops).reverse os₀ ns₀ = some (res ++ r.1, r.2) := by
  rw [reverse_cons, applyLineOperations_append, h, bind_some, hop]
  rfl

theorem apply_keep {lines : Nat} (h : applyLineOperations ops.reverse os₀ ns₀ = some (res, os, ns))
    (hos : lines ≤ os.length) (hns : lines ≤ ns.length) :
    applyLineOperations (.keep lines :: ops).reverse os₀ ns₀ =
      some (res ++ os.take lines, os.drop lines, ns.drop lines) :=
  apply_snoc (.keep lines) (r := (os.take lines, os.drop lines, ns.drop lines)) h (by simp [applyLineOperations, hos, hns])

theorem apply_delete {o : List Char} (h : applyLineOperations ops.reverse os₀ ns₀ = some (res, o :: os, ns)) :
    applyLineOperations (pushDelete ops).reverse os₀ ns₀ = some (res, os, ns) := by
  unfold pushDelete
  split
  · rename_i lines ops
    rw [reverse_cons, applyLineOperations_append, bind_eq_some_iff] at h
    obtain ⟨⟨res₁, os₁, ns₁⟩, hprev, hlast⟩ := h
    have hdel : applyLineOperations [.delete (lines + 1)] os₁ ns₁ = some ([], os, ns) := by
      obtain ⟨hlen, hdrop, rfl⟩ : lines ≤ os₁.length ∧ os₁.drop lines = o :: os ∧ ns₁ = ns := by
        simp only [applyLineOperations] at hlast
        split at hlast
        · simp at hlast
          exact ⟨‹_›, hlast.2.1, hlast.2.2⟩
        · simp at hlast
      have hlong : lines + 1 ≤ os₁.length := by
        have := congrArg List.length hdrop
        rw [length_drop, length_cons] at this
        omega
      have htail : os₁.drop (lines + 1) = os := by rw [← drop_drop, hdrop, drop_one, tail_cons]
      simp [applyLineOperations, hlong, htail]
    have hres : res = res₁ := by
      simp only [applyLineOperations] at hlast
      split at hlast
      · simp at hlast
        exact hlast.1.symm
      · simp at hlast
    rw [apply_snoc _ hprev hdel, hres, append_nil]
  · have := apply_snoc (.delete 1) (r := ([], os, ns)) h (by simp [applyLineOperations])
    rwa [append_nil] at this

theorem apply_insert {n : List Char} (h : applyLineOperations ops.reverse os₀ ns₀ = some (res, os, n :: ns)) :
    applyLineOperations (pushInsert ops).reverse os₀ ns₀ = some (res ++ [n], os, ns) := by
  unfold pushInsert
  split
  · rename_i lines ops
    rw [reverse_cons, applyLineOperations_append, bind_eq_some_iff] at h
    obtain ⟨⟨res₁, os₁, ns₁⟩, hprev, hlast⟩ := h
    obtain ⟨hlen, hdrop, rfl, hres⟩ : lines ≤ ns₁.length ∧ ns₁.drop lines = n :: ns ∧ os₁ = os ∧
        res₁ ++ ns₁.take lines = res := by
      simp only [applyLineOperations] at hlast
      split at hlast
      · simp at hlast
        exact ⟨‹_›, hlast.2.2, hlast.2.1, hlast.1⟩
      · simp at hlast
    have hlong : lines + 1 ≤ ns₁.length := by
      have := congrArg List.length hdrop
      rw [length_drop, length_cons] at this
      omega
    have htail : ns₁.drop (lines + 1) = ns := by rw [← drop_drop, hdrop, drop_one, tail_cons]
    have htake : ns₁.take (lines + 1) = ns₁.take lines ++ [n] := by
      rw [take_add, hdrop]
      rfl
    have hins : applyLineOperations [.insert (lines + 1)] os₁ ns₁ = some (ns₁.take lines ++ [n], os₁, ns) := by
      simp [applyLineOperations, hlong, htail, htake]
    rw [apply_snoc _ hprev hins, ← hres, append_assoc]
  · exact apply_snoc (.insert 1) (r := ([n], os, ns)) h (by simp [applyLineOperations])

/-! ## Marks still to come -/

/-- The marks of a set that are still to come, in order. -/
structure Pending (M : Finset Nat) (marks : List Nat) (row : Nat) : Prop where
  sorted : marks.Pairwise (· < ·)
  mem : ∀ k, k ∈ marks ↔ k ∈ M ∧ row ≤ k

namespace Pending

variable {M : Finset Nat} {marks : List Nat} {row : Nat}

theorem sort (M : Finset Nat) : Pending M M.sort 0 :=
  ⟨M.sortedLT_sort.pairwise, fun k => by simp⟩

section

variable (h : Pending M marks row)
include h

theorem tail (hhead : marks.head? = some row) : row ∈ M ∧ Pending M marks.tail (row + 1) := by
  obtain ⟨rest, rfl⟩ := List.head?_eq_some_iff.1 hhead
  have hsorted := List.pairwise_cons.1 h.sorted
  refine ⟨((h.mem row).1 mem_cons_self).1, hsorted.2, fun k => ?_⟩
  constructor
  · intro hk
    exact ⟨((h.mem k).1 (mem_cons_of_mem _ hk)).1, hsorted.1 k hk⟩
  · intro hk
    rcases List.mem_cons.1 ((h.mem k).2 ⟨hk.1, by omega⟩) with rfl | hk'
    · omega
    · exact hk'

theorem not_mem (last : Nat) {k : Nat} (hk : row ≤ k)
    (hnext : k < marks.head?.getD last) : k ∉ M := by
  intro hmem
  have hin := (h.mem k).2 ⟨hmem, hk⟩
  cases marks with
  | nil => simp at hin
  | cons m marks =>
    rw [List.head?_cons, getD_some] at hnext
    rcases List.mem_cons.1 hin with rfl | hin
    · omega
    · have := (List.pairwise_cons.1 h.sorted).1 k hin
      omega

theorem skip {last row' : Nat} (hle : row ≤ row')
    (hnext : row' ≤ marks.head?.getD last) : Pending M marks row' := by
  refine ⟨h.sorted, fun k => ⟨fun hk => ⟨((h.mem k).1 hk).1, ?_⟩, fun hk => (h.mem k).2 ⟨hk.1, by omega⟩⟩⟩
  by_contra hlt
  exact h.not_mem last ((h.mem k).1 hk).2 (by omega) ((h.mem k).1 hk).1

theorem next_bounds {last : Nat} (hM : ∀ r ∈ M, r < last) (hrow : row ≤ last) :
    row ≤ marks.head?.getD last ∧ marks.head?.getD last ≤ last := by
  cases marks with
  | nil => exact ⟨hrow, le_refl _⟩
  | cons m marks =>
    obtain ⟨hmem, hle⟩ := (h.mem m).1 mem_cons_self
    exact ⟨hle, le_of_lt (hM m hmem)⟩

end

variable {β : Type} {rs : List β}

theorem unmarked_take (h : Pending M marks row) {last k : Nat} (hM : ∀ r ∈ M, r < last)
    (hrs : row + rs.length = last) (hk : row + k ≤ marks.head?.getD last) :
    k ≤ rs.length ∧ unmarked M row rs = rs.take k ++ unmarked M (row + k) (rs.drop k) := by
  have hnext := (h.next_bounds hM (by omega)).2
  have hlen : k ≤ rs.length := by omega
  refine ⟨hlen, ?_⟩
  conv_lhs => rw [← take_append_drop k rs, unmarked_append, length_take, min_eq_left hlen]
  refine congrArg (· ++ _) (unmarked_eq_self fun j hj hlt => h.not_mem last hj ?_)
  rw [length_take, min_eq_left hlen] at hlt
  omega

theorem lt_next_iff (h : Pending M marks row) {last : Nat} (hM : ∀ r ∈ M, r < last)
    (hrs : row + rs.length = last) (hhead : marks.head? ≠ some row) :
    row < marks.head?.getD last ↔ unmarked M row rs ≠ [] := by
  constructor
  · intro hlt
    obtain ⟨hlen, heq⟩ := h.unmarked_take (k := 1) hM hrs hlt
    cases rs with
    | nil => simp at hlen
    | cons r rs =>
      rw [heq]
      simp
  · intro hne
    have hle := (h.next_bounds hM (by omega)).1
    cases marks with
    | nil =>
      cases rs with
      | nil => exact absurd rfl hne
      | cons r rs =>
        rw [length_cons] at hrs
        rw [List.head?_nil, getD_none]
        omega
    | cons m marks =>
      have hm : m ≠ row := by simpa using hhead
      rw [List.head?_cons, getD_some] at hle ⊢
      omega

end Pending

variable {d : LineDiff} {D I : Finset Nat} {deleted inserted : List Nat} {oldRow newRow : Nat}

/-- The rows both texts still have to go through. -/
structure Walk (d : LineDiff) (D I : Finset Nat) (deleted inserted : List Nat) (oldRow newRow : Nat)
    (os ns : List (List Char)) : Prop where
  deleted : Pending D deleted oldRow
  inserted : Pending I inserted newRow
  deleted_lt : ∀ r ∈ D, r < d.oldEnd.row + 1
  inserted_lt : ∀ r ∈ I, r < d.newEnd.row + 1
  old : oldRow + os.length = d.oldEnd.row + 1
  new : newRow + ns.length = d.newEnd.row + 1
  leftover : unmarked D oldRow os = unmarked I newRow ns

namespace Walk

section

variable (h : Walk d D I deleted inserted oldRow newRow os ns)
include h

theorem delete (hhead : deleted.head? = some oldRow) :
    ∃ o os', os = o :: os' ∧ Walk d D I deleted.tail inserted (oldRow + 1) newRow os' ns := by
  obtain ⟨hmem, htail⟩ := h.deleted.tail hhead
  have hlt := h.deleted_lt _ hmem
  have hold := h.old
  cases os with
  | nil =>
    rw [length_nil] at hold
    omega
  | cons o os' =>
    rw [length_cons] at hold
    have hleft := h.leftover
    rw [unmarked, if_pos hmem] at hleft
    exact ⟨o, os', rfl, htail, h.inserted, h.deleted_lt, h.inserted_lt, by omega, h.new, hleft⟩

theorem insert (hhead : inserted.head? = some newRow) :
    ∃ n ns', ns = n :: ns' ∧ Walk d D I deleted inserted.tail oldRow (newRow + 1) os ns' := by
  obtain ⟨hmem, htail⟩ := h.inserted.tail hhead
  have hlt := h.inserted_lt _ hmem
  have hnew := h.new
  cases ns with
  | nil =>
    rw [length_nil] at hnew
    omega
  | cons n ns' =>
    rw [length_cons] at hnew
    have hleft := h.leftover
    conv_rhs at hleft => rw [unmarked, if_pos hmem]
    exact ⟨n, ns', rfl, h.deleted, htail, h.deleted_lt, h.inserted_lt, h.old, by omega, hleft⟩

end

theorem done (h : Walk d D I [] [] oldRow newRow os ns) : os = ns := by
  have hleft := h.leftover
  rw [unmarked_eq_self, unmarked_eq_self] at hleft
  · exact hleft
  · intro k hk _
    refine h.inserted.not_mem (k + 1) hk ?_
    simp
  · intro k hk _
    refine h.deleted.not_mem (k + 1) hk ?_
    simp

theorem keep (h : Walk d D I deleted inserted oldRow newRow os ns)
    (hmarks : ¬ (deleted = [] ∧ inserted = [])) (hdel : deleted.head? ≠ some oldRow)
    (hins : inserted.head? ≠ some newRow) {kept : Nat}
    (hkept : kept = max 1 (min (deleted.head?.getD (d.oldEnd.row + 1) - oldRow)
      (inserted.head?.getD (d.newEnd.row + 1) - newRow))) :
    newRow ≤ inserted.head?.getD (d.newEnd.row + 1) ∧ oldRow ≤ deleted.head?.getD (d.oldEnd.row + 1) ∧
      kept ≤ os.length ∧ kept ≤ ns.length ∧ os.take kept = ns.take kept ∧
      Walk d D I deleted inserted (oldRow + kept) (newRow + kept) (os.drop kept) (ns.drop kept) := by
  have hnew := h.inserted.next_bounds h.inserted_lt (by have := h.new; omega)
  have hold := h.deleted.next_bounds h.deleted_lt (by have := h.old; omega)
  -- Rows are left over on one side, so they are on the other.
  have hleft := h.leftover
  have hold_iff := h.deleted.lt_next_iff h.deleted_lt h.old hdel
  have hnew_iff := h.inserted.lt_next_iff h.inserted_lt h.new hins
  rw [hleft] at hold_iff
  have hsame := hold_iff.trans hnew_iff.symm
  have hone : oldRow < deleted.head?.getD (d.oldEnd.row + 1) ∨ newRow < inserted.head?.getD (d.newEnd.row + 1) := by
    cases hd : deleted.head? with
    | some m =>
      rw [hd, getD_some] at hold
      have hm : m ≠ oldRow := fun hm => hdel (by rw [hd, hm])
      exact .inl (by rw [getD_some]; omega)
    | none =>
      cases hi : inserted.head? with
      | some m =>
        rw [hi, getD_some] at hnew
        have hm : m ≠ newRow := fun hm => hins (by rw [hi, hm])
        exact .inr (by rw [getD_some]; omega)
      | none => exact absurd ⟨List.head?_eq_none_iff.1 hd, List.head?_eq_none_iff.1 hi⟩ hmarks
  obtain ⟨hlt_old, hlt_new⟩ : oldRow < deleted.head?.getD (d.oldEnd.row + 1) ∧
      newRow < inserted.head?.getD (d.newEnd.row + 1) := by
    rcases hone with hlt | hlt
    · exact ⟨hlt, hsame.1 hlt⟩
    · exact ⟨hsame.2 hlt, hlt⟩
  have hko : oldRow + kept ≤ deleted.head?.getD (d.oldEnd.row + 1) := by omega
  have hkn : newRow + kept ≤ inserted.head?.getD (d.newEnd.row + 1) := by omega
  obtain ⟨hos, hos'⟩ := h.deleted.unmarked_take h.deleted_lt h.old hko
  obtain ⟨hns, hns'⟩ := h.inserted.unmarked_take h.inserted_lt h.new hkn
  rw [hos', hns'] at hleft
  obtain ⟨htake, hdrop⟩ := append_inj hleft
    (by rw [length_take, length_take, min_eq_left hos, min_eq_left hns])
  refine ⟨hnew.1, hold.1, hos, hns, htake, ?_⟩
  have hlo := h.old
  have hln := h.new
  exact ⟨h.deleted.skip (Nat.le_add_right _ _) hko, h.inserted.skip (Nat.le_add_right _ _) hkn, h.deleted_lt,
    h.inserted_lt, by rw [length_drop]; omega, by rw [length_drop]; omega, hdrop⟩

end Walk

/-- The loop of `line_operations` takes only steps that both texts allow, and what it leaves of
them is the same. -/
theorem lineOperationsFrom_spec (h : Walk d D I deleted inserted oldRow newRow os ns)
    (hops : applyLineOperations ops.reverse os₀ ns₀ = some (res, os, ns)) :
    ∃ oldRow' ops' res' rest, d.lineOperationsFrom deleted inserted oldRow newRow ops = some (oldRow', ops') ∧
      applyLineOperations ops'.reverse os₀ ns₀ = some (res', rest, rest) ∧
      oldRow' + rest.length = d.oldEnd.row + 1 ∧ res' ++ rest = res ++ ns := by
  fun_induction lineOperationsFrom d deleted inserted oldRow newRow ops generalizing os ns res with
  | case1 deleted inserted oldRow newRow ops hnil =>
    obtain ⟨rfl, rfl⟩ := hnil
    have heq := h.done
    subst heq
    exact ⟨oldRow, ops, res, os, rfl, hops, h.old, rfl⟩
  | case2 deleted inserted oldRow newRow ops hmarks hhead ih =>
    obtain ⟨o, os', rfl, hwalk⟩ := h.delete hhead
    exact ih hwalk (apply_delete hops)
  | case3 deleted inserted oldRow newRow ops hmarks hdel hhead ih =>
    obtain ⟨n, ns', rfl, hwalk⟩ := h.insert hhead
    obtain ⟨oldRow', ops', res', rest, hrun, happly, hlen, hres⟩ := ih hwalk (apply_insert hops)
    exact ⟨oldRow', ops', res', rest, hrun, happly, hlen, by rw [hres]; simp⟩
  | case4 =>
    rename_i hmarks hdel hins nextInserted nextDeleted hle kept ih
    obtain ⟨_, _, hos, hns, htake, hwalk⟩ := h.keep hmarks hdel hins rfl
    obtain ⟨oldRow', ops', res', rest, hrun, happly, hlen, hres⟩ := ih hwalk (apply_keep hops hos hns)
    refine ⟨oldRow', ops', res', rest, hrun, happly, hlen, ?_⟩
    rw [hres, htake, append_assoc, take_append_drop]
  | case5 =>
    rename_i hmarks hdel hins nextInserted nextDeleted hle
    obtain ⟨hnew, hold, _⟩ := h.keep hmarks hdel hins rfl
    exact absurd ⟨hnew, hold⟩ hle

/-- **Rows left over give back the new text.** Where the rows left over on both sides are the
same, line operations exist, use up the lines of both texts and make those of the new one. -/
theorem lineOperations_rebuild {newline : Bool} {old post new : List Char}
    (hold : d.oldEnd = linesOf old) (hnew : d.newEnd = linesOf new)
    (h : Aligned newline d.deletedRows d.insertedRows old post new) :
    ∃ ops, d.lineOperations = some ops ∧
      applyLineOperations ops (old.splitOn '\n') (new.splitOn '\n') = some (new.splitOn '\n', [], []) := by
  have hwalk : Walk d d.deletedRows d.insertedRows d.deletedRows.sort d.insertedRows.sort 0 0
      (old.splitOn '\n') (new.splitOn '\n') := by
    refine ⟨.sort _, .sort _, ?_, ?_, ?_, ?_, h.leftover⟩
    · intro r hr
      rw [hold, linesOf_row]
      exact Nat.lt_succ_of_le (h.deleted_le r hr)
    · intro r hr
      rw [hnew, linesOf_row]
      exact Nat.lt_succ_of_le (h.inserted_le r hr)
    · rw [hold, linesOf_row, length_splitOn, zero_add]
    · rw [hnew, linesOf_row, length_splitOn, zero_add]
  obtain ⟨oldRow, ops, res, rest, hloop, happly, hlen, hres⟩ :=
    @lineOperationsFrom_spec [] _ _ [] _ _ _ _ _ _ _ _ _ hwalk rfl
  unfold lineOperations
  rw [hloop]
  refine ⟨_, rfl, ?_⟩
  rw [nil_append] at hres
  by_cases hrest : oldRow < d.oldEnd.row + 1
  · have hkeep : d.oldEnd.row + 1 - oldRow = rest.length := by omega
    rw [if_pos hrest, hkeep, apply_keep happly (le_refl _) (le_refl _), take_length,
      drop_length, hres]
  · have hnil : rest = [] := List.length_eq_zero_iff.1 (by omega)
    rw [if_neg hrest, happly, hnil]
    rw [hnil, append_nil] at hres
    rw [hres]

/-! ## The line diff as a whole -/

/-- The line operations for character operations: all of them pushed, then `finish`. -/
def charOpsToLineOps (old : Rope) (ops : List CharOperation) : Option (List LineOperation) := do
  let d ← pushCharOperations old start ops
  let d ← d.finish old
  d.lineOperations

/-- Line operations use up all lines of both texts, and put together what they make the new
one. -/
def Rebuilds (old new : List Char) (ops : List LineOperation) : Prop :=
  ∃ lines, applyLineOperations ops (old.splitOn '\n') (new.splitOn '\n') = some (lines, [], []) ∧
    ['\n'].intercalate lines = new

end LineDiff

/-- **Where every flush is good, the line diff agrees with the character diff.** For every old
text, cut into chunks in any way, and every sequence of character operations that keeps to it:
if no flush takes a branch that the rows it finds do not allow, then nothing goes below zero,
and the line operations rebuild the text that the character operations make. -/
theorem line_diff_rebuilds (old : Rope) (ops : List CharOperation) {made rest : List Char}
    (hvalid : applyOperations ops old.text = some (made, rest)) (hok : LineDiff.start.RunOk old ops) :
    ∃ lineOps, LineDiff.charOpsToLineOps old ops = some lineOps ∧
      LineDiff.Rebuilds old.text (made ++ rest) lineOps := by
  obtain ⟨d, pre, w, new, hpush, hfin, htracks⟩ := (LineDiff.Tracks.start old).run ops hok hvalid
  obtain ⟨d', newline, hfinish, hold, hnew, haligned⟩ := htracks.finish hfin
  obtain ⟨lineOps, hops, happly⟩ := LineDiff.lineOperations_rebuild hold hnew haligned
  refine ⟨lineOps, ?_, _, happly, intercalate_splitOn _⟩
  unfold LineDiff.charOpsToLineOps
  rw [hpush]
  dsimp only [bind_eq_bind, bind_some]
  rw [hfinish]
  exact hops

/-- A line replaced by another one, in a text of two chunks. -/
theorem line_diff_rebuilds_replaced : applyOperations [.keep 2, .delete 1, .insert ['x'], .keep 2]
        (Rope.text ⟨[['a', '\n', 'b'], ['\n', 'c']]⟩) =
      some (['a', '\n', 'x', '\n', 'c'], []) ∧
    ∃ lineOps, LineDiff.charOpsToLineOps ⟨[['a', '\n', 'b'], ['\n', 'c']]⟩
        [.keep 2, .delete 1, .insert ['x'], .keep 2] = some lineOps ∧
      LineDiff.Rebuilds (Rope.text ⟨[['a', '\n', 'b'], ['\n', 'c']]⟩) ['a', '\n', 'x', '\n', 'c'] lineOps :=
  ⟨by decide, @line_diff_rebuilds ⟨[['a', '\n', 'b'], ['\n', 'c']]⟩ [.keep 2, .delete 1, .insert ['x'], .keep 2]
    ['a', '\n', 'x', '\n', 'c'] [] (by decide) (by decide +kernel)⟩

/-- A newline is deleted and a character inserted. The deletion runs from the end of a line to
the end of a line, so that only the row it ends in is marked; the insertion then marks that row
again, and the new row. The row left over in the old text has nothing to stand for. -/
theorem line_diff_insert_after_delete :
    applyOperations [.delete 1, .insert ['a']] (Rope.text ⟨[['\n']]⟩) = some (['a'], []) ∧
    ¬ ∃ lineOps, LineDiff.charOpsToLineOps ⟨[['\n']]⟩ [.delete 1, .insert ['a']] = some lineOps ∧
      LineDiff.Rebuilds (Rope.text ⟨[['\n']]⟩) ['a'] lineOps := by
  refine ⟨by decide, ?_⟩
  rintro ⟨lineOps, hops, lines, happly, -⟩
  have hrun : LineDiff.charOpsToLineOps ⟨[['\n']]⟩ [.delete 1, .insert ['a']] =
      some [.insert 1, .keep 1, .delete 1] := by decide +kernel
  obtain rfl := some.inj (hrun.symm.trans hops)
  have hstuck : applyLineOperations [.insert 1, .keep 1, .delete 1]
      ((Rope.text ⟨[['\n']]⟩).splitOn '\n') (['a'].splitOn '\n') = none := by decide
  exact some_ne_none _ happly.symm

end SpkEditor
