import SpkEditor.Lib.Run
import Mathlib.Algebra.Order.BigOperators.Group.List
import Mathlib.Algebra.Order.Ring.Nat

/-!
# Merging lists

Several lists, one for each index, are merged by taking the head that comes before the
heads of all others, again and again. `before a b` says that `a` is taken before `b`.

A merge is a run: the lists are the state and each step is labelled with what is taken. A
step does not depend on how the head was found, only on which one it is, so a merge is
determined by the lists (`Merged.unique`).
-/

namespace SpkEditor

open List

variable {ι α : Type} [DecidableEq ι]

/-- **Take one element**: the head of one list that comes before every other head. -/
def Takes (before : α → α → Prop) (lists : ι → List α) (a : α) (lists' : ι → List α) : Prop :=
  ∃ i rest, lists i = a :: rest ∧ (∀ j ≠ i, ∀ b ∈ (lists j).head?, before a b) ∧
    lists' = Function.update lists i rest

/-- **All lists merged.** -/
def Merged (before : α → α → Prop) (lists : ι → List α) (out : List α) : Prop :=
  Run (Takes before) lists out fun _ => []

section

variable {before : α → α → Prop} {lists lists' lists'' : ι → List α} {a b : α} {out out' : List α}

theorem Takes.unique (hasymm : ∀ a b, before a b → ¬ before b a) (h : Takes before lists a lists')
    (h' : Takes before lists b lists'') : a = b ∧ lists' = lists'' := by
  obtain ⟨i, rest, hi, hbest, rfl⟩ := h
  obtain ⟨j, rest', hj, hbest', rfl⟩ := h'
  by_cases hij : i = j
  · subst hij
    obtain ⟨rfl, rfl⟩ := List.cons.inj (hi.symm.trans hj)
    exact ⟨rfl, rfl⟩
  · have h1 := hbest j (Ne.symm hij) b (by rw [hj]; rfl)
    have h2 := hbest' i hij a (by rw [hi]; rfl)
    exact absurd h2 (hasymm _ _ h1)

theorem Takes.not_empty (h : Takes before lists a lists') : lists ≠ fun _ => [] := by
  rintro rfl
  obtain ⟨i, rest, hi, -⟩ := h
  cases hi

section

variable (hasymm : ∀ a b, before a b → ¬ before b a) (h : Merged before lists out)
include hasymm h

/-- **What has been taken is a beginning of the merge**, and what is left merges to the rest. -/
theorem Merged.split (h' : Run (Takes before) lists out' lists') :
    ∃ rest, out = out' ++ rest ∧ Merged before lists' rest := by
  induction h' generalizing out with
  | nil => exact ⟨out, rfl, h⟩
  | @cons lists l₁ lists' a out' hs hrun ih =>
    cases h with
    | nil => exact absurd rfl hs.not_empty
    | @cons _ l₂ _ b out hs' hrun' =>
      obtain ⟨rfl, rfl⟩ := hs.unique hasymm hs'
      obtain ⟨rest, rfl, hrest⟩ := ih hrun'
      exact ⟨rest, rfl, hrest⟩

theorem Merged.unique (h' : Merged before lists out') : out = out' := by
  obtain ⟨rest, rfl, hrest⟩ := h.split hasymm h'
  cases hrest with
  | nil => simp
  | cons hs _ => exact absurd rfl hs.not_empty

end

/-- **Each list keeps its order, and nothing is lost or repeated**: the elements of one list
are found in the merge as they stand in the list. -/
theorem Run.filter_owner {owner : α → ι} (h : Run (Takes before) lists out lists')
    (howner : ∀ i, ∀ a ∈ lists i, owner a = i) (i : ι) :
    lists i = out.filter (fun a => owner a = i) ++ lists' i := by
  induction h with
  | nil => rfl
  | @cons lists l₁ lists' a out hs hrun ih =>
    obtain ⟨j, rest, hj, -, rfl⟩ := hs
    have haj : owner a = j := howner j a (by rw [hj]; simp)
    have hrest := ih (fun k b hb => by
      by_cases hk : k = j
      · subst hk
        rw [Function.update_self] at hb
        exact howner k b (by rw [hj]; simp [hb])
      · rw [Function.update_of_ne hk] at hb
        exact howner k b hb)
    by_cases hi : i = j
    · subst hi
      rw [Function.update_self] at hrest
      rw [hj, filter_cons_of_pos (by simp [haj]), hrest]
      rfl
    · rw [Function.update_of_ne hi] at hrest
      rw [filter_cons_of_neg (by simp [haj, Ne.symm hi]), hrest]

theorem Merged.filter_owner {owner : α → ι} (h : Merged before lists out)
    (howner : ∀ i, ∀ a ∈ lists i, owner a = i) (i : ι) :
    out.filter (fun a => owner a = i) = lists i := by
  rw [Run.filter_owner h howner i, append_nil]

theorem exists_best (htrans : ∀ a b c, before a b → before b c → before a c) :
    ∀ (indices : List ι), indices.Nodup →
      (∀ i j, i ≠ j → ∀ a ∈ lists i, ∀ b ∈ lists j, before a b ∨ before b a) →
      (∃ i ∈ indices, lists i ≠ []) →
      ∃ i ∈ indices, ∃ a rest, lists i = a :: rest ∧
        ∀ j ∈ indices, j ≠ i → ∀ b ∈ (lists j).head?, before a b
  | [], _, _, ⟨_, hi, _⟩ => absurd hi (not_mem_nil)
  | k :: indices, hnd, htotal, hne => by
      rw [nodup_cons] at hnd
      by_cases hsome : ∃ i ∈ indices, lists i ≠ []
      · obtain ⟨i, hi, a, rest, hia, hbest⟩ := exists_best htrans indices hnd.2 htotal hsome
        have hki : k ≠ i := fun heq => hnd.1 (heq ▸ hi)
        have hai : a ∈ lists i := by rw [hia]; simp
        cases hk : lists k with
        | nil =>
          refine ⟨i, mem_cons_of_mem _ hi, a, rest, hia, fun j hj hji => ?_⟩
          rcases List.mem_cons.mp hj with rfl | hj
          · rw [hk]; simp
          · exact hbest j hj hji
        | cons c cs =>
          have hck : c ∈ lists k := by rw [hk]; simp
          rcases htotal k i hki c hck a hai with hca | hac
          · -- the new head comes before the best one, so before all
            refine ⟨k, by simp, c, cs, hk, fun j hj hjk b hb => ?_⟩
            have hj := (List.mem_cons.mp hj).resolve_left hjk
            by_cases hji : j = i
            · rw [hji, hia, List.head?_cons, Option.mem_some_iff] at hb
              exact hb ▸ hca
            · exact htrans _ _ _ hca (hbest j hj hji b hb)
          · refine ⟨i, mem_cons_of_mem _ hi, a, rest, hia, fun j hj hji b hb => ?_⟩
            rcases List.mem_cons.mp hj with rfl | hj
            · rw [hk, List.head?_cons, Option.mem_some_iff] at hb
              exact hb ▸ hac
            · exact hbest j hj hji b hb
      · -- every other list is empty
        have hempty : ∀ j ∈ indices, lists j = [] := fun j hj =>
          Classical.byContradiction fun hne => hsome ⟨j, hj, hne⟩
        obtain ⟨i, hi, hne⟩ := hne
        have hik : i = k := (List.mem_cons.mp hi).resolve_right fun hi => hne (hempty i hi)
        obtain ⟨a, rest, hia⟩ := exists_cons_of_ne_nil hne
        refine ⟨i, hi, a, rest, hia, fun j hj hji => ?_⟩
        rw [hempty j ((List.mem_cons.mp hj).resolve_left (hik ▸ hji))]
        simp

/-- **Finitely many lists can be merged** if elements of different lists are in order. The
induction is on the number of elements left. -/
theorem exists_merged (htrans : ∀ a b c, before a b → before b c → before a c) {indices : List ι}
    (hnd : indices.Nodup) : ∀ (n : Nat) {lists : ι → List α},
      (∀ i ∉ indices, lists i = []) →
      (∀ i j, i ≠ j → ∀ a ∈ lists i, ∀ b ∈ lists j, before a b ∨ before b a) →
      (indices.map fun i => (lists i).length).sum = n → ∃ out, Merged before lists out
  | n, lists, hnone, htotal, hn => by
      by_cases hsome : ∃ i ∈ indices, lists i ≠ []
      · obtain ⟨i, hi, a, rest, hia, hbest⟩ := exists_best htrans indices hnd htotal hsome
        have htake : Takes before lists a (Function.update lists i rest) := by
          refine ⟨i, rest, hia, fun j hji b hb => ?_, rfl⟩
          by_cases hj : j ∈ indices
          · exact hbest j hj hji b hb
          · rw [hnone j hj] at hb
            cases hb
        have hsub : ∀ j, ∀ b ∈ Function.update lists i rest j, b ∈ lists j := by
          intro j b hb
          by_cases hji : j = i
          · subst hji
            rw [Function.update_self] at hb
            rw [hia]
            exact mem_cons_of_mem _ hb
          · rwa [Function.update_of_ne hji] at hb
        have hless : (indices.map fun j => (Function.update lists i rest j).length).sum < n := by
          rw [← hn]
          refine sum_lt_sum _ _ (fun j _ => ?_) ⟨i, hi, ?_⟩
          · by_cases hji : j = i
            · subst hji
              rw [Function.update_self, hia]
              exact Nat.le_succ _
            · rw [Function.update_of_ne hji]
          · rw [Function.update_self, hia]
            exact Nat.lt_succ_self _
        obtain ⟨out, hout⟩ := @exists_merged htrans _ hnd _ (Function.update lists i rest)
          (fun j hj => by
            have hji : j ≠ i := fun heq => hj (heq ▸ hi)
            rw [Function.update_of_ne hji]
            exact hnone j hj)
          (fun j k hjk b hb c hc => htotal j k hjk b (hsub j b hb) c (hsub k c hc)) rfl
        exact ⟨a :: out, .cons htake hout⟩
      · refine ⟨[], ?_⟩
        have : lists = fun _ => [] := by
          funext i
          by_cases hi : i ∈ indices
          · exact Classical.byContradiction fun hne => hsome ⟨i, hi, hne⟩
          · exact hnone i hi
        rw [this]
        exact .nil
  termination_by n => n

end

end SpkEditor
