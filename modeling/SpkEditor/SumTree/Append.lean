import SpkEditor.SumTree.Wf
import Mathlib.Algebra.Order.Ring.Nat

/-!
# Appending trees

Appending one well-formed tree to another never runs over a capacity, and gives a
well-formed tree that holds the items of both (`append_spec`). The taller tree keeps its
height, and what does not fit into it comes back as a tree of the same height, on the
right (`Split`) when the left tree is taller, and on the left (`Spill`) when the right
one is.
-/

namespace SpkEditor

open List Option

namespace SumTree

variable {T S : Type} [Summary S] [Item T S]

theorem fits_of_le {α : Type} {l : List α} (h : l.length ≤ 2 * TREE_BASE) : fits l = some l := if_pos h

/-- A tree of height `h`, and possibly one more to the right of it, that hold `l` together. -/
structure Split (h : Nat) (l : List T) (r : SumTree T S × Option (SumTree T S)) : Prop where
  left : Wf h r.1
  right : ∀ u ∈ r.2, Wf h u
  flat_eq : r.1.flat ++ flatAll r.2.toList = l

/-- A tree of height `h`, and possibly one more to the left of it, that hold `l` together. -/
structure Spill (h : Nat) (l : List T) (r : Option (SumTree T S) × SumTree T S) : Prop where
  left : ∀ u ∈ r.1, Wf h u
  right : Wf h r.2
  flat_eq : flatAll r.1.toList ++ r.2.flat = l

variable [LawfulSummary S] {h k : Nat}

section

variable {n : Nat} (hlo : 2 * TREE_BASE < n) (hhi : n ≤ 4 * TREE_BASE)
include hlo hhi

theorem mid_bounds : 0 < (n + n % 2) / 2 ∧ (n + n % 2) / 2 < n ∧ (n + n % 2) / 2 ≤ 2 * TREE_BASE ∧
      n - (n + n % 2) / 2 ≤ 2 * TREE_BASE := by
  unfold TREE_BASE at *
  omega

theorem ceil_bounds :
    0 < (n + 1) / 2 ∧ (n + 1) / 2 < n ∧ (n + 1) / 2 ≤ 2 * TREE_BASE ∧ n - (n + 1) / 2 ≤ 2 * TREE_BASE := by
  unfold TREE_BASE at *
  omega

end

theorem node_take_drop {ts : List (SumTree T S)} {n m : Nat} (hn : ts.length = n)
    (hm : 0 < m ∧ m < n ∧ m ≤ 2 * TREE_BASE ∧ n - m ≤ 2 * TREE_BASE) (hwf : ∀ t ∈ ts, Wf h t) :
    Wf (h + 1) (.internal (h + 1) (sum ((ts.map summary).take m)) ((ts.map summary).take m) (ts.take m)) ∧
    Wf (h + 1) (.internal (h + 1) (sum ((ts.map summary).drop m)) ((ts.map summary).drop m) (ts.drop m)) := by
  rw [← map_take, ← map_drop]
  refine ⟨Wf.node ?_ ?_ fun t ht => hwf t (mem_of_mem_take ht),
    Wf.node ?_ ?_ fun t ht => hwf t (mem_of_mem_drop ht)⟩
  · intro h0
    have := congrArg List.length h0
    rw [length_take, length_nil] at this
    omega
  · rw [length_take]
    omega
  · intro h0
    have := congrArg List.length h0
    rw [length_drop, length_nil] at this
    omega
  · rw [length_drop]
    omega

omit [LawfulSummary S] in
theorem leaf_take_drop {is : List T} {n m : Nat} (hn : is.length = n)
    (hm : 0 < m ∧ m < n ∧ m ≤ 2 * TREE_BASE ∧ n - m ≤ 2 * TREE_BASE) :
    Wf 0 (.leaf (sum ((is.map Item.summary).take m)) (is.take m) ((is.map Item.summary).take m)) ∧
    Wf 0 (.leaf (sum ((is.map Item.summary).drop m)) (is.drop m) ((is.map Item.summary : List S).drop m)) := by
  rw [← map_take, ← map_drop]
  refine ⟨Wf.leaf ?_ ?_, Wf.leaf ?_ ?_⟩
  · intro h0
    have := congrArg List.length h0
    rw [length_take, length_nil] at this
    omega
  · rw [length_take]
    omega
  · intro h0
    have := congrArg List.length h0
    rw [length_drop, length_nil] at this
    omega
  · rw [length_drop]
    omega

/-! ## Onto the right of a taller tree -/

theorem appendChildren_spec {ts us : List (SumTree T S)} (hne : ts ≠ []) (hts : ts.length ≤ 2 * TREE_BASE)
    (hus : us.length ≤ 2 * TREE_BASE) (hwf : ∀ t ∈ ts ++ us, Wf h t) :
    ∃ r, appendChildren (h + 1) (sumOf (flatAll (ts ++ us))) (ts.map summary) ts (us.map summary) us = some r ∧
      Split (h + 1) (flatAll (ts ++ us)) r := by
  unfold appendChildren
  rw [fits_of_le (show (us.map summary).length ≤ _ by rwa [length_map]), fits_of_le hus]
  dsimp only [bind_eq_bind, bind_some, Option.pure_def]
  rw [← map_append]
  have hlen : (ts ++ us).length = ts.length + us.length := length_append
  by_cases hover : 2 * TREE_BASE < ts.length + us.length
  · rw [if_pos hover]
    have hm := mid_bounds hover (by omega)
    have hhalves := node_take_drop hlen hm hwf
    rw [fits_of_le, fits_of_le, fits_of_le, fits_of_le]
    · refine ⟨_, rfl, hhalves.1, ?_, ?_⟩
      · intro u hu
        cases hu
        exact hhalves.2
      · simp only [toList_some, flatAll_singleton, flat]
        rw [← flatAll_append, take_append_drop]
    all_goals simp only [length_take, length_drop, length_map, length_append]; omega
  · rw [if_neg hover, fits_of_le (by rw [length_map]; omega), fits_of_le (by omega)]
    refine ⟨_, rfl, .internal (append_ne_nil_of_left_ne_nil hne _) (by omega) hwf, by simp, ?_⟩
    simp only [toList_none, flat, flatAll, append_nil]

theorem appendItems_spec {is : List T} {u : SumTree T S} (hne : is ≠ []) (his : is.length ≤ 2 * TREE_BASE)
    (hu : Wf 0 u) :
    ∃ r, appendItems (sumOf is) is (is.map Item.summary) u = some r ∧ Split 0 (is ++ u.flat) r := by
  obtain ⟨hitems, hsums, hulen⟩ := hu.leafItems_eq
  unfold appendItems
  rw [hitems, hsums, ← map_append]
  dsimp only [bind_eq_bind, bind_some, Option.pure_def]
  have hlen : (is ++ u.flat).length = is.length + u.flat.length := length_append
  by_cases hover : 2 * TREE_BASE < is.length + u.flat.length
  · rw [if_pos hover]
    have hm := mid_bounds hover (by omega)
    have hhalves := @leaf_take_drop T S _ _ _ _ _ hlen hm
    rw [fits_of_le, fits_of_le, fits_of_le, fits_of_le]
    · refine ⟨_, rfl, hhalves.1, ?_, ?_⟩
      · intro v hv
        cases hv
        exact hhalves.2
      · simp only [toList_some, flatAll_singleton, flat]
        rw [take_append_drop]
    all_goals simp only [length_take, length_drop, length_map, length_append]; omega
  · rw [if_neg hover, fits_of_le (by omega), fits_of_le (by rw [length_map]; omega), hu.summary_eq,
      ← sumOf_append _ hu.flat_ne_nil]
    refine ⟨_, rfl, .leaf (append_ne_nil_of_left_ne_nil hne _) (by omega), by simp, ?_⟩
    simp only [toList_none, flat, flatAll, append_nil]

omit [Summary S] [Item T S] [LawfulSummary S] in
theorem setLast_append {α : Type} (l : List α) (a b : α) : setLast (l ++ [a]) b = some (l ++ [b]) := by
  simp [setLast]

theorem pushTreeRecursive_spec {u : SumTree T S} (hu : Wf k u) :
    ∀ {h : Nat} {t : SumTree T S}, Wf h t → k ≤ h →
      ∃ r, pushTreeRecursive t u = some r ∧ Split h (t.flat ++ u.flat) r := by
  intro h
  induction h with
  | zero =>
    intro t ht hle
    obtain rfl : k = 0 := Nat.le_zero.1 hle
    obtain ⟨is, rfl, hne, hlen⟩ := ht.items
    rw [pushTreeRecursive]
    exact appendItems_spec hne hlen hu
  | succ h ih =>
    intro t ht hle
    obtain ⟨ts, rfl, hne, hlen, hwf⟩ := ht.children
    have hsum : Summary.addSummary (sumOf (flatAll ts) : S) u.summary = sumOf (flatAll ts ++ u.flat) := by
      rw [hu.summary_eq, sumOf_append _ hu.flat_ne_nil]
    rw [pushTreeRecursive, hu.height_eq, if_neg (by omega), hsum]
    simp only [flat]
    by_cases hsame : h + 1 - k = 0
    · -- Trees of the same height: the children go over.
      rw [if_pos hsame]
      obtain rfl : k = h + 1 := by omega
      obtain ⟨us, rfl, husne, huslen, huswf⟩ := hu.children
      simp only [childTrees, childSummaries, bind_some, flat]
      rw [← flatAll_append]
      refine appendChildren_spec hne hlen huslen fun v hv => ?_
      rcases List.mem_append.1 hv with hv | hv
      · exact hwf v hv
      · exact huswf v hv
    · rw [if_neg hsame]
      by_cases hchild : h + 1 - k = 1 ∧ ¬ u.isUnderflowing
      · -- A tree that can be a child.
        rw [if_pos hchild]
        obtain rfl : k = h := by omega
        have := @appendChildren_spec T S _ _ _ k ts [u] hne hlen (by unfold TREE_BASE; simp) ?_
        · simpa using this
        · intro v hv
          rcases List.mem_append.1 hv with hv | hv
          · exact hwf v hv
          · rw [List.mem_singleton.1 hv]
            exact hu
      · -- Everything else goes into the last child.
        rw [if_neg hchild]
        obtain ⟨init, last, rfl⟩ : ∃ init last, ts = init ++ [last] :=
          ⟨_, _, (dropLast_append_getLast hne).symm⟩
        obtain ⟨r, hr, hsplit⟩ := ih (hwf last (by simp)) (by omega)
        have hlast : (init ++ [last]).getLast? = some last := by simp
        have hmap : (init ++ [last]).map summary = init.map summary ++ [last.summary] := by simp
        have hflat : flatAll (init ++ [last]) ++ u.flat = flatAll ((init ++ [r.1]) ++ r.2.toList) := by
          rw [flatAll_append, flatAll_append, flatAll_append, flatAll_singleton, flatAll_singleton,
            append_assoc, append_assoc, hsplit.flat_eq]
        split
        · rename_i hnone
          exact absurd hnone (by simp)
        · rename_i l hsome
          obtain rfl : last = l := some.inj (hlast.symm.trans hsome)
          rw [hr, bind_some, hmap, setLast_append, bind_some, setLast_append, bind_some, hflat]
          have := @appendChildren_spec T S _ _ _ h (init ++ [r.1]) r.2.toList (by simp) (by simpa using hlen)
            (by cases r.2 <;> simp [TREE_BASE]) ?_
          · simpa using this
          · intro v hv
            rcases List.mem_append.1 hv with hv | hv
            · rcases List.mem_append.1 hv with hv | hv
              · exact hwf v (by simp [hv])
              · rw [List.mem_singleton.1 hv]
                exact hsplit.left
            · exact hsplit.right v (by simpa using hv)

/-! ## Onto the left of a taller tree -/

theorem mergeIntoRight_spec {small large : SumTree T S} (hs : Wf h small) (hl : Wf h large) :
    ∃ r, mergeIntoRight small large = some r ∧ Spill h (small.flat ++ large.flat) r := by
  cases h with
  | zero =>
    obtain ⟨is, rfl, hne, hlen⟩ := hs.items
    obtain ⟨js, rfl, hne', hlen'⟩ := hl.items
    simp only [mergeIntoRight, flat]
    have hcat : (is ++ js).length = is.length + js.length := length_append
    by_cases hover : is.length + js.length ≤ 2 * TREE_BASE
    · rw [if_pos hover, ← map_append, fits_of_le (by omega), fits_of_le (by rw [length_map]; omega),
        ← sumOf_append _ hne']
      refine ⟨_, rfl, by simp, .leaf (append_ne_nil_of_left_ne_nil hne _) (by omega), ?_⟩
      simp only [toList_none, flat, flatAll, nil_append]
    · rw [if_neg hover, ← map_append]
      have hm := ceil_bounds (Nat.lt_of_not_le hover) (by omega)
      have hhalves := @leaf_take_drop T S _ _ _ _ _ hcat hm
      rw [fits_of_le, fits_of_le, fits_of_le, fits_of_le]
      · refine ⟨_, rfl, ?_, hhalves.2, ?_⟩
        · intro v hv
          cases hv
          exact hhalves.1
        · simp only [toList_some, flatAll_singleton, flat]
          rw [take_append_drop]
      all_goals simp only [length_take, length_drop, length_map, length_append]; omega
  | succ h =>
    obtain ⟨ts, rfl, hne, hlen, hwf⟩ := hs.children
    obtain ⟨us, rfl, hne', hlen', hwf'⟩ := hl.children
    have hall : ∀ v ∈ ts ++ us, Wf h v := by
      intro v hv
      rcases List.mem_append.1 hv with hv | hv
      · exact hwf v hv
      · exact hwf' v hv
    simp only [mergeIntoRight, flat]
    have hcat : (ts ++ us).length = us.length + ts.length := by rw [length_append, add_comm]
    by_cases hover : us.length + ts.length ≤ 2 * TREE_BASE
    · have hright : flatAll us ≠ [] := by simpa only [flat] using hl.flat_ne_nil
      rw [if_pos hover, ← map_append, fits_of_le (by omega), fits_of_le (by rw [length_map]; omega),
        ← sumOf_append _ hright, ← flatAll_append]
      refine ⟨_, rfl, by simp, .internal (append_ne_nil_of_left_ne_nil hne _) (by omega) hall, ?_⟩
      simp only [toList_none, flat, flatAll, nil_append]
    · rw [if_neg hover, ← map_append]
      have hm := ceil_bounds (Nat.lt_of_not_le hover) (by omega)
      have hhalves := node_take_drop hcat hm hall
      rw [fits_of_le, fits_of_le, fits_of_le, fits_of_le]
      · refine ⟨_, rfl, ?_, hhalves.2, ?_⟩
        · intro v hv
          cases hv
          exact hhalves.1
        · simp only [toList_some, flatAll_singleton, flat]
          rw [← flatAll_append, ← flatAll_append, take_append_drop]
      all_goals simp only [length_take, length_drop, length_map, length_append]; omega

theorem prependChild_spec {ts : List (SumTree T S)} {tree : SumTree T S}
    (hlen : ts.length ≤ 2 * TREE_BASE) (hwf : ∀ t ∈ ts, Wf h t) (htree : Wf h tree) :
    ∃ r, prependChild (h + 1) (sumOf (tree.flat ++ flatAll ts)) (ts.map summary) ts tree = some r ∧
      Spill (h + 1) (tree.flat ++ flatAll ts) r := by
  unfold prependChild
  by_cases hroom : ts.length < 2 * TREE_BASE
  · rw [if_pos hroom, fits_of_le (by simpa using Nat.succ_le_of_lt hroom),
      fits_of_le (by simpa using Nat.succ_le_of_lt hroom)]
    refine ⟨_, rfl, by simp, ?_, ?_⟩
    · have := @Wf.internal T S _ _ h (tree :: ts) (by simp) (by simpa using Nat.succ_le_of_lt hroom) ?_
      · simpa [flatAll] using this
      · intro v hv
        rcases List.mem_cons.1 hv with rfl | hv
        · exact htree
        · exact hwf v hv
    · simp only [toList_none, flat, flatAll, nil_append]
  · have hfull : ts.length = 2 * TREE_BASE := by omega
    rw [if_neg hroom, fits_of_le (by simp [hfull, TREE_BASE]), fits_of_le (by simp [hfull, TREE_BASE])]
    have hfront : Wf (h + 1) (.internal (h + 1) (sum (tree.summary :: (ts.map summary).take TREE_BASE))
        (tree.summary :: (ts.map summary).take TREE_BASE) (tree :: ts.take TREE_BASE)) := by
      have := @Wf.node T S _ _ h (tree :: ts.take TREE_BASE) _ (by simp) (by simp [hfull, TREE_BASE]) ?_
      · simpa [map_take] using this
      · intro v hv
        rcases List.mem_cons.1 hv with rfl | hv
        · exact htree
        · exact hwf v (mem_of_mem_take hv)
    have hback : Wf (h + 1) (.internal (h + 1) (sum ((ts.map summary).drop TREE_BASE))
        ((ts.map summary).drop TREE_BASE) (ts.drop TREE_BASE)) := by
      have := @Wf.node T S _ _ h (ts.drop TREE_BASE) _ ?_ (by simp [hfull, TREE_BASE])
        fun v hv => hwf v (mem_of_mem_drop hv)
      · simpa [map_drop] using this
      · intro h0
        have := congrArg List.length h0
        rw [length_drop, hfull, length_nil] at this
        simp [TREE_BASE] at this
    refine ⟨_, rfl, ?_, hback, ?_⟩
    · intro v hv
      cases hv
      exact hfront
    · simp only [toList_some, flatAll_singleton, flat, flatAll]
      rw [append_assoc, ← flatAll_append, take_append_drop]

theorem appendLarge_spec {small : SumTree T S} (hs : Wf k small) :
    ∀ {h : Nat} {large : SumTree T S}, Wf h large → k ≤ h →
      ∃ r, appendLarge small large = some r ∧ Spill h (small.flat ++ large.flat) r := by
  intro h
  induction h with
  | zero =>
    intro large hl hle
    obtain rfl : k = 0 := Nat.le_zero.1 hle
    rw [appendLarge.eq_def, hs.height_eq, hl.height_eq, if_pos rfl]
    by_cases hunder : small.isUnderflowing
    · rw [if_neg (by simpa using hunder)]
      exact mergeIntoRight_spec hs hl
    · rw [if_pos hunder]
      exact ⟨_, rfl, by simpa using hs, hl, by simp⟩
  | succ h ih =>
    intro large hl hle
    by_cases hsame : k = h + 1
    · subst hsame
      rw [appendLarge.eq_def, hs.height_eq, hl.height_eq, if_pos rfl]
      by_cases hunder : small.isUnderflowing
      · rw [if_neg (by simpa using hunder)]
        exact mergeIntoRight_spec hs hl
      · rw [if_pos hunder]
        exact ⟨_, rfl, by simpa using hs, hl, by simp⟩
    · rw [appendLarge.eq_def, hs.height_eq, hl.height_eq, if_neg hsame]
      obtain ⟨ts, rfl, hne, hlen, hwf⟩ := hl.children
      obtain ⟨first, rest, rfl⟩ := exists_cons_of_ne_nil hne
      obtain ⟨⟨res, first'⟩, hr, hspill⟩ := ih (hwf first mem_cons_self) (by omega)
      have hall : ∀ v ∈ first' :: rest, Wf h v := by
        intro v hv
        rcases List.mem_cons.1 hv with rfl | hv
        · exact hspill.right
        · exact hwf v (mem_cons_of_mem _ hv)
      have hflat := hspill.flat_eq
      have hsum : Summary.addSummary small.summary (sumOf (flatAll (first :: rest)) : S) =
          sumOf (small.flat ++ flatAll (first :: rest)) := by
        rw [hs.summary_eq, ← sumOf_append]
        simpa only [flat] using hl.flat_ne_nil
      have hjoin : small.flat ++ flatAll (first :: rest) = flatAll res.toList ++ flatAll (first' :: rest) := by
        rw [flatAll, flatAll, ← append_assoc, ← hflat, append_assoc]
      simp only [map_cons, hr, hsum, flat, hjoin]
      cases res with
      | none =>
        refine ⟨_, rfl, by simp, ?_, ?_⟩
        · have := @Wf.internal T S _ _ h (first' :: rest) (by simp) (by simpa using hlen) hall
          simpa [flatAll] using this
        · simp only [toList_none, flat]
      | some tree =>
        have := prependChild_spec (by simpa using hlen) hall (hspill.left tree rfl)
        simpa [flatAll] using this

/-! ## Both ways -/

theorem fromChildTrees_spec {t u : SumTree T S} (ht : Wf h t) (hu : Wf h u) :
    Wf (h + 1) (fromChildTrees t u) ∧ (fromChildTrees t u).flat = t.flat ++ u.flat := by
  unfold fromChildTrees
  refine ⟨?_, by simp only [flat, flatAll, append_nil]⟩
  have := @Wf.node T S _ _ h [t, u] _ (by simp) (by simp [TREE_BASE]) (by simp [ht, hu])
  rwa [ht.height_eq]

/-- **Appending.** Nothing runs over, and the result holds the items of both trees. -/
theorem append_spec {t u : SumTree T S} (ht : t.Ok) (hu : u.Ok) :
    ∃ v, t.append u = some v ∧ v.Ok ∧ v.flat = t.flat ++ u.flat := by
  unfold append
  obtain rfl | ⟨k, ht⟩ := ht
  · exact ⟨u, by simp [isEmpty, new], hu, by simp [new, flat]⟩
  rw [if_neg (by simp [ht.not_isEmpty])]
  obtain rfl | ⟨h, hu⟩ := hu
  · exact ⟨t, by simp [isEmpty, new], .inr ⟨k, ht⟩, by simp [new, flat]⟩
  rw [if_pos (by simp [hu.not_isEmpty]), ht.height_eq, hu.height_eq]
  by_cases hlt : k < h
  · rw [if_pos hlt]
    obtain ⟨⟨res, u'⟩, hr, hspill⟩ := appendLarge_spec ht hu (le_of_lt hlt)
    rw [hr, map_some]
    have hflat := hspill.flat_eq
    cases res with
    | none => exact ⟨u', rfl, .inr ⟨h, hspill.right⟩, by simpa [flatAll] using hflat⟩
    | some tree =>
      obtain ⟨hwf, hf⟩ := fromChildTrees_spec (hspill.left tree rfl) hspill.right
      exact ⟨_, rfl, .inr ⟨_, hwf⟩, by rw [hf]; simpa using hflat⟩
  · rw [if_neg hlt]
    obtain ⟨⟨t', res⟩, hr, hsplit⟩ := pushTreeRecursive_spec hu ht (Nat.le_of_not_lt hlt)
    rw [hr, map_some]
    have hflat := hsplit.flat_eq
    cases res with
    | none => exact ⟨t', rfl, .inr ⟨k, hsplit.left⟩, by simpa [flatAll] using hflat⟩
    | some tree =>
      obtain ⟨hwf, hf⟩ := fromChildTrees_spec hsplit.left (hsplit.right tree rfl)
      exact ⟨_, rfl, .inr ⟨_, hwf⟩, by rw [hf]; simpa using hflat⟩

theorem push_spec {t : SumTree T S} (ht : t.Ok) (item : T) :
    ∃ v, t.push item = some v ∧ v.Ok ∧ v.flat = t.flat ++ [item] := by
  have hone : Wf 0 (.leaf (Item.summary item) [item] [Item.summary item] : SumTree T S) := by
    have := @Wf.leaf T S _ _ [item] (by simp) (by simp [TREE_BASE])
    rwa [sumOf, map_singleton, sum_singleton] at this
  obtain ⟨v, hv, hok, hflat⟩ := append_spec ht (.inr ⟨0, hone⟩)
  exact ⟨v, hv, hok, by simpa only [flat] using hflat⟩

end SumTree

end SpkEditor
