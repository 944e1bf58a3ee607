import Mathlib.Data.List.ModifyLast
import SpkEditor.SumTree.Append

/-!
# Building trees, and changing their ends

A tree that is built from a list at once is well formed and holds the list, both when
parents are filled one child after the other and when they are cut out of a level in
parallel (`fromIter_spec`, `fromParIter_spec`). Changing the first item or the last one
puts the summaries right on the way back up (`updateFirst_spec`, `updateLast_spec`).
-/

namespace SpkEditor

open List Option

namespace SumTree

variable {T S : Type} [Summary S] [Item T S]

variable {t : SumTree T S}

theorem chunks_spec {α : Type} {n : Nat} (hn : 2 ≤ n) (l : List α) :
    (chunks n l).flatten = l ∧ (∀ c ∈ chunks n l, c ≠ [] ∧ c.length ≤ n) ∧
      (chunks n l).length ≤ l.length ∧ (1 < l.length → (chunks n l).length < l.length) := by
  fun_induction chunks n l with
  | case1 l hnil =>
    obtain rfl | h0 := hnil
    · simp
    · omega
  | case2 l hnil ih =>
    have hne : l ≠ [] := fun h0 => hnil (.inl h0)
    have hpos : 0 < l.length := List.length_pos_iff.2 hne
    obtain ⟨hflat, hmem, hlen, hlt⟩ := ih
    rw [length_drop] at hlen hlt
    refine ⟨?_, ?_, ?_, ?_⟩
    · rw [flatten_cons, hflat, take_append_drop]
    · intro c hc
      rcases List.mem_cons.1 hc with rfl | hc
      · refine ⟨fun h0 => ?_, by rw [length_take]; omega⟩
        have := congrArg List.length h0
        rw [length_take, length_nil] at this
        omega
      · exact hmem c hc
    · rw [length_cons]
      omega
    · intro _
      rw [length_cons]
      omega

variable {h : Nat}

theorem mapM_spec {α : Type} {f : α → Option (SumTree T S)} {g : α → List T} : ∀ {l : List α},
    (∀ a ∈ l, ∃ t, f a = some t ∧ Wf h t ∧ t.flat = g a) →
      ∃ ts, l.mapM f = some ts ∧ (∀ t ∈ ts, Wf h t) ∧ flatAll ts = l.flatMap g ∧ ts.length = l.length
  | [], _ => ⟨[], rfl, by simp, by simp [flatAll], rfl⟩
  | a :: l, hf => by
      obtain ⟨t, ht, hwf, hflat⟩ := hf a mem_cons_self
      obtain ⟨ts, hts, hwfs, hflats, hlen⟩ := mapM_spec fun b hb => hf b (mem_cons_of_mem _ hb)
      refine ⟨t :: ts, ?_, ?_, ?_, ?_⟩
      · rw [mapM_cons, ht, hts]
        rfl
      · intro u hu
        rcases List.mem_cons.1 hu with rfl | hu
        · exact hwf
        · exact hwfs u hu
      · rw [flatAll, hflat, hflats, flatMap_cons]
      · rw [length_cons, length_cons, hlen]

section Lawful

variable [LawfulSummary S]

theorem sumFromFirst_eq {l : List S} (hl : l ≠ []) : sumFromFirst l = some (sum l) := by
  obtain ⟨s, l, rfl⟩ := exists_cons_of_ne_nil hl
  rw [sumFromFirst, sum, foldl_cons, LawfulSummary.zero_add]

theorem leafOf_spec {is : List T} (hne : is ≠ []) (hlen : is.length ≤ 2 * TREE_BASE) :
    ∃ t : SumTree T S, leafOf is = some t ∧ Wf 0 t ∧ t.flat = is := by
  unfold leafOf
  rw [fits_of_le hlen]
  dsimp only [bind_eq_bind, bind_some]
  rw [fits_of_le (by rwa [length_map]), bind_some, sumFromFirst_eq (by simpa using hne)]
  exact ⟨_, rfl, .leaf hne hlen, by simp only [flat]⟩

theorem internalOf_spec {ts : List (SumTree T S)} (hne : ts ≠ []) (hlen : ts.length ≤ 2 * TREE_BASE)
    (hwf : ∀ t ∈ ts, Wf h t) : ∃ t, internalOf (h + 1) ts = some t ∧ Wf (h + 1) t ∧ t.flat = flatAll ts := by
  unfold internalOf
  rw [fits_of_le hlen]
  dsimp only [bind_eq_bind, bind_some]
  rw [fits_of_le (by rwa [length_map]), bind_some, sumFromFirst_eq (by simpa using hne)]
  exact ⟨_, rfl, .node hne hlen hwf, by simp only [flat]⟩

theorem leaves_spec (items : List T) :
    ∃ leaves : List (SumTree T S), (chunks (2 * TREE_BASE) items).mapM leafOf = some leaves ∧
      (∀ t ∈ leaves, Wf 0 t) ∧ flatAll leaves = items := by
  obtain ⟨hflat, hmem, -, -⟩ := @chunks_spec T (2 * TREE_BASE) (by simp [TREE_BASE]) items
  obtain ⟨ts, hts, hwf, hall, -⟩ := @mapM_spec T S _ _ 0 _ leafOf id (chunks (2 * TREE_BASE) items)
    fun c hc => leafOf_spec (hmem c hc).1 (hmem c hc).2
  exact ⟨ts, hts, hwf, by rw [hall, flatMap_id, hflat]⟩

def Levels (parents : Nat → List (SumTree T S) → Option (List (SumTree T S))) : Prop :=
  ∀ (h : Nat) (nodes : List (SumTree T S)), 1 < nodes.length → (∀ t ∈ nodes, Wf h t) →
    ∃ ps, parents (h + 1) nodes = some ps ∧ (∀ t ∈ ps, Wf (h + 1) t) ∧ flatAll ps = flatAll nodes ∧
      ps.length < nodes.length

theorem parParentsOf_levels : Levels (parParentsOf (T := T) (S := S)) := by
  intro h nodes hlen hwf
  obtain ⟨hflat, hmem, -, hlt⟩ := @chunks_spec (SumTree T S) (2 * TREE_BASE) (by simp [TREE_BASE]) nodes
  obtain ⟨ps, hps, hwfs, hall, hpslen⟩ := @mapM_spec T S _ _ (h + 1) _ (internalOf (h + 1)) flatAll
    (chunks (2 * TREE_BASE) nodes) fun c hc => internalOf_spec (hmem c hc).1 (hmem c hc).2 fun t ht =>
      hwf t (by rw [← hflat]; exact List.mem_flatten.2 ⟨c, hc, ht⟩)
  refine ⟨ps, hps, hwfs, ?_, by rw [hpslen]; exact hlt hlen⟩
  have hcat : ∀ cs : List (List (SumTree T S)), cs.flatMap flatAll = flatAll cs.flatten := by
    intro cs
    induction cs with
    | nil => simp [flatAll]
    | cons c cs ih => rw [flatMap_cons, ih, flatten_cons, flatAll_append]
  rw [hall, hcat, hflat]

/-- The node being filled with `us`, if there is one. -/
def filling (h : Nat) (us : List (SumTree T S)) : Option (SumTree T S) :=
  if us = [] then none else some (.internal (h + 1) (sum (us.map summary)) (us.map summary) us)

/-- What has been done with a level so far: full parents, and one being filled. -/
structure Filled (h : Nat) (nodes : List (SumTree T S)) (st : List (SumTree T S) × Option (SumTree T S)) :
    Prop where
  full : ∀ t ∈ st.1, Wf (h + 1) t
  open_ : ∃ us, st.2 = filling h us ∧ us.length < 2 * TREE_BASE ∧ (∀ t ∈ us, Wf h t) ∧
    flatAll st.1 ++ flatAll us = flatAll nodes ∧ nodes.length = 2 * TREE_BASE * st.1.length + us.length

theorem addToParent_spec {nodes : List (SumTree T S)} {st : List (SumTree T S) × Option (SumTree T S)}
    {child : SumTree T S} (hst : Filled h nodes st) (hchild : Wf h child) :
    ∃ st', addToParent (h + 1) st child = some st' ∧ Filled h (nodes ++ [child]) st' := by
  obtain ⟨hfull, us, hus, hlen, hwf, hflat, hcount⟩ := hst
  have hopen : st.2.getD (.internal (h + 1) Summary.zero [] []) =
      .internal (h + 1) (sum (us.map summary)) (us.map summary) us := by
    rw [hus, filling]
    by_cases h0 : us = []
    · rw [if_pos h0, h0]
      rfl
    · rw [if_neg h0]
      rfl
  have hlen' : (us ++ [child]).length ≤ 2 * TREE_BASE := by rw [length_append]; exact hlen
  have hwf' : ∀ t ∈ us ++ [child], Wf h t := by
    intro t ht
    rcases List.mem_append.1 ht with ht | ht
    · exact hwf t ht
    · rw [List.mem_singleton.1 ht]
      exact hchild
  have hsum : Summary.addSummary (sum (us.map summary)) child.summary = sum ((us ++ [child]).map summary) := by
    rw [map_append, map_singleton, sum_append _ (by simp), sum_singleton]
  have hmap : us.map summary ++ [child.summary] = (us ++ [child]).map summary := by simp
  have hjoin : flatAll st.1 ++ flatAll (us ++ [child]) = flatAll (nodes ++ [child]) := by
    rw [flatAll_append, flatAll_append, ← append_assoc, hflat]
  unfold addToParent
  rw [hopen]
  dsimp only
  rw [hmap, fits_of_le (by rwa [length_map]), fits_of_le hlen', hsum]
  dsimp only [bind_eq_bind, bind_some, Option.pure_def]
  by_cases hdone : (us ++ [child]).length = 2 * TREE_BASE
  · rw [if_pos hdone]
    refine ⟨_, rfl, ?_, [], rfl, by simp [TREE_BASE], by simp, ?_, ?_⟩
    · intro t ht
      rcases List.mem_append.1 ht with ht | ht
      · exact hfull t ht
      · rw [List.mem_singleton.1 ht]
        exact .node (by simp) hlen' hwf'
    · rw [flatAll_append, flatAll_singleton, flatAll, append_nil, flat, hjoin]
    · rw [length_append] at hdone
      simp only [length_append, length_singleton, length_nil] at hdone ⊢
      rw [hcount, Nat.mul_add, mul_one]
      omega
  · rw [if_neg hdone]
    refine ⟨_, rfl, hfull, us ++ [child], ?_, by omega, hwf', hjoin, ?_⟩
    · rw [filling, if_neg (by simp)]
    · simp only [length_append, length_singleton]
      omega

theorem foldlM_addToParent : ∀ (rest : List (SumTree T S)) {nodes : List (SumTree T S)}
    {st : List (SumTree T S) × Option (SumTree T S)}, Filled h nodes st → (∀ t ∈ rest, Wf h t) →
      ∃ st', rest.foldlM (addToParent (h + 1)) st = some st' ∧ Filled h (nodes ++ rest) st'
  | [], nodes, st, hst, _ => ⟨st, rfl, by rwa [append_nil]⟩
  | child :: rest, nodes, st, hst, hwf => by
      obtain ⟨st₁, h₁, hst₁⟩ := addToParent_spec hst (hwf child mem_cons_self)
      obtain ⟨st', h', hst'⟩ := foldlM_addToParent rest hst₁ fun t ht => hwf t (mem_cons_of_mem _ ht)
      refine ⟨st', ?_, ?_⟩
      · rw [foldlM_cons, h₁]
        exact h'
      · rwa [append_assoc] at hst'

theorem parentsOf_levels : Levels (parentsOf (T := T) (S := S)) := by
  intro h nodes hlen hwf
  have hstart : Filled h [] (([] : List (SumTree T S)), none) :=
    ⟨by simp, [], rfl, by simp [TREE_BASE], by simp, by simp [flatAll], rfl⟩
  obtain ⟨st, hst, hfull, us, hus, huslen, huswf, hflat, hcount⟩ := foldlM_addToParent nodes hstart hwf
  rw [nil_append] at hflat hcount
  refine ⟨st.1 ++ st.2.toList, by rw [parentsOf, hst]; rfl, ?_, ?_, ?_⟩
  · intro t ht
    rcases List.mem_append.1 ht with ht | ht
    · exact hfull t ht
    · rw [hus, filling] at ht
      split at ht
      · simp at ht
      · rename_i hne
        obtain rfl : t = _ := by simpa using ht
        exact .node hne (le_of_lt huslen) huswf
  · rw [flatAll_append, ← hflat, hus, filling]
    split
    · rename_i h0
      rw [h0]
      rfl
    · rw [toList_some, flatAll_singleton, flat]
  · have htail : st.2.toList.length ≤ 1 ∧ (us = [] → st.2.toList.length = 0) := by
      rw [hus, filling]
      split <;> simp_all
    rw [length_append]
    unfold TREE_BASE at hcount
    omega

omit [LawfulSummary S] in
theorem buildUp_spec {parents : Nat → List (SumTree T S) → Option (List (SumTree T S))}
    (hp : Levels parents) : ∀ (fuel h : Nat) {nodes : List (SumTree T S)}, nodes.length ≤ fuel + 1 →
      (∀ t ∈ nodes, Wf h t) → ∃ ns h', buildUp parents fuel h nodes = some ns ∧ ns.length ≤ 1 ∧
        (∀ t ∈ ns, Wf h' t) ∧ flatAll ns = flatAll nodes
  | 0, h, nodes, hlen, hwf => ⟨nodes, h, by rw [buildUp, if_neg (by omega)], by omega, hwf, rfl⟩
  | fuel + 1, h, nodes, hlen, hwf => by
      by_cases hone : 1 < nodes.length
      · obtain ⟨ps, hps, hpwf, hflat, hlt⟩ := hp h nodes hone hwf
        obtain ⟨ns, h', hns, hle, hnwf, hnflat⟩ := buildUp_spec hp fuel (h + 1) (by omega) hpwf
        refine ⟨ns, h', ?_, hle, hnwf, hnflat.trans hflat⟩
        rw [buildUp, if_pos hone, hps]
        exact hns
      · exact ⟨nodes, h, by rw [buildUp, if_neg hone], by omega, hwf, rfl⟩

omit [LawfulSummary S] in
theorem fromLeaves_spec {parents : Nat → List (SumTree T S) → Option (List (SumTree T S))}
    (hp : Levels parents) {leaves : List (SumTree T S)} (hwf : ∀ t ∈ leaves, Wf 0 t) :
    ∃ t, fromLeaves parents leaves = some t ∧ t.Ok ∧ t.flat = flatAll leaves := by
  obtain ⟨ns, h', hns, hle, hnwf, hflat⟩ := buildUp_spec hp leaves.length 0 (by omega) hwf
  rw [fromLeaves, hns, ← hflat]
  match ns, hle, hnwf with
  | [], _, _ => exact ⟨new, rfl, .inl rfl, by simp [new, flat, flatAll]⟩
  | [t], _, hnwf => exact ⟨t, rfl, .inr ⟨h', hnwf t (by simp)⟩, by simp⟩

theorem fromIter_spec (items : List T) :
    ∃ t : SumTree T S, fromIter items = some t ∧ t.Ok ∧ t.flat = items := by
  obtain ⟨leaves, hleaves, hwf, hflat⟩ := @leaves_spec T S _ _ _ items
  obtain ⟨t, ht, hok, htflat⟩ := fromLeaves_spec parentsOf_levels hwf
  exact ⟨t, by rw [fromIter, hleaves]; exact ht, hok, htflat.trans hflat⟩

theorem fromParIter_spec (items : List T) :
    ∃ t : SumTree T S, fromParIter items = some t ∧ t.Ok ∧ t.flat = items := by
  obtain ⟨leaves, hleaves, hwf, hflat⟩ := @leaves_spec T S _ _ _ items
  obtain ⟨t, ht, hok, htflat⟩ := fromLeaves_spec parParentsOf_levels hwf
  exact ⟨t, by rw [fromParIter, hleaves]; exact ht, hok, htflat.trans hflat⟩

theorem extend_spec (ht : t.Ok) (items : List T) :
    ∃ v, t.extend items = some v ∧ v.Ok ∧ v.flat = t.flat ++ items := by
  obtain ⟨u, hu, huok, huflat⟩ := @fromIter_spec T S _ _ _ items
  obtain ⟨v, hv, hvok, hvflat⟩ := append_spec ht huok
  exact ⟨v, by rw [extend, hu]; exact hv, hvok, by rw [hvflat, huflat]⟩

theorem parExtend_spec (ht : t.Ok) (items : List T) :
    ∃ v, t.parExtend items = some v ∧ v.Ok ∧ v.flat = t.flat ++ items := by
  obtain ⟨u, hu, huok, huflat⟩ := @fromParIter_spec T S _ _ _ items
  obtain ⟨v, hv, hvok, hvflat⟩ := append_spec ht huok
  exact ⟨v, by rw [parExtend, hu]; exact hv, hvok, by rw [hvflat, huflat]⟩

/-! ## Changing an end -/

theorem updateLastRecursive_spec (f : T → T) : ∀ {h : Nat} {t : SumTree T S}, Wf h t →
    ∃ t', updateLastRecursive t f = some (t', some t'.summary) ∧ Wf h t' ∧ t'.flat = t.flat.modifyLast f := by
  intro h
  induction h with
  | zero =>
    intro t ht
    obtain ⟨is, rfl, hne, hlen⟩ := ht.items
    obtain ⟨init, last, rfl⟩ : ∃ init last, is = init ++ [last] :=
      ⟨_, _, (dropLast_append_getLast hne).symm⟩
    have hmap : (init ++ [last]).map Item.summary = (init.map Item.summary : List S) ++ [Item.summary last] := by
      simp
    have hwf := @Wf.leaf T S _ _ (init ++ [f last]) (by simp) (by simpa using hlen)
    rw [updateLastRecursive, hmap]
    simp only [List.getLast?_concat, setLast_append, bind_some, map_some]
    refine ⟨_, rfl, ?_, ?_⟩
    · simpa [sumOf] using hwf
    · simp only [flat, modifyLast_concat]
  | succ h ih =>
    intro t ht
    obtain ⟨ts, rfl, hne, hlen, hwf⟩ := ht.children
    obtain ⟨init, last, rfl⟩ : ∃ init last, ts = init ++ [last] :=
      ⟨_, _, (dropLast_append_getLast hne).symm⟩
    have hmap : (init ++ [last]).map summary = init.map summary ++ [last.summary] := by simp
    have hlastwf : Wf h last := hwf last (by simp)
    obtain ⟨last', hrec, hwf', hflat⟩ := ih hlastwf
    have hlast : (init ++ [last]).getLast? = some last := by simp
    rw [updateLastRecursive, hmap]
    split
    · rename_i hnone
      exact absurd hnone (by simp)
    · rename_i l hsome
      obtain rfl : last = l := some.inj (hlast.symm.trans hsome)
      simp only [hrec, setLast_append, bind_some, map_some]
      refine ⟨_, rfl, ?_, ?_⟩
      · have := @Wf.node T S _ _ h (init ++ [last']) _ (by simp) (by simpa using hlen) ?_
        · simpa using this
        · intro v hv
          rcases List.mem_append.1 hv with hv | hv
          · exact hwf v (by simp [hv])
          · rw [List.mem_singleton.1 hv]
            exact hwf'
      · simp only [flat, flatAll_append, flatAll_singleton]
        rw [hflat, modifyLast_append_of_right_ne_nil f _ _ hlastwf.flat_ne_nil]

theorem updateLast_spec (ht : t.Ok) (f : T → T) :
    ∃ v, t.updateLast f = some v ∧ v.Ok ∧ v.flat = t.flat.modifyLast f := by
  obtain rfl | ⟨h, ht⟩ := ht
  · exact ⟨new, by simp [updateLast, new, updateLastRecursive], .inl rfl,
      by simp [new, flat, List.modifyLast, List.modifyLast.go]⟩
  · obtain ⟨t', hrec, hwf, hflat⟩ := updateLastRecursive_spec f ht
    exact ⟨t', by rw [updateLast, hrec]; rfl, .inr ⟨h, hwf⟩, hflat⟩

theorem updateFirstRecursive_spec (f : T → T) : ∀ {h : Nat} {t : SumTree T S}, Wf h t →
    ∃ t', updateFirstRecursive t f = some (t', some t'.summary) ∧ Wf h t' ∧ t'.flat = t.flat.modifyHead f := by
  intro h
  induction h with
  | zero =>
    intro t ht
    obtain ⟨is, rfl, hne, hlen⟩ := ht.items
    obtain ⟨first, rest, rfl⟩ := exists_cons_of_ne_nil hne
    have hwf := @Wf.leaf T S _ _ (f first :: rest) (by simp) (by simpa using hlen)
    rw [updateFirstRecursive.eq_def]
    refine ⟨_, rfl, ?_, ?_⟩
    · simpa [sumOf] using hwf
    · simp only [flat, modifyHead_cons]
  | succ h ih =>
    intro t ht
    obtain ⟨ts, rfl, hne, hlen, hwf⟩ := ht.children
    obtain ⟨first, rest, rfl⟩ := exists_cons_of_ne_nil hne
    have hfirst : Wf h first := hwf first mem_cons_self
    obtain ⟨first', hrec, hwf', hflat⟩ := ih hfirst
    rw [updateFirstRecursive.eq_def]
    simp only [map_cons, hrec]
    refine ⟨_, rfl, ?_, ?_⟩
    · have := @Wf.node T S _ _ h (first' :: rest) _ (by simp) (by simpa using hlen) ?_
      · simpa using this
      · intro v hv
        rcases List.mem_cons.1 hv with rfl | hv
        · exact hwf'
        · exact hwf v (mem_cons_of_mem _ hv)
    · simp only [flat, flatAll]
      obtain ⟨x, xs, hx⟩ := exists_cons_of_ne_nil hfirst.flat_ne_nil
      rw [hflat, hx]
      rfl

theorem updateFirst_spec (ht : t.Ok) (f : T → T) :
    ∃ v, t.updateFirst f = some v ∧ v.Ok ∧ v.flat = t.flat.modifyHead f := by
  obtain rfl | ⟨h, ht⟩ := ht
  · exact ⟨new, by simp [updateFirst, new, updateFirstRecursive], .inl rfl, by simp [new, flat]⟩
  · obtain ⟨t', hrec, hwf, hflat⟩ := updateFirstRecursive_spec f ht
    exact ⟨t', by rw [updateFirst, hrec]; rfl, .inr ⟨h, hwf⟩, hflat⟩

end Lawful

/-! ## Reading an end -/

theorem leftmostLeaf_spec : ∀ {h : Nat} {t : SumTree T S}, Wf h t →
    ∃ u, t.leftmostLeaf = some u ∧ Wf 0 u ∧ ∃ rest, t.flat = u.flat ++ rest := by
  intro h
  induction h with
  | zero =>
    intro t ht
    obtain ⟨is, rfl, hne, hlen⟩ := ht.items
    exact ⟨_, by rw [leftmostLeaf], ht, [], by simp⟩
  | succ h ih =>
    intro t ht
    obtain ⟨ts, rfl, hne, hlen, hwf⟩ := ht.children
    obtain ⟨first, rest, rfl⟩ := exists_cons_of_ne_nil hne
    obtain ⟨u, hu, huwf, r, hr⟩ := ih (hwf first mem_cons_self)
    refine ⟨u, by rw [leftmostLeaf, hu], huwf, r ++ flatAll rest, ?_⟩
    simp only [flat, flatAll]
    rw [hr, append_assoc]

theorem rightmostLeaf_spec : ∀ {h : Nat} {t : SumTree T S}, Wf h t →
    ∃ u, t.rightmostLeaf = some u ∧ Wf 0 u ∧ ∃ init, t.flat = init ++ u.flat := by
  intro h
  induction h with
  | zero =>
    intro t ht
    obtain ⟨is, rfl, hne, hlen⟩ := ht.items
    exact ⟨_, by rw [rightmostLeaf], ht, [], by simp⟩
  | succ h ih =>
    intro t ht
    obtain ⟨ts, rfl, hne, hlen, hwf⟩ := ht.children
    obtain ⟨init, last, rfl⟩ : ∃ init last, ts = init ++ [last] :=
      ⟨_, _, (dropLast_append_getLast hne).symm⟩
    obtain ⟨u, hu, huwf, r, hr⟩ := ih (hwf last (by simp))
    have hlast : (init ++ [last]).getLast? = some last := by simp
    refine ⟨u, ?_, huwf, flatAll init ++ r, ?_⟩
    · rw [rightmostLeaf]
      split
      · rename_i hnone
        exact absurd hnone (by simp)
      · rename_i l hsome
        obtain rfl : last = l := some.inj (hlast.symm.trans hsome)
        exact hu
    · simp only [flat, flatAll_append, flatAll_singleton]
      rw [hr, append_assoc]

theorem first_spec {h : Nat} (ht : Wf h t) : t.first = some t.flat.head? := by
  obtain ⟨u, hu, huwf, rest, hrest⟩ := leftmostLeaf_spec ht
  rw [first, hu, hrest, List.head?_append_of_ne_nil _ huwf.flat_ne_nil]
  simp [huwf.leafItems_eq.1]

theorem last_spec {h : Nat} (ht : Wf h t) : t.last = some t.flat.getLast? := by
  obtain ⟨u, hu, huwf, init, hinit⟩ := rightmostLeaf_spec ht
  rw [last, hu, hinit, List.getLast?_append_of_ne_nil _ huwf.flat_ne_nil]
  simp [huwf.leafItems_eq.1]

end SumTree

end SpkEditor
