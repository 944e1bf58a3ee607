import SpkEditor.SumTree.Tree

/-!
# Well-formed trees

`flat` is what a tree holds, in order. A tree is well formed at a height (`Wf`) when all
its leaves are at that depth, no node is over its capacity or empty, and every summary it
stores is the sum of the items below. Addition of summaries is associative and zero is
its left identity, but not more: adding the summary of nothing is not harmless, and so
every sum below is over something (`sum_append`).
-/

namespace SpkEditor

open List

/-- What is known about adding summaries. -/
class LawfulSummary (S : Type) [Summary S] : Prop where
  add_assoc : ∀ a b c : S, Summary.addSummary (Summary.addSummary a b) c =
    Summary.addSummary a (Summary.addSummary b c)
  zero_add : ∀ a : S, Summary.addSummary Summary.zero a = a

variable {T S : Type} [Summary S] [Item T S]

/-- The left fold of the summaries of items. -/
def sumOf (items : List T) : S := sum (items.map Item.summary)

section Sums

variable [LawfulSummary S]

theorem add_foldl (z s : S) (l : List S) :
    Summary.addSummary z (l.foldl Summary.addSummary s) = l.foldl Summary.addSummary (Summary.addSummary z s) := by
  induction l generalizing s with
  | nil => rfl
  | cons a l ih => rw [foldl_cons, foldl_cons, ih, LawfulSummary.add_assoc]

theorem foldl_add (z : S) {l : List S} (h : l ≠ []) :
    l.foldl Summary.addSummary z = Summary.addSummary z (sum l) := by
  obtain ⟨a, l, rfl⟩ := exists_cons_of_ne_nil h
  rw [sum, foldl_cons, foldl_cons, LawfulSummary.zero_add, add_foldl]

theorem sum_append (l : List S) {l' : List S} (h : l' ≠ []) :
    sum (l ++ l') = Summary.addSummary (sum l) (sum l') := by
  rw [← foldl_add _ h, sum, foldl_append]
  rfl

theorem sum_singleton (s : S) : sum [s] = s := LawfulSummary.zero_add s

theorem sumOf_append (items : List T) {items' : List T} (h : items' ≠ []) :
    sumOf (items ++ items') = Summary.addSummary (sumOf items : S) (sumOf items') := by
  rw [sumOf, map_append, sum_append _ (by simpa using h)]
  rfl

end Sums

namespace SumTree

/-! ## What a tree holds -/

mutual

/-- The items of a tree, in order. -/
def flat : SumTree T S → List T
  | internal _ _ _ childTrees => flatAll childTrees
  | leaf _ items _ => items

def flatAll : List (SumTree T S) → List T
  | [] => []
  | t :: ts => flat t ++ flatAll ts

end

omit [Summary S] [Item T S] in
@[simp] theorem flatAll_append (ts ts' : List (SumTree T S)) :
    flatAll (ts ++ ts') = flatAll ts ++ flatAll ts' := by
  induction ts with
  | nil => rw [nil_append, flatAll, nil_append]
  | cons t ts ih => rw [cons_append, flatAll, flatAll, ih, append_assoc]

omit [Summary S] [Item T S] in
@[simp] theorem flatAll_singleton (t : SumTree T S) : flatAll [t] = flat t := by
  rw [flatAll, flatAll, append_nil]

/-- Well formed at a height. -/
inductive Wf : Nat → SumTree T S → Prop where
  | leaf {items : List T} : items ≠ [] → items.length ≤ 2 * TREE_BASE →
      Wf 0 (leaf (sumOf items) items (items.map Item.summary))
  | internal {h : Nat} {ts : List (SumTree T S)} : ts ≠ [] → ts.length ≤ 2 * TREE_BASE →
      (∀ t ∈ ts, Wf h t) → Wf (h + 1) (internal (h + 1) (sumOf (flatAll ts)) (ts.map summary) ts)

/-- Well formed as a whole: at some height, or with nothing in it. -/
def Ok (t : SumTree T S) : Prop := t = new ∨ ∃ h, Wf h t

namespace Wf

variable {h : Nat} {t : SumTree T S} {ts : List (SumTree T S)}

theorem height_eq (hwf : Wf h t) : t.height = h := by
  cases hwf <;> rfl

theorem summary_eq (hwf : Wf h t) : t.summary = sumOf t.flat := by
  cases hwf <;> simp only [summary, flat]

omit [Summary S] [Item T S] in
theorem flatAll_ne_nil (hts : ts ≠ []) (hwf : ∀ t ∈ ts, t.flat ≠ []) : flatAll ts ≠ [] := by
  obtain ⟨t, ts, rfl⟩ := exists_cons_of_ne_nil hts
  exact append_ne_nil_of_left_ne_nil (hwf t mem_cons_self) _

theorem flat_ne_nil (hwf : Wf h t) : t.flat ≠ [] := by
  induction hwf with
  | leaf hne _ => exact hne
  | internal hne _ _ ih => exact flatAll_ne_nil hne ih

theorem not_isEmpty (hwf : Wf h t) : t.isEmpty = false := by
  cases hwf with
  | leaf hne _ => simpa [isEmpty] using hne
  | internal _ _ _ => rfl

theorem sum_summaries [LawfulSummary S] (hwf : ∀ t ∈ ts, Wf h t) :
    sum (ts.map summary) = sumOf (flatAll ts) := by
  have key : ∀ z : S, (ts.map summary).foldl Summary.addSummary z =
      ((flatAll ts).map Item.summary).foldl Summary.addSummary z := by
    induction ts with
    | nil =>
      intro z
      rfl
    | cons t ts ih =>
      intro z
      have ht := hwf t mem_cons_self
      rw [map_cons, foldl_cons, ih fun u hu => hwf u (mem_cons_of_mem _ hu), flatAll,
        map_append, foldl_append, foldl_add z (by simpa using ht.flat_ne_nil), ht.summary_eq]
      rfl
  exact key Summary.zero

theorem node [LawfulSummary S] (hne : ts ≠ []) (hlen : ts.length ≤ 2 * TREE_BASE) (hwf : ∀ t ∈ ts, Wf h t) :
    Wf (h + 1) (.internal (h + 1) (sum (ts.map summary)) (ts.map summary) ts) := by
  rw [sum_summaries hwf]
  exact .internal hne hlen hwf

theorem leafItems_eq (hwf : Wf 0 t) :
    t.leafItems = some t.flat ∧ t.childSummaries = t.flat.map Item.summary ∧ t.flat.length ≤ 2 * TREE_BASE := by
  cases hwf with
  | leaf hne hlen => exact ⟨by simp only [leafItems, flat], by simp only [childSummaries, flat], by simpa only [flat] using hlen⟩

theorem children (hwf : Wf (h + 1) t) : ∃ ts, t = .internal (h + 1) (sumOf (flatAll ts)) (ts.map summary) ts ∧
    ts ≠ [] ∧ ts.length ≤ 2 * TREE_BASE ∧ ∀ u ∈ ts, Wf h u := by
  cases hwf with
  | internal hne hlen hwf => exact ⟨_, rfl, hne, hlen, hwf⟩

theorem items (hwf : Wf 0 t) : ∃ is, t = .leaf (sumOf is) is (is.map Item.summary) ∧ is ≠ [] ∧
    is.length ≤ 2 * TREE_BASE := by
  cases hwf with
  | leaf hne hlen => exact ⟨_, rfl, hne, hlen⟩

end Wf

end SumTree

end SpkEditor
