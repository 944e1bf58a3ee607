import SpkEditor.SumTree.Cursor
import SpkEditor.SumTree.Wf

/-!
# Where a cursor stands

`Path` is a stack of nodes from the root down to a subtree, with what comes before the
subtree and after it. The position of every node on it is the one of the child that the
path goes through. A cursor stands (`Stands`)

* nowhere yet, or before the first item, where `prev` may take it;
* at an index: on the stack are the leaf with the item and the path to that leaf. The
  position of the leaf's own entry is never read, and may be anything;
* behind the last item, with nothing on the stack. After a seek from before the first
  item it is there with a position that is not the end: the cursor is lost.
-/

namespace SpkEditor

open List

/-- What is known about measuring summaries along a dimension. -/
class LawfulDimension (D S : Type) [Summary S] [Dimension D S] : Prop where
  add_add : ∀ (d : D) (a b : S), Dimension.addSummary (Dimension.addSummary d a) b =
    Dimension.addSummary d (Summary.addSummary a b)
  zero_zero : Dimension.addSummary (Dimension.zero S : D) (Summary.zero : S) = Dimension.zero S

variable {T S D : Type} [Summary S] [Item T S] [Dimension D S]

/-- A position, after items. -/
def after (d : D) (items : List T) : D := items.foldl (fun d item => Dimension.addSummary d (Item.summary item)) d

/-- The position after the first items of a tree. -/
def cum (items : List T) : D := after (Dimension.zero S) items

omit [Summary S] in
theorem after_append (d : D) (items items' : List T) : after d (items ++ items') = after (after d items) items' :=
  foldl_append

omit [Summary S] in
theorem cum_append (items items' : List T) : (cum (items ++ items') : D) = after (cum items) items' :=
  after_append _ items items'

omit [Summary S] in
theorem after_map (d : D) (items : List T) : (items.map Item.summary).foldl Dimension.addSummary d = after d items :=
  foldl_map

omit [Summary S] in
theorem cum_take_succ {items : List T} {k : Nat} {x : T} (h : items[k]? = some x) (pre : List T) :
    (cum (pre ++ items.take (k + 1)) : D) = Dimension.addSummary (cum (pre ++ items.take k)) (Item.summary x) := by
  rw [take_add_one, h, ← append_assoc, cum_append]
  rfl

section Lawful

variable [LawfulDimension D S]

theorem add_foldl_summary (d : D) (s : S) (l : List S) :
    Dimension.addSummary d (l.foldl Summary.addSummary s) = l.foldl Dimension.addSummary (Dimension.addSummary d s) := by
  induction l generalizing s with
  | nil => rfl
  | cons a l ih => rw [foldl_cons, foldl_cons, ih, LawfulDimension.add_add]

theorem add_sumOf [LawfulSummary S] (d : D) {items : List T} (h : items ≠ []) :
    Dimension.addSummary d (sumOf items : S) = after d items := by
  obtain ⟨x, items, rfl⟩ := exists_cons_of_ne_nil h
  rw [sumOf, sum, map_cons, foldl_cons, LawfulSummary.zero_add, add_foldl_summary, after_map]
  rfl

end Lawful

namespace SumTree

theorem Wf.add_summary [LawfulSummary S] [LawfulDimension D S] {h : Nat} {t : SumTree T S} (hwf : Wf h t) (d : D) :
    Dimension.addSummary d t.summary = after d t.flat := by
  rw [hwf.summary_eq, add_sumOf d hwf.flat_ne_nil]

theorem Wf.foldl_summaries [LawfulSummary S] [LawfulDimension D S] {h : Nat} {ts : List (SumTree T S)}
    (hwf : ∀ t ∈ ts, Wf h t) (d : D) : (ts.map summary).foldl Dimension.addSummary d = after d (flatAll ts) := by
  induction ts generalizing d with
  | nil =>
    rfl
  | cons t ts ih =>
    rw [map_cons, foldl_cons, ih fun u hu => hwf u (mem_cons_of_mem _ hu),
      (hwf t mem_cons_self).add_summary, flatAll, after_append]

/-- The stack above a subtree of some height, with the items before it and those after. -/
inductive Path (t : SumTree T S) : List (StackEntry T S D) → Nat → SumTree T S → List T → List T → Prop where
  | root {h : Nat} : Wf h t → Path t [] h t [] []
  | child {rest : List (StackEntry T S D)} {h : Nat} {s : S} {ls rs : List (SumTree T S)} {u : SumTree T S}
      {pre post : List T} :
      Path t rest (h + 1) (internal (h + 1) s ((ls ++ u :: rs).map summary) (ls ++ u :: rs)) pre post →
      Path t (⟨internal (h + 1) s ((ls ++ u :: rs).map summary) (ls ++ u :: rs), ls.length,
        cum (pre ++ flatAll ls)⟩ :: rest) h u (pre ++ flatAll ls) (flatAll rs ++ post)

namespace Path

variable {t u : SumTree T S} {rest : List (StackEntry T S D)} {h : Nat} {pre post : List T}

section

variable (hp : Path t rest h u pre post)
include hp

theorem wf : Wf h u := by
  induction hp with
  | root hwf => exact hwf
  | child _ ih =>
    obtain ⟨_, heq, _, _, hwf⟩ := ih.children
    obtain ⟨_, _, _, rfl⟩ := SumTree.internal.inj heq
    exact hwf _ (by simp)

theorem root_wf : Wf t.height t := by
  induction hp with
  | root hwf => rwa [hwf.height_eq]
  | child _ ih => exact ih

theorem length_eq : rest.length + h = t.height := by
  induction hp with
  | root hwf => rw [hwf.height_eq, length_nil, Nat.zero_add]
  | child _ ih =>
    rw [length_cons]
    omega

theorem flat_eq : t.flat = pre ++ u.flat ++ post := by
  induction hp with
  | root _ => simp
  | child _ ih =>
    rw [ih, flat, flatAll_append, flatAll]
    simp only [append_assoc]

end

theorem step (hp : Path t rest (h + 1) u pre post) (ls : List (SumTree T S)) (v : SumTree T S)
    (rs : List (SumTree T S)) (hts : u.childTrees = some (ls ++ v :: rs)) :
    Path t (⟨u, ls.length, cum (pre ++ flatAll ls)⟩ :: rest) h v (pre ++ flatAll ls) (flatAll rs ++ post) := by
  obtain ⟨ts, rfl, _, _, _⟩ := hp.wf.children
  obtain rfl : ts = ls ++ v :: rs := Option.some.inj hts
  exact .child hp

/-- The position that `search_backward` starts to count from. -/
theorem base_eq (hp : Path t rest h u pre post) : TreeCursor.parentPosition rest = (cum pre : D) := by
  cases hp <;> rfl

end Path

end SumTree

inductive Place where
  | fresh
  | before
  | at (i : Nat)
  | lost
  deriving DecidableEq

/-- Where a seek may go on from. -/
def Place.index : Place → Option Nat
  | fresh => some 0
  | .at i => some i
  | _ => none

/-- A step forward over so many items. -/
def Place.next (n : Nat) : Place → Place
  | fresh => .at 0
  | before => .at 0
  | .at i => .at (min (i + 1) n)
  | lost => lost

/-- A step backward. -/
def Place.prev (n : Nat) : Place → Place
  | fresh => .at (n - 1)
  | before => before
  | .at 0 => if n = 0 then .at 0 else before
  | .at (i + 1) => .at i
  | lost => .at (n - 1)

inductive Stands (t : SumTree T S) : TreeCursor T S D → Place → Prop where
  | fresh : Stands t (TreeCursor.new t) .fresh
  | before : t.isEmpty = false → Stands t ⟨t, [], Dimension.zero S, true, false⟩ .before
  | at {u : SumTree T S} {rest : List (StackEntry T S D)} {pre post : List T} {k : Nat} {q : D} :
      SumTree.Path t rest 0 u pre post → k < u.flat.length →
      Stands t ⟨t, ⟨u, k, q⟩ :: rest, cum (pre ++ u.flat.take k), true, false⟩ (.at (pre.length + k))
  | end : Stands t ⟨t, [], cum t.flat, true, true⟩ (.at t.flat.length)
  | lost {d : D} : Stands t ⟨t, [], d, true, true⟩ .lost

end SpkEditor
