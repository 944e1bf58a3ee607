import SpkEditor.SumTree.Build
import SpkEditor.SumTree.CursorPath

/-!
# Looking around from a cursor

What a cursor shows at an index is what the list of the tree's items has there.
-/

namespace SpkEditor

open SumTree List

variable {T S D : Type} [Summary S] [Item T S] [Dimension D S]

/-! ## At a place of a list -/

namespace Place

def item (l : List T) : Place → Option T
  | .at i => l[i]?
  | _ => none

def start (l : List T) : Place → D
  | .at i => cum (l.take i)
  | _ => Dimension.zero S

def «end» (l : List T) : Place → D
  | .at i => cum (l.take (i + 1))
  | _ => Dimension.zero S

def prevItem (l : List T) : Place → Option T
  | .at (i + 1) => l[i]?
  | _ => none

def nextItem (l : List T) : Place → Option T
  | .at i => l[i + 1]?
  | _ => l[0]?

omit [Summary S] [Item T S] in
theorem prevItem_append (a b : List T) : prevItem (a ++ b) (.at a.length) = a.getLast? := by
  rw [getLast?_eq_getElem?]
  rcases a with _ | ⟨x, a⟩
  · rfl
  · exact getElem?_append_left (by simp)

end Place

structure Shows (c : TreeCursor T S D) (l : List T) (p : Place) : Prop where
  item : c.item = some (p.item l)
  start : c.start = p.start l
  «end» : c.end = some (p.end l)
  prevItem : c.prevItem = some (p.prevItem l)
  nextItem : c.nextItem = some (p.nextItem l)

omit [Summary S] [Item T S] in
@[simp] theorem leafItems_leaf (s : S) (is : List T) (ss : List S) : (leaf s is ss).leafItems = some is := rfl

namespace TreeCursor

variable {t u : SumTree T S} {rest : List (StackEntry T S D)} {h : Nat} {pre post : List T} {c : TreeCursor T S D} {i : Nat}

/-! ## The item itself -/

section

variable {is : List T} (hp : Path t rest 0 (leaf (sumOf is) is (is.map Item.summary)) pre post)
  {k : Nat}
include hp

theorem getElem?_path (hk : k < is.length) : t.flat[pre.length + k]? = is[k]? := by
  rw [hp.flat_eq, flat, append_assoc, getElem?_append_right (by omega), getElem?_append_left (by omega),
    Nat.add_sub_cancel_left]

theorem take_path (hk : k ≤ is.length) : t.flat.take (pre.length + k) = pre ++ is.take k := by
  rw [hp.flat_eq, flat, append_assoc, take_length_add_append, take_append_of_le_length hk]

end

section

variable (hs : Stands t c (.at i))
include hs

theorem item_at : c.item = some t.flat[i]? := by
  cases hs with
  | «at» hp hk =>
    obtain ⟨is, rfl, _, _⟩ := hp.wf.items
    simp only [flat] at hk
    rw [getElem?_path hp hk]
    simp [item, leafItems, getAt, ne_of_lt hk, getElem?_eq_getElem hk]
  | «end» => simp [item]

theorem itemSummary_at : c.itemSummary = some (t.flat[i]?.map Item.summary) := by
  cases hs with
  | «at» hp hk =>
    obtain ⟨is, rfl, _, _⟩ := hp.wf.items
    simp only [flat] at hk
    rw [getElem?_path hp hk]
    simp [itemSummary, getAt, ne_of_lt hk, getElem?_eq_getElem hk]
  | «end» => simp [itemSummary]

theorem position_at : c.position = cum (t.flat.take i) := by
  cases hs with
  | «at» hp hk =>
    obtain ⟨is, rfl, _, _⟩ := hp.wf.items
    simp only [flat] at hk ⊢
    rw [take_path hp (le_of_lt hk)]
  | «end» => rw [take_length]

end

omit [Summary S] in
theorem behind_getElem? (l : List T) (i : Nat) :
    behind (cum (l.take i) : D) (l[i]?.map (Item.summary : T → S)) = cum (l.take (i + 1)) := by
  cases hx : l[i]? with
  | none =>
    have hlen := List.getElem?_eq_none_iff.1 hx
    rw [take_of_length_le hlen, take_of_length_le (Nat.le_succ_of_le hlen)]
    rfl
  | some x => exact (cum_take_succ hx []).symm

theorem end_at (hs : Stands t c (.at i)) : c.end = some (cum (t.flat.take (i + 1))) := by
  rw [TreeCursor.end, itemSummary_at hs, start, position_at hs, Option.map_some, behind_getElem?]

/-! ## The items beside it -/

theorem nextLeaf_spec (hp : Path t rest h u pre post) : ∃ r, nextLeaf rest = some r ∧
    (r = none ∧ post = [] ∨ ∃ v more, r = some v ∧ Wf 0 v ∧ post = v.flat ++ more) := by
  induction hp with
  | root _ => exact ⟨none, rfl, .inl ⟨rfl, rfl⟩⟩
  | @child rest h s ls rs u pre post hp ih =>
    rcases rs with _ | ⟨r, rs⟩
    · obtain ⟨r, hr, hpost⟩ := ih
      refine ⟨r, ?_, by simpa [flatAll] using hpost⟩
      simpa [nextLeaf, childTrees] using hr
    · obtain ⟨_, heq, _, _, hwf⟩ := hp.wf.children
      obtain ⟨_, _, _, rfl⟩ := SumTree.internal.inj heq
      obtain ⟨v, hv, hvwf, more, hmore⟩ := leftmostLeaf_spec (hwf r (by simp))
      refine ⟨some v, ?_, .inr ⟨v, more ++ flatAll rs ++ post, rfl, hvwf, by simp [flatAll, hmore]⟩⟩
      have hr : (ls ++ u :: r :: rs)[ls.length + 1]? = some r := by simp
      have hlt : ls.length < (ls ++ u :: r :: rs).length - 1 := by simp
      have hne : (ls ++ u :: r :: rs).length ≠ 0 := by simp
      simp only [nextLeaf, childTrees, Option.bind_some, if_neg hne, if_pos hlt, hr, hv, Option.map_some]

theorem prevLeaf_spec (hp : Path t rest h u pre post) : ∃ r, prevLeaf rest = some r ∧
    (r = none ∧ pre = [] ∨ ∃ v init, r = some v ∧ Wf 0 v ∧ pre = init ++ v.flat) := by
  induction hp with
  | root _ => exact ⟨none, rfl, .inl ⟨rfl, rfl⟩⟩
  | @child rest h s ls rs u pre post hp ih =>
    rcases eq_nil_or_concat' ls with rfl | ⟨ls, w, rfl⟩
    · obtain ⟨r, hr, hpre⟩ := ih
      refine ⟨r, ?_, by simpa [flatAll] using hpre⟩
      simpa [prevLeaf] using hr
    · obtain ⟨_, heq, _, _, hwf⟩ := hp.wf.children
      obtain ⟨_, _, _, rfl⟩ := SumTree.internal.inj heq
      obtain ⟨v, hv, hvwf, init, hinit⟩ := rightmostLeaf_spec (hwf w (by simp))
      refine ⟨some v, ?_, .inr ⟨v, pre ++ flatAll ls ++ init, rfl, hvwf, by simp [hinit]⟩⟩
      have hw : (ls ++ [w] ++ u :: rs)[(ls ++ [w]).length - 1]? = some w := by simp
      have hne : (ls ++ [w]).length ≠ 0 := by simp
      simp only [prevLeaf, ne_eq, hne, not_false_eq_true, if_true, childTrees, Option.bind_some, hw, hv,
        Option.map_some]

theorem nextItem_at (hs : Stands t c (.at i)) : c.nextItem = some t.flat[i + 1]? := by
  cases hs with
  | @«at» u rest pre post k q hp hk =>
    obtain ⟨is, rfl, hne, _⟩ := hp.wf.items
    simp only [flat] at hk
    by_cases hlast : k = is.length - 1
    · obtain ⟨r, hr, hpost⟩ := nextLeaf_spec hp
      have hafter : t.flat[pre.length + k + 1]? = post.head? := by
        rw [hp.flat_eq, flat, getElem?_append_right (by simp; omega), head?_eq_getElem?]
        congr 1
        simp only [length_append]
        omega
      rw [hafter]
      rcases hpost with ⟨rfl, rfl⟩ | ⟨v, more, rfl, hvwf, rfl⟩
      · simp [nextItem, hne, hlast, hr]
      · have hhead : ∃ x, v.flat.head? = some x := ⟨_, head?_eq_some_head hvwf.flat_ne_nil⟩
        obtain ⟨x, hx⟩ := hhead
        simp [nextItem, hne, hlast, hr, hvwf.leafItems_eq.1, hx]
    · rw [add_assoc, getElem?_path hp (by omega)]
      simp [nextItem, hne, hlast, getElem?_eq_getElem (show k + 1 < is.length by omega)]
  | «end» => simp [nextItem]

theorem prevItem_at (hok : Ok t) (hs : Stands t c (.at i)) : c.prevItem = some (Place.prevItem t.flat (.at i)) := by
  cases hs with
  | @«at» u rest pre post k q hp hk =>
    obtain ⟨is, rfl, hne, _⟩ := hp.wf.items
    simp only [flat] at hk
    cases k with
    | zero =>
      obtain ⟨r, hr, hpre⟩ := prevLeaf_spec hp
      rw [add_zero, hp.flat_eq, append_assoc, Place.prevItem_append]
      rcases hpre with ⟨rfl, rfl⟩ | ⟨v, init, rfl, hvwf, rfl⟩
      · simp [prevItem, hr]
      · have hlast : ∃ x, v.flat.getLast? = some x := ⟨_, getLast?_eq_some_getLast hvwf.flat_ne_nil⟩
        obtain ⟨x, hx⟩ := hlast
        simp [prevItem, hr, hvwf.leafItems_eq.1, hx]
    | succ k =>
      rw [← add_assoc, Place.prevItem, getElem?_path hp (by omega)]
      simp [prevItem, getElem?_eq_getElem (show k < is.length by omega)]
  | «end» =>
    rcases hok with rfl | ⟨h, hwf⟩
    · simp [prevItem, SumTree.new, SumTree.last, rightmostLeaf, leafItems, flat, Place.prevItem]
    · have hne : t.flat.length ≠ 0 := by simpa using hwf.flat_ne_nil
      obtain ⟨n, hn⟩ := Nat.exists_eq_succ_of_ne_zero hne
      rw [hn, Place.prevItem]
      simp [prevItem, last_spec hwf, getLast?_eq_getElem?, hn]

theorem shows_at (hok : Ok t) (hs : Stands t c (.at i)) : Shows c t.flat (.at i) where
  item := item_at hs
  start := position_at hs
  «end» := end_at hs
  prevItem := prevItem_at hok hs
  nextItem := nextItem_at hs

theorem shows_before (hok : Ok t) (hs : Stands t c .before) : Shows c t.flat .before := by
  cases hs with
  | before hne =>
    rcases hok with rfl | ⟨h, hwf⟩
    · simp [SumTree.new, SumTree.isEmpty] at hne
    · exact ⟨rfl, rfl, rfl, rfl, by simp [nextItem, Place.nextItem, first_spec hwf, head?_eq_getElem?]⟩

end TreeCursor

end SpkEditor
