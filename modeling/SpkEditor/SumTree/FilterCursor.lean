import SpkEditor.SumTree.CursorRefines

/-!
# Cursors with a filter

`next` from a new cursor goes through the items that the filter wants from the first to the last,
and `prev` from the last to the first. What is still to come is kept as a list with each item's
position; a step takes one off (`Ahead.next`, `Back.prev`).
-/

namespace SpkEditor

open SumTree List

structure FilterCursor (T S D : Type) where
  cursor : TreeCursor T S D
  filterNode : S → Bool

/-- A step that may fail, so many times. -/
def times {α : Type} (step : α → Option α) : Nat → α → Option α
  | 0, a => some a
  | n + 1, a => (times step n a).bind step

variable {T S D : Type} [Summary S] [Item T S] [Dimension D S]

namespace FilterCursor

/-- `FilterCursor::new`. -/
def new (tree : SumTree T S) (filterNode : S → Bool) : FilterCursor T S D := ⟨TreeCursor.new tree, filterNode⟩

def start (c : FilterCursor T S D) : D := c.cursor.start

def item (c : FilterCursor T S D) : Option (Option T) := c.cursor.item

def next (c : FilterCursor T S D) : Option (FilterCursor T S D) :=
  (c.cursor.searchForward c.filterNode).map fun cursor => { c with cursor }

def prev (c : FilterCursor T S D) : Option (FilterCursor T S D) :=
  (c.cursor.searchBackward c.filterNode).map fun cursor => { c with cursor }

/-- `Iterator::next`. -/
def iterNext (c : FilterCursor T S D) : Option (Option T × FilterCursor T S D) :=
  (if c.cursor.didSeek then some c else c.next).bind fun c =>
    c.item.bind fun item =>
      if item.isSome then c.next.map fun c => (item, c) else some (none, c)

/-- One turn of a loop over the iterator. -/
def gatherTurn (st : FilterCursor T S D × List T) : Option ((FilterCursor T S D × List T) ⊕ List T) :=
  st.1.iterNext.map fun (item, c) => item.elim (.inr st.2) fun x => .inl (c, st.2 ++ [x])

def gather (fuel : Nat) (c : FilterCursor T S D) : Option (List T) := loop gatherTurn fuel (c, [])

end FilterCursor

/-- The items that the filter wants, each with the sum of all items before it. -/
def visits (filterNode : S → Bool) (before : D) : List T → List (T × D)
  | [] => []
  | x :: items =>
    if filterNode (Item.summary x) then
      (x, before) :: visits filterNode (Dimension.addSummary before (Item.summary x)) items
    else visits filterNode (Dimension.addSummary before (Item.summary x)) items

section

variable {filterNode : S → Bool} {t : SumTree T S} {pre post : List T} {c : FilterCursor T S D} {l : List (T × D)}

omit [Summary S] in
theorem visits_append (before : D) (pre post : List T) :
    visits filterNode before (pre ++ post) = visits filterNode before pre ++ visits filterNode (after before pre) post := by
  induction pre generalizing before with
  | nil => rfl
  | cons x pre ih =>
    rw [cons_append, visits, visits, ih]
    cases filterNode (Item.summary x) <;> rfl

omit [Summary S] in
theorem visits_unwanted (h : Unwanted filterNode pre) (before : D) : visits filterNode before pre = [] := by
  induction pre generalizing before with
  | nil => rfl
  | cons x pre ih =>
    rw [visits, h x mem_cons_self, if_neg Bool.false_ne_true]
    exact ih (fun y hy => h y (mem_cons_of_mem _ hy)) _

omit [Summary S] in
theorem visits_items (before : D) (items : List T) :
    (visits filterNode before items).map Prod.fst = items.filter fun x => filterNode (Item.summary x) := by
  induction items generalizing before with
  | nil => rfl
  | cons x items ih =>
    rw [visits, filter_cons]
    cases filterNode (Item.summary x)
    · exact ih _
    · exact congrArg (x :: ·) (ih _)

omit [Summary S] in
theorem visits_split {y : T} (hy : filterNode (Item.summary y) = true) (before : D) (pre post : List T) :
    visits filterNode before (pre ++ y :: post) =
      visits filterNode before pre ++ (y, after before pre) :: visits filterNode (after before (pre ++ [y])) post := by
  rw [visits_append, visits, if_pos hy, after_append]
  rfl

theorem Stands.didSeek {c : TreeCursor T S D} {p : Place} (hs : Stands t c p) (hp : p ≠ .fresh) :
    c.didSeek = true := by
  cases hs with
  | fresh => exact absurd rfl hp
  | before _ => rfl
  | «at» _ _ => rfl
  | «end» => rfl
  | lost => rfl

/-! ## Forward -/

/-- The cursor is at the first of the items to come, or at the end when there is none. -/
inductive Ahead (filterNode : S → Bool) (t : SumTree T S) : FilterCursor T S D → List (T × D) → Prop where
  | at {pre : List T} {y : T} {post : List T} {c : TreeCursor T S D} :
      t.flat = pre ++ y :: post → Stands t c (.at pre.length) →
      Ahead filterNode t ⟨c, filterNode⟩ ((y, cum pre) :: visits filterNode (cum (pre ++ [y])) post)
  | end {c : TreeCursor T S D} : Stands t c (.at t.flat.length) → Ahead filterNode t ⟨c, filterNode⟩ []

namespace Ahead

section

variable (ha : Ahead filterNode t c l)
include ha

theorem item : c.item = some (l.head?.map Prod.fst) := by
  cases ha with
  | «at» hflat hs =>
    rw [FilterCursor.item, TreeCursor.item_at hs, hflat, getElem?_append_right (le_refl _), Nat.sub_self]
    rfl
  | «end» hs =>
    rw [FilterCursor.item, TreeCursor.item_at hs, getElem?_eq_none (le_refl _)]
    rfl

theorem start : c.start = (l.head?.map Prod.snd).getD (cum t.flat) := by
  cases ha with
  | «at» hflat hs =>
    rw [FilterCursor.start, TreeCursor.start, TreeCursor.position_at hs, hflat, take_left]
    rfl
  | «end» hs =>
    rw [FilterCursor.start, TreeCursor.start, TreeCursor.position_at hs, take_length]
    rfl

theorem didSeek : c.cursor.didSeek = true := by
  cases ha with
  | «at» _ hs => exact hs.didSeek (fun h => nomatch h)
  | «end» hs => exact hs.didSeek (fun h => nomatch h)

end

theorem of_ends {c : TreeCursor T S D} (hflat : t.flat = pre ++ post) (hs : SearchEnds filterNode t pre post c) :
    Ahead filterNode t ⟨c, filterNode⟩ (visits filterNode (cum pre) post) := by
  rcases hs with ⟨xs, y, ys, rfl, hxs, hy, hst⟩ | ⟨hun, hst⟩
  · rw [visits_split hy, visits_unwanted hxs, nil_append, ← cum_append, ← cum_append, ← append_assoc]
    exact .at (by rw [hflat, append_assoc]) hst
  · rw [visits_unwanted hun]
    exact .end hst

variable [LawfulSummary S] [LawfulDimension D S]

theorem first (hok : t.Ok) (hcap : t.height < STACK_CAPACITY) (hcov : Covers filterNode t) :
    ∃ c : FilterCursor T S D, (FilterCursor.new t filterNode).next = some c ∧
      Ahead filterNode t c (visits filterNode (Dimension.zero S) t.flat) := by
  obtain ⟨c, hc, hs⟩ := TreeCursor.searchForward_spec hok hcap hcov.skippable (D := D) .fresh (i := 0) rfl
  exact ⟨_, by rw [FilterCursor.next, FilterCursor.new, hc]; rfl, of_ends (nil_append _).symm hs⟩

theorem next (ha : Ahead filterNode t c l) (hok : t.Ok) (hcap : t.height < STACK_CAPACITY)
    (hcov : Covers filterNode t) : ∃ c', c.next = some c' ∧ Ahead filterNode t c' l.tail := by
  cases ha with
  | @«at» pre y post c hflat hs =>
    have hpre : t.flat.take (pre.length + 1) = pre ++ [y] := by
      rw [hflat, take_length_add_append]
      rfl
    have hpost : t.flat.drop (pre.length + 1) = post := by
      rw [hflat, drop_length_add_append]
      rfl
    have hlen := congrArg List.length hflat
    rw [length_append, length_cons] at hlen
    obtain ⟨c', hc, hends⟩ := TreeCursor.searchForward_spec hok hcap hcov.skippable hs (i := pre.length + 1)
      (by rw [Place.next, min_eq_left (by omega)])
    rw [hpre, hpost] at hends
    exact ⟨_, by rw [FilterCursor.next, hc]; rfl, of_ends (by rw [hflat]; simp) hends⟩
  | @«end» c hs =>
    obtain ⟨c', hc, hends⟩ := TreeCursor.searchForward_spec hok hcap hcov.skippable hs (i := t.flat.length)
      (by rw [Place.next, min_eq_right (Nat.le_succ _)])
    rw [take_length, drop_length] at hends
    exact ⟨_, by rw [FilterCursor.next, hc]; rfl, of_ends (append_nil _).symm hends⟩

end Ahead

/-! ## Backward -/

/-- The same for `prev`; on a tree without items the cursor is at the end as well. -/
inductive Back (filterNode : S → Bool) (t : SumTree T S) : FilterCursor T S D → List (T × D) → Prop where
  | at {pre : List T} {y : T} {post : List T} {c : TreeCursor T S D} :
      t.flat = pre ++ y :: post → Stands t c (.at pre.length) →
      Back filterNode t ⟨c, filterNode⟩ ((y, cum pre) :: (visits filterNode (Dimension.zero S) pre).reverse)
  | before {c : TreeCursor T S D} : Stands t c .before → Back filterNode t ⟨c, filterNode⟩ []
  | empty : t = SumTree.new → Back filterNode t ⟨⟨t, [], cum t.flat, true, true⟩, filterNode⟩ []

namespace Back

theorem item (hb : Back filterNode t c l) (hok : t.Ok) : c.item = some (l.head?.map Prod.fst) := by
  cases hb with
  | «at» hflat hs =>
    rw [FilterCursor.item, TreeCursor.item_at hs, hflat, getElem?_append_right (le_refl _), Nat.sub_self]
    rfl
  | before hs => exact (TreeCursor.shows_before hok hs).item
  | empty ht => rfl

theorem start (hb : Back filterNode t c l) (hok : t.Ok) : c.start = (l.head?.map Prod.snd).getD (Dimension.zero S) := by
  cases hb with
  | «at» hflat hs =>
    rw [FilterCursor.start, TreeCursor.start, TreeCursor.position_at hs, hflat, take_left]
    rfl
  | before hs => exact (TreeCursor.shows_before hok hs).start
  | empty ht =>
    subst ht
    rfl

theorem of_ends {c : TreeCursor T S D} (hflat : t.flat = pre ++ post) (hs : SearchBackEnds filterNode t pre c) :
    Back filterNode t ⟨c, filterNode⟩ (visits filterNode (Dimension.zero S) pre).reverse := by
  rcases hs with ⟨xs, y, ys, rfl, hys, hy, hst⟩ | ⟨hun, hst⟩
  · rw [visits_split hy, visits_unwanted hys, reverse_append, reverse_singleton]
    exact .at (by rw [hflat, append_assoc]; rfl) hst
  · rw [visits_unwanted hun]
    exact .before hst

variable [LawfulSummary S] [LawfulDimension D S]

theorem last (hok : t.Ok) (hcap : t.height < STACK_CAPACITY) (hcov : Covers filterNode t) :
    ∃ c : FilterCursor T S D, (FilterCursor.new t filterNode).prev = some c ∧
      Back filterNode t c (visits filterNode (Dimension.zero S) t.flat).reverse := by
  rcases hok with rfl | ⟨h, hwf⟩
  · exact ⟨_, rfl, .empty rfl⟩
  · obtain ⟨c, hc, hs⟩ := TreeCursor.searchBackward_spec hwf hcap hcov.skippable (D := D) .fresh
    rw [Place.behind, take_length] at hs
    exact ⟨_, by rw [FilterCursor.prev, FilterCursor.new, hc]; rfl, of_ends (append_nil _).symm hs⟩

theorem prev (hb : Back filterNode t c l) (hok : t.Ok) (hcap : t.height < STACK_CAPACITY)
    (hcov : Covers filterNode t) : ∃ c', c.prev = some c' ∧ Back filterNode t c' l.tail := by
  cases hb with
  | @«at» pre y post c hflat hs =>
    obtain ⟨h, hwf⟩ := hok.resolve_left fun hnew => by
      rw [hnew] at hflat
      simp [SumTree.new, flat] at hflat
    obtain ⟨c', hc, hends⟩ := TreeCursor.searchBackward_spec hwf hcap hcov.skippable hs
    rw [Place.behind, hflat, take_left] at hends
    exact ⟨_, by rw [FilterCursor.prev, hc]; rfl, of_ends hflat hends⟩
  | @before c hs =>
    obtain ⟨h, hwf⟩ := hok.resolve_left fun hnew => by
      subst hnew
      cases hs with
      | before hne => exact absurd hne (by simp [SumTree.new, SumTree.isEmpty])
    obtain ⟨c', hc, hends⟩ := TreeCursor.searchBackward_spec hwf hcap hcov.skippable hs
    exact ⟨_, by rw [FilterCursor.prev, hc]; rfl, of_ends (nil_append _).symm hends⟩
  | empty ht =>
    subst ht
    exact ⟨_, rfl, .empty rfl⟩

end Back

/-! ## All the way -/

variable [LawfulSummary S] [LawfulDimension D S]

section

variable (hok : t.Ok) (hcap : t.height < STACK_CAPACITY) (hcov : Covers filterNode t) (k : Nat)
include hok hcap hcov

theorem times_next :
    ∃ c : FilterCursor T S D, times FilterCursor.next (k + 1) (FilterCursor.new t filterNode) = some c ∧
      Ahead filterNode t c ((visits filterNode (Dimension.zero S) t.flat).drop k) := by
  induction k with
  | zero => exact Ahead.first hok hcap hcov
  | succ k ih =>
    obtain ⟨c, hc, ha⟩ := ih
    obtain ⟨c', hc', ha'⟩ := ha.next hok hcap hcov
    rw [tail_drop] at ha'
    exact ⟨c', by rw [times, hc]; exact hc', ha'⟩

theorem times_prev :
    ∃ c : FilterCursor T S D, times FilterCursor.prev (k + 1) (FilterCursor.new t filterNode) = some c ∧
      Back filterNode t c ((visits filterNode (Dimension.zero S) t.flat).reverse.drop k) := by
  induction k with
  | zero => exact Back.last hok hcap hcov
  | succ k ih =>
    obtain ⟨c, hc, hb⟩ := ih
    obtain ⟨c', hc', hb'⟩ := hb.prev hok hcap hcov
    rw [tail_drop] at hb'
    exact ⟨c', by rw [times, hc]; exact hc', hb'⟩

end

section

variable (ha : Ahead filterNode t c l) (hok : t.Ok) (hcap : t.height < STACK_CAPACITY)
  (hcov : Covers filterNode t)
include ha hok hcap hcov

theorem Ahead.iterNext :
    ∃ c', c.iterNext = some (l.head?.map Prod.fst, c') ∧ Ahead filterNode t c' l.tail := by
  obtain ⟨c', hc', ha'⟩ := ha.next hok hcap hcov
  rw [FilterCursor.iterNext, if_pos ha.didSeek, Option.bind_some, ha.item, Option.bind_some]
  cases l with
  | nil => exact ⟨c, rfl, ha⟩
  | cons v l => exact ⟨c', by simp [hc'], ha'⟩

theorem Ahead.gather (items : List T) :
    loop FilterCursor.gatherTurn (l.length + 1) (c, items) = some (items ++ l.map Prod.fst) := by
  induction l generalizing c items with
  | nil =>
    obtain ⟨c', hc, -⟩ := ha.iterNext hok hcap hcov
    refine loop_done ?_ _
    rw [FilterCursor.gatherTurn, hc, map_nil, append_nil]
    rfl
  | cons v l ih =>
    obtain ⟨c', hc, ha'⟩ := ha.iterNext hok hcap hcov
    have hturn : FilterCursor.gatherTurn (c, items) = some (.inl (c', items ++ [v.1])) := by
      rw [FilterCursor.gatherTurn, hc]
      rfl
    have hrest := ih ha' (items ++ [v.1])
    rw [append_assoc] at hrest
    exact loop_next hturn hrest

end

section

variable (hok : t.Ok) (hcap : t.height < STACK_CAPACITY) (hcov : Covers filterNode t)
include hok hcap hcov

theorem gather_new : (FilterCursor.new t filterNode : FilterCursor T S D).gather
        ((t.flat.filter fun x => filterNode (Item.summary x)).length + 1) =
      some (t.flat.filter fun x => filterNode (Item.summary x)) := by
  obtain ⟨c, hc, ha⟩ := Ahead.first (D := D) hok hcap hcov
  have hiter : (FilterCursor.new t filterNode : FilterCursor T S D).iterNext = c.iterNext := by
    rw [FilterCursor.iterNext, FilterCursor.iterNext, if_pos ha.didSeek, hc]
    rfl
  have hturn : FilterCursor.gatherTurn (FilterCursor.new t filterNode, []) = FilterCursor.gatherTurn (c, []) := by
    rw [FilterCursor.gatherTurn, hiter]
    rfl
  have hgather := ha.gather hok hcap hcov []
  rw [nil_append, visits_items, ← @List.length_map _ _ (visits _ _ _) Prod.fst, visits_items] at hgather
  rw [FilterCursor.gather, loop, hturn]
  exact hgather

/-- **A filter cursor visits what the filter wants.** -/
theorem filter_cursor_visits :
    ((visits filterNode (Dimension.zero S : D) t.flat).map Prod.fst = t.flat.filter fun x => filterNode (Item.summary x)) ∧
    (∀ k, ∃ c : FilterCursor T S D, times FilterCursor.next (k + 1) (FilterCursor.new t filterNode) = some c ∧
      c.item = some ((visits filterNode (Dimension.zero S : D) t.flat)[k]?.map Prod.fst) ∧
      c.start = ((visits filterNode (Dimension.zero S) t.flat)[k]?.map Prod.snd).getD (cum t.flat)) ∧
    (∀ k, ∃ c : FilterCursor T S D, times FilterCursor.prev (k + 1) (FilterCursor.new t filterNode) = some c ∧
      c.item = some ((visits filterNode (Dimension.zero S : D) t.flat).reverse[k]?.map Prod.fst) ∧
      c.start = ((visits filterNode (Dimension.zero S) t.flat).reverse[k]?.map Prod.snd).getD (Dimension.zero S)) ∧
    (FilterCursor.new t filterNode : FilterCursor T S D).gather
        ((t.flat.filter fun x => filterNode (Item.summary x)).length + 1) =
      some (t.flat.filter fun x => filterNode (Item.summary x)) := by
  refine ⟨visits_items _ _, fun k => ?_, fun k => ?_, gather_new hok hcap hcov⟩
  · obtain ⟨c, hc, ha⟩ := times_next (D := D) hok hcap hcov k
    exact ⟨c, hc, by rw [ha.item, head?_drop], by rw [ha.start, head?_drop]⟩
  · obtain ⟨c, hc, hb⟩ := times_prev (D := D) hok hcap hcov k
    exact ⟨c, hc, by rw [hb.item hok, head?_drop], by rw [hb.start hok, head?_drop]⟩

end

end

open Width

theorem rows_within {u : SumTree Width Width} (hu : Within rows u) :
    u = rows ∨ u = leaf ⟨3⟩ [⟨1⟩, ⟨2⟩] [⟨1⟩, ⟨2⟩] ∨ u = leaf ⟨2⟩ [⟨2⟩] [⟨2⟩] := by
  induction hu with
  | refl => exact .inl rfl
  | child _ hmem ih =>
    rcases ih with heq | heq | heq
    · obtain ⟨-, -, -, rfl⟩ := SumTree.internal.inj heq
      simpa using Or.inr hmem
    · exact nomatch heq
    · exact nomatch heq

theorem filter_cursor_visits_rows : (∃ c : FilterCursor Width Width Width,
      times FilterCursor.next 2 (FilterCursor.new rows fun w => decide (2 ≤ w.value)) = some c ∧
        c.item = some (some ⟨2⟩) ∧ c.start = ⟨3⟩) ∧
    (∃ c : FilterCursor Width Width Width,
      times FilterCursor.prev 2 (FilterCursor.new rows fun w => decide (2 ≤ w.value)) = some c ∧
        c.item = some (some ⟨2⟩) ∧ c.start = ⟨1⟩) := by
  have hcov : Covers (fun w : Width => decide (2 ≤ w.value)) rows := by
    intro u hu x _ _
    rcases rows_within hu with rfl | rfl | rfl <;> rfl
  have h := filter_cursor_visits (D := Width) rows_ok (by decide) hcov
  exact ⟨h.2.1 1, h.2.2.1 1⟩

/-- A cursor over a tree that is higher than its stack has room for cannot be moved. -/
theorem filter_cursor_overflow : (tower 16).Ok ∧ Covers (fun _ : Width => true) (tower 16) ∧
      (FilterCursor.new (tower 16) fun _ => true : FilterCursor Width Width Width).next.isNone :=
  ⟨.inr ⟨16, tower_wf 16⟩, fun _ _ _ _ _ => rfl, rfl⟩

end SpkEditor
