import SpkEditor.SumTree.Keyed

/-!
# Keyed edits

A batch of edits is sorted by key and merged with the items of the tree in one pass of a cursor. What
is put in waits in a buffer, and goes into the new tree before the next items of the old one do. So
the new tree, the buffer and what is still to be merged together are always the merge of it all
(`Editing.Inv`).
-/

namespace SpkEditor

open SumTree KeyedList KeyedItem List

/-- `Edit`. -/
inductive SumTree.Edit (T K : Type) where
  | insert (item : T)
  | remove (key : K)

variable {T S K : Type} [Summary S] [Item T S] [LinearOrder K] [Dimension K S] [KeyedItem T K]

namespace SumTree.Edit

def key : SumTree.Edit T K → K
  | insert item => KeyedItem.key item
  | remove key => key

/-- What is filed under the key of an edit after it. -/
def item : SumTree.Edit T K → Option T
  | insert item => some item
  | remove _ => none

def change (edit : SumTree.Edit T K) : K × Option T := (edit.key, edit.item)

end SumTree.Edit

/-- `sort_unstable_by_key`: in the order of the keys, and among equal keys in any order. -/
structure SortByKey (T K : Type) [LinearOrder K] [KeyedItem T K] where
  sort : List (SumTree.Edit T K) → List (SumTree.Edit T K)
  perm : ∀ edits, (sort edits).Perm edits
  sorted : ∀ edits, (sort edits).Pairwise fun a b => a.key ≤ b.key

/-- What the loop of `edit` works on. -/
structure Editing (T S K : Type) where
  cursor : TreeCursor T S K
  newTree : SumTree T S
  bufferedItems : List T
  removed : List T

namespace Editing

def advance (st : Editing T S K) (newKey : K) (oldItem : Option T) : Option (Editing T S K × Option T) :=
  if oldItem.any fun oldItem => decide (key oldItem < newKey) then
    (st.newTree.extend st.bufferedItems).bind fun newTree =>
      (st.cursor.slice (compare newKey) .left).bind fun (cursor, slice) =>
        (newTree.append slice).bind fun newTree =>
          cursor.item.map fun oldItem => ({ st with cursor, newTree, bufferedItems := [] }, oldItem)
  else some (st, oldItem)

/-- Past the item under the key, if there is one. -/
def pass (st : Editing T S K) (newKey : K) (oldItem : Option T) : Option (Editing T S K) :=
  match oldItem with
  | none => some st
  | some oldItem =>
    if key oldItem = newKey then
      st.cursor.next.map fun cursor => { st with cursor, removed := st.removed ++ [oldItem] }
    else some st

def turn (st : Editing T S K) (edit : SumTree.Edit T K) : Option (Editing T S K) :=
  st.cursor.item.bind fun oldItem =>
    (st.advance edit.key oldItem).bind fun (st, oldItem) =>
      (st.pass edit.key oldItem).map fun st => { st with bufferedItems := st.bufferedItems ++ edit.item.toList }

end Editing

namespace SumTree

/-- `edit`: the tree, and what was removed. -/
def edit (sortByKey : SortByKey T K) (t : SumTree T S) (edits : List (SumTree.Edit T K)) : Option (SumTree T S × List T) :=
  if edits.isEmpty then some (t, [])
  else
    ((TreeCursor.new t).seek (compare (Dimension.zero S : K)) .left).bind fun (cursor, _) =>
      ((sortByKey.sort edits).foldlM Editing.turn ⟨cursor, SumTree.new, [], []⟩).bind fun st =>
        (st.newTree.extend st.bufferedItems).bind fun newTree =>
          st.cursor.suffix.bind fun (_, suffix) => (newTree.append suffix).map fun newTree => (newTree, st.removed)

/-- `insert_or_replace`: the tree, and what was replaced. -/
def insertOrReplace (t : SumTree T S) (item : T) : Option (SumTree T S × Option T) :=
  ((TreeCursor.new t).slice (compare (key item)) .left).bind fun (cursor, newTree) =>
    cursor.item.bind fun cursorItem =>
      let replaced := cursorItem.filter fun cursorItem => decide (key cursorItem = key item)
      (if replaced.isSome then cursor.next else some cursor).bind fun cursor =>
        (newTree.push item).bind fun newTree =>
          cursor.suffix.bind fun (_, suffix) => (newTree.append suffix).map fun newTree => (newTree, replaced)

/-- `remove`: the tree, and what was removed. -/
def remove (t : SumTree T S) (k : K) : Option (SumTree T S × Option T) :=
  ((TreeCursor.new t).slice (compare k) .left).bind fun (cursor, newTree) =>
    cursor.item.bind fun item =>
      let removed := item.filter fun item => decide (key item = k)
      (if removed.isSome then cursor.next else some cursor).bind fun cursor =>
        cursor.suffix.bind fun (_, suffix) => (newTree.append suffix).map fun newTree => (newTree, removed)

end SumTree

variable [LawfulSummary S] [LawfulKey T S K]

/-! ## One turn -/

/-- The cursor is behind what has been merged, and the new tree, what is buffered and the merge of what is left with
the edits to come make up the whole. -/
structure Editing.Inv (t : SumTree T S) (whole removed : List T) (st : Editing T S K) (edits : List (SumTree.Edit T K)) : Prop where
  newTree_ok : st.newTree.Ok
  stands : ∃ i, Stands t st.cursor (.at i) ∧
    st.newTree.flat ++ st.bufferedItems ++ amend key (t.flat.drop i) (edits.map SumTree.Edit.change) = whole ∧
    st.removed ++ taken key (t.flat.drop i) (edits.map SumTree.Edit.change) = removed

section

variable {t : SumTree T S} {whole removed : List T} {st : Editing T S K} {e : SumTree.Edit T K} {edits : List (SumTree.Edit T K)}
  {i : Nat} {k : K}

/-- After `advance` the cursor is at the first item that does not come before the key. -/
theorem Editing.advance_spec (hok : t.Ok) (hcap : t.height < STACK_CAPACITY) (hsorted : Sorted key t.flat)
    (hst : st.newTree.Ok) (hs : Stands t st.cursor (.at i)) (k : K) :
    ∃ st', st.advance k t.flat[i]? = some (st', (t.flat.drop i |>.dropWhile fun x => decide (key x < k)).head?) ∧
      st'.newTree.Ok ∧ st'.removed = st.removed ∧
      st'.newTree.flat ++ st'.bufferedItems =
        st.newTree.flat ++ st.bufferedItems ++ (t.flat.drop i).takeWhile (fun x => decide (key x < k)) ∧
      ∃ j, Stands t st'.cursor (.at j) ∧ t.flat.drop j = (t.flat.drop i).dropWhile fun x => decide (key x < k) := by
  rw [← head?_drop, Editing.advance]
  cases hd : t.flat.drop i with
  | nil => exact ⟨st, rfl, hst, rfl, (append_nil _).symm, i, hs, hd⟩
  | cons x l =>
    by_cases hx : key x < k
    · rw [if_pos (by simpa using hx)]
      have hxi : t.flat[i]? = some x := by rw [← head?_drop, hd]; rfl
      obtain ⟨newTree, hextend, hnew, hflat⟩ := extend_spec hst st.bufferedItems
      obtain ⟨c, slice, hslice, hs', hsok, hsflat⟩ := keyed_slice hok hcap hsorted hs rfl
        (le_trans (cum_le_key hsorted hxi) (le_of_lt hx)) rfl
      obtain ⟨newTree', happend, hnew', hflat'⟩ := append_spec hnew hsok
      have hdrop : t.flat.drop (i + ((t.flat.drop i).takeWhile fun x => decide (key x < k)).length) =
          (t.flat.drop i).dropWhile fun x => decide (key x < k) := by
        rw [← drop_drop, drop_length_takeWhile]
      refine ⟨⟨c, newTree', [], st.removed⟩, ?_, hnew', rfl, ?_, _, hs', by rw [hdrop, hd]⟩
      · refine Option.bind_eq_some_iff.mpr ⟨_, hextend, Option.bind_eq_some_iff.mpr ⟨_, hslice,
          Option.bind_eq_some_iff.mpr ⟨_, happend, ?_⟩⟩⟩
        rw [TreeCursor.item_at hs', ← head?_drop, hdrop, hd]
        rfl
      · rw [append_nil, hflat', hflat, hsflat, hd]
    · rw [if_neg (by simpa using hx), takeWhile_cons_of_neg (by simpa using hx),
        dropWhile_cons_of_neg (by simpa using hx), append_nil]
      exact ⟨st, rfl, hst, rfl, rfl, i, hs, hd⟩

omit [LawfulSummary S] [LawfulKey T S K] in
theorem Editing.pass_spec (hok : t.Ok) (hcap : t.height < STACK_CAPACITY) (hs : Stands t st.cursor (.at i)) (k : K) :
    ∃ c j, st.pass k t.flat[i]? = some { st with
        cursor := c
        removed := st.removed ++ (t.flat[i]?.filter fun x => decide (key x = k)).toList } ∧
      Stands t c (.at j) ∧ t.flat.drop j =
        if (t.flat[i]?.filter fun x => decide (key x = k)).isSome then t.flat.drop (i + 1) else t.flat.drop i := by
  cases hx : t.flat[i]? with
  | none => exact ⟨st.cursor, i, by simp [Editing.pass], hs, rfl⟩
  | some x =>
    have hlt := (List.getElem?_eq_some_iff.mp hx).1
    by_cases hk : key x = k
    · obtain ⟨c, hnext, hs'⟩ := TreeCursor.next_spec hok hcap hs
      rw [Place.next, min_eq_left hlt] at hs'
      refine ⟨c, i + 1, ?_, hs', ?_⟩
      · simp only [Editing.pass, if_pos hk, hnext, Option.map_some, Option.filter_some, decide_eq_true hk, if_true]
        rfl
      · simp [hk]
    · refine ⟨st.cursor, i, ?_, hs, ?_⟩
      · simp only [Editing.pass, if_neg hk, Option.filter_some, decide_eq_false hk, Bool.false_eq_true, if_false,
          Option.toList_none, append_nil]
      · simp [hk]

omit [LawfulSummary S] [LawfulKey T S K] in
theorem above_eq (k : K) (l : List T) : above key k l =
    if ((l.dropWhile fun x => decide (key x < k)).head?.filter fun x => decide (key x = k)).isSome then
      (l.dropWhile fun x => decide (key x < k)).tail
    else l.dropWhile fun x => decide (key x < k) := by
  rw [above]
  cases hd : l.dropWhile fun x => decide (key x < k) with
  | nil => rfl
  | cons x l => by_cases hk : key x = k <;> simp [hk]

section

variable (hok : t.Ok) (hcap : t.height < STACK_CAPACITY) (hsorted : Sorted key t.flat)
include hok hcap hsorted

theorem Editing.Inv.turn (hinv : Editing.Inv t whole removed st (e :: edits)) :
    ∃ st', st.turn e = some st' ∧ Editing.Inv t whole removed st' edits := by
  obtain ⟨hnew, i, hs, hwhole, hremoved⟩ := hinv
  obtain ⟨st₁, hadvance, hnew₁, hremoved₁, hflat₁, j, hs₁, hdrop⟩ := Editing.advance_spec hok hcap hsorted hnew hs e.key
  have hitem : t.flat[j]? = ((t.flat.drop i).dropWhile fun x => decide (key x < e.key)).head? := by
    rw [← head?_drop, hdrop]
  obtain ⟨c, j', hpass, hs₂, hdrop'⟩ := Editing.pass_spec hok hcap hs₁ e.key
  have habove : t.flat.drop j' = above key e.key (t.flat.drop i) := by
    rw [hdrop', above_eq, hitem, ← tail_drop, hdrop]
  rw [hitem] at hpass
  refine ⟨_, Option.bind_eq_some_iff.mpr ⟨_, TreeCursor.item_at hs, Option.bind_eq_some_iff.mpr ⟨_, hadvance,
    congrArg (Option.map _) hpass⟩⟩, hnew₁, j', hs₂, ?_, ?_⟩
  · rw [← hwhole, map_cons, SumTree.Edit.change, amend, habove]
    simp only [← append_assoc, hflat₁]
  · rw [← hremoved, map_cons, SumTree.Edit.change, taken, habove, hremoved₁]
    simp only [append_assoc]

theorem Editing.Inv.run (hinv : Editing.Inv t whole removed st edits) :
    ∃ st', edits.foldlM Editing.turn st = some st' ∧ Editing.Inv t whole removed st' [] := by
  induction edits generalizing st with
  | nil => exact ⟨st, rfl, hinv⟩
  | cons e edits ih =>
    obtain ⟨st₁, hturn, hinv₁⟩ := hinv.turn hok hcap hsorted
    obtain ⟨st', hrun, hinv'⟩ := ih hinv₁
    exact ⟨st', by rw [foldlM_cons, hturn]; exact hrun, hinv'⟩

end

/-- **An edit merges its batch with the items**, whether keys repeat or not. -/
theorem edit_spec (sortByKey : SortByKey T K) (hok : t.Ok) (hcap : t.height < STACK_CAPACITY)
    (hsorted : Sorted key t.flat) (edits : List (SumTree.Edit T K)) :
    ∃ t', t.edit sortByKey edits =
        some (t', taken key t.flat ((sortByKey.sort edits).map SumTree.Edit.change)) ∧ t'.Ok ∧
      t'.flat = amend key t.flat ((sortByKey.sort edits).map SumTree.Edit.change) := by
  cases edits with
  | nil =>
    have hnil : sortByKey.sort [] = [] := List.perm_nil.mp (sortByKey.perm [])
    rw [hnil]
    exact ⟨t, rfl, hok, rfl⟩
  | cons e edits =>
    obtain ⟨c, b, hseek, hs⟩ := keyed_seek_zero (K := K) hok hcap hsorted
    have hstart : Editing.Inv t (amend key t.flat ((sortByKey.sort (e :: edits)).map SumTree.Edit.change))
        (taken key t.flat ((sortByKey.sort (e :: edits)).map SumTree.Edit.change)) ⟨c, SumTree.new, [], []⟩
        (sortByKey.sort (e :: edits)) := ⟨.inl rfl, 0, hs, rfl, rfl⟩
    obtain ⟨st, hrun, hnew, i, hs', hwhole, hremoved⟩ := hstart.run hok hcap hsorted
    obtain ⟨newTree, hextend, hok', hflat⟩ := extend_spec hnew st.bufferedItems
    obtain ⟨c', suffix, hsuffix, hsok, hsflat⟩ := keyed_suffix hok hcap hsorted hs'
    obtain ⟨newTree', happend, hok'', hflat'⟩ := append_spec hok' hsok
    rw [map_nil, amend] at hwhole
    rw [map_nil, taken, append_nil] at hremoved
    refine ⟨newTree', ?_, hok'', ?_⟩
    · rw [edit, if_neg (by simp), ← hremoved]
      exact Option.bind_eq_some_iff.mpr ⟨_, hseek, Option.bind_eq_some_iff.mpr ⟨_, hrun, Option.bind_eq_some_iff.mpr
        ⟨_, hextend, Option.bind_eq_some_iff.mpr ⟨_, hsuffix, Option.map_eq_some_iff.mpr ⟨_, happend, rfl⟩⟩⟩⟩⟩
    · rw [hflat', hflat, hsflat, hwhole]

/-! ## One key -/

section

variable (hok : t.Ok) (hcap : t.height < STACK_CAPACITY) (hsorted : Sorted key t.flat)
include hok hcap hsorted

theorem slice_around (k : K) :
    ∃ c before, (TreeCursor.new t : TreeCursor T S K).slice (compare k) .left = some (c, before) ∧ before.Ok ∧
      before.flat = t.flat.takeWhile (fun x => decide (key x < k)) ∧ ∃ item, c.item = some item ∧
        (item.filter fun x => decide (key x = k)) = lookup key t.flat k ∧
        ∃ c' c'' suffix, (if (lookup key t.flat k).isSome then c.next else some c) = some c' ∧
          c'.suffix = some (c'', suffix) ∧ suffix.Ok ∧ suffix.flat = above key k t.flat := by
  obtain ⟨c, before, hslice, hs, hbok, hbflat⟩ := keyed_slice hok hcap hsorted .fresh rfl
    (LawfulKey.zero_le T (S := S) k)
    (show (t.flat.drop 0).takeWhile (fun x => decide (key x < k)) = t.flat.takeWhile _ by rw [drop_zero])
  rw [zero_add] at hs
  generalize hj : (t.flat.takeWhile fun x => decide (key x < k)).length = j at hs
  have hdrop : t.flat.drop j = t.flat.dropWhile fun x => decide (key x < k) := by
    rw [← hj, drop_length_takeWhile]
  have hitem : (t.flat[j]?.filter fun x => decide (key x = k)) = lookup key t.flat k := by
    rw [← head?_drop, hdrop, hsorted.head?_dropWhile]
  refine ⟨c, before, hslice, hbok, hbflat, _, TreeCursor.item_at hs, hitem, ?_⟩
  obtain ⟨c', i, hc', hs', hi⟩ : ∃ c' i, (if (lookup key t.flat k).isSome then c.next else some c) = some c' ∧
      Stands t c' (.at i) ∧ t.flat.drop i = above key k t.flat := by
    rw [above_eq, hsorted.head?_dropWhile, ← hdrop]
    cases hx : lookup key t.flat k with
    | none => exact ⟨c, j, rfl, hs, rfl⟩
    | some x =>
      obtain ⟨c', hnext, hs'⟩ := TreeCursor.next_spec hok hcap hs
      have hlt : j < t.flat.length := by
        by_contra hge
        rw [hx, List.getElem?_eq_none (Nat.le_of_not_lt hge)] at hitem
        exact nomatch hitem
      rw [Place.next, Nat.min_eq_left hlt] at hs'
      exact ⟨c', j + 1, hnext, hs', List.tail_drop.symm⟩
  obtain ⟨c'', suffix, hsuffix, hsok, hsflat⟩ := keyed_suffix hok hcap hsorted hs'
  exact ⟨c', c'', suffix, hc', hsuffix, hsok, by rw [hsflat, hi]⟩

theorem insertOrReplace_spec (item : T) :
    ∃ t', t.insertOrReplace item = some (t', lookup key t.flat (key item)) ∧ t'.Ok ∧
      t'.flat = amend key t.flat [(key item, some item)] := by
  obtain ⟨c, before, hslice, hbok, hbflat, x, hitem, hx, c', c'', suffix, hc', hsuffix, hsok, hsflat⟩ :=
    slice_around hok hcap hsorted (key item)
  obtain ⟨newTree, hpush, hnew, hflat⟩ := push_spec hbok item
  obtain ⟨newTree', happend, hnew', hflat'⟩ := append_spec hnew hsok
  refine ⟨newTree', ?_, hnew', ?_⟩
  · rw [← hx] at hc' ⊢
    exact Option.bind_eq_some_iff.mpr ⟨_, hslice, Option.bind_eq_some_iff.mpr ⟨_, hitem, Option.bind_eq_some_iff.mpr
      ⟨_, hc', Option.bind_eq_some_iff.mpr ⟨_, hpush, Option.bind_eq_some_iff.mpr ⟨_, hsuffix,
        Option.map_eq_some_iff.mpr ⟨_, happend, rfl⟩⟩⟩⟩⟩⟩
  · rw [hflat', hflat, hbflat, hsflat, append_assoc]
    rfl

theorem remove_spec (k : K) :
    ∃ t', t.remove k = some (t', lookup key t.flat k) ∧ t'.Ok ∧ t'.flat = amend key t.flat [(k, none)] := by
  obtain ⟨c, before, hslice, hbok, hbflat, x, hitem, hx, c', c'', suffix, hc', hsuffix, hsok, hsflat⟩ :=
    slice_around hok hcap hsorted k
  obtain ⟨newTree, happend, hnew, hflat⟩ := append_spec hbok hsok
  refine ⟨newTree, ?_, hnew, ?_⟩
  · rw [← hx] at hc' ⊢
    exact Option.bind_eq_some_iff.mpr ⟨_, hslice, Option.bind_eq_some_iff.mpr ⟨_, hitem, Option.bind_eq_some_iff.mpr
      ⟨_, hc', Option.bind_eq_some_iff.mpr ⟨_, hsuffix, Option.map_eq_some_iff.mpr ⟨_, happend, rfl⟩⟩⟩⟩⟩
  · rw [hflat, hbflat, hsflat]
    rfl

end

/-! ## Edits and maps -/

omit [Summary S] [LinearOrder K] [Dimension K S] [LawfulSummary S] [LawfulKey T S K] in
theorem SumTree.Edit.filedUnder (edits : List (SumTree.Edit T K)) : FiledUnder KeyedItem.key (edits.map SumTree.Edit.change) := by
  intro k a h
  obtain ⟨e, -, he⟩ := List.mem_map.mp h
  cases e with
  | insert item =>
    obtain ⟨rfl, ha⟩ := Prod.mk.inj he
    rw [← Option.some.inj ha]
    rfl
  | remove k => exact nomatch (Prod.mk.inj he).2

omit [LawfulSummary S] [LawfulKey T S K] [Summary S] [Dimension K S] in
theorem SortByKey.strict (sortByKey : SortByKey T K) (hnd : (edits.map SumTree.Edit.key).Nodup) :
    ((sortByKey.sort edits).map SumTree.Edit.change).Pairwise fun c d => c.1 < d.1 := by
  rw [pairwise_map]
  have hne : (sortByKey.sort edits).Pairwise fun a b => a.key ≠ b.key :=
    List.pairwise_map.mp ((((sortByKey.perm edits).map SumTree.Edit.key).nodup_iff).mpr hnd)
  exact ((sortByKey.sorted edits).and hne).imp fun h => lt_of_le_of_ne h.1 h.2

omit [Summary S] [LawfulSummary S] [Dimension K S] [LawfulKey T S K] in
theorem amend_sort (sortByKey : SortByKey T K) {l : List T} (hsorted : Sorted key l)
    (hnd : (edits.map SumTree.Edit.key).Nodup) :
    Sorted key (amend key l ((sortByKey.sort edits).map SumTree.Edit.change)) ∧
      lookup key (amend key l ((sortByKey.sort edits).map SumTree.Edit.change)) =
        amendMap (lookup key l) (edits.map SumTree.Edit.change) := by
  have hstrict := sortByKey.strict hnd
  refine ⟨(amend_spec hsorted (SumTree.Edit.filedUnder _) hstrict).1, funext fun k => ?_⟩
  rw [lookup_amend hsorted (SumTree.Edit.filedUnder _) hstrict]
  exact amendMap_perm ((sortByKey.perm edits).map SumTree.Edit.change)
    (List.pairwise_map.mpr (hstrict.imp fun h => ne_of_lt h)) k

/-- **A batch of edits under different keys does what the edits do to a map of the items, one by one.** -/
theorem edit_eq_map (sortByKey : SortByKey T K) (hok : t.Ok) (hcap : t.height < STACK_CAPACITY)
    (hsorted : Sorted key t.flat) (hnd : (edits.map SumTree.Edit.key).Nodup) :
    ∃ t' removed, t.edit sortByKey edits = some (t', removed) ∧ t'.Ok ∧ Sorted key t'.flat ∧
      lookup key t'.flat = amendMap (lookup key t.flat) (edits.map SumTree.Edit.change) ∧
      Sorted key removed ∧ removed.Perm (displaced (lookup key t.flat) (edits.map SumTree.Edit.change)) := by
  obtain ⟨t', hedit, hok', hflat⟩ := edit_spec sortByKey hok hcap hsorted edits
  have hstrict := sortByKey.strict hnd
  have hamend := amend_sort sortByKey hsorted hnd
  rw [← hflat] at hamend
  exact ⟨t', _, hedit, hok', hamend.1, hamend.2, taken_sorted hsorted hstrict,
    taken_perm hsorted hstrict ((sortByKey.perm edits).map SumTree.Edit.change)⟩

end

namespace MapEntry

/-- One entry, so deep. -/
def tower : Nat → SumTree (MapEntry Nat Nat) (MapKey Nat)
  | 0 => leaf ⟨some 1⟩ [⟨1, 0⟩] [⟨some 1⟩]
  | n + 1 => internal (n + 1) (tower n).summary [(tower n).summary] [tower n]

theorem tower_wf (n : Nat) : SumTree.Wf n (tower n) := by
  induction n with
  | zero => exact @Wf.leaf (MapEntry Nat Nat) (MapKey Nat) _ _ [⟨1, 0⟩] (by simp) (by simp [TREE_BASE])
  | succ n ih =>
    have h := @Wf.node (MapEntry Nat Nat) (MapKey Nat) _ _ n [tower n] _ (by simp) (by simp [TREE_BASE]) (by simpa using ih)
    rwa [map_singleton, sum_singleton] at h

/-- Three entries in a leaf. -/
def row : SumTree (MapEntry Nat Nat) (MapKey Nat) :=
  leaf ⟨some 6⟩ [⟨2, 0⟩, ⟨4, 0⟩, ⟨6, 0⟩] [⟨some 2⟩, ⟨some 4⟩, ⟨some 6⟩]

theorem row_ok : row.Ok :=
  .inr ⟨0, @Wf.leaf (MapEntry Nat Nat) (MapKey Nat) _ _ [⟨2, 0⟩, ⟨4, 0⟩, ⟨6, 0⟩] (by simp) (by simp [TREE_BASE])⟩

def insertionSort : SortByKey (MapEntry Nat Nat) (MapKey Nat) where
  sort := sortByKey SumTree.Edit.key
  perm edits := perm_insertionSort _ edits
  sorted edits := sortByKey_pairwise edits

end MapEntry

open MapEntry (row row_ok tower tower_wf insertionSort)

theorem edit_eq_map_row : ∃ t' removed,
    row.edit insertionSort [.insert ⟨5, 1⟩, .remove ⟨some 6⟩, .insert ⟨1, 1⟩, .insert ⟨4, 1⟩, .remove ⟨some 3⟩] =
      some (t', removed) ∧ t'.Ok ∧ Sorted key t'.flat ∧
    lookup key t'.flat = amendMap (lookup key row.flat)
      [(⟨some 5⟩, some ⟨5, 1⟩), (⟨some 6⟩, none), (⟨some 1⟩, some ⟨1, 1⟩), (⟨some 4⟩, some ⟨4, 1⟩), (⟨some 3⟩, none)] ∧
    Sorted key removed ∧ removed.Perm [⟨6, 0⟩, ⟨4, 0⟩] := by
  have hsorted : Sorted key row.flat := by
    simp [Sorted, row, flat, KeyedItem.key]
  exact edit_eq_map insertionSort row_ok (by decide) hsorted (by decide)

/-- An edit of a tree that is higher than a cursor's stack has room for fails. -/
theorem edit_overflow : (tower 16).Ok ∧ Sorted key (tower 16).flat ∧
    ((tower 16).edit insertionSort [.insert ⟨2, 0⟩]).isNone :=
  ⟨.inr ⟨16, tower_wf 16⟩, pairwise_singleton _ _, rfl⟩

end SpkEditor
