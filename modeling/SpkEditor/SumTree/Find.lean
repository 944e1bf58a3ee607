import SpkEditor.SumTree.Scan

/-!
# Finding without a cursor

`find`, `find_exact` and `find_with_prev` go down from the root. All three take the first
child that does not end before the target, and in the leaf they come to, look for an
item: the first that does not end before the target, or the first that ends exactly there.
-/

namespace SpkEditor

open List

namespace SumTree

variable {T S D : Type} [Summary S] [Item T S] [Dimension D S]

def targetIn (comparison : Ordering) (bias : Bias) : Bool :=
  comparison = .lt || (comparison = .eq && bias = .left)

/-- Whether an item is the one that is looked for. -/
def entryFound (exact : Bool) (comparison : Ordering) (bias : Bias) : Bool :=
  if exact then comparison = .eq else targetIn comparison bias

/-- `find_iterate` in a leaf: the position it stops at, and the item with its end. -/
def findItems (exact : Bool) (target : D → Ordering) (bias : Bias) : D → List T → List S → D × Option (T × D)
  | position, item :: items, itemSummary :: itemSummaries =>
    let childEnd := Dimension.addSummary position itemSummary
    if entryFound exact (target childEnd) bias then (position, some (item, childEnd))
    else findItems exact target bias childEnd items itemSummaries
  | position, _, _ => (position, none)

mutual

/-- `find_iterate`. -/
def findIterate (exact : Bool) (target : D → Ordering) (bias : Bias) (position : D) : SumTree T S → D × Option (T × D)
  | internal _ _ childSummaries childTrees => findChildren exact target bias position childTrees childSummaries
  | leaf _ items itemSummaries => findItems exact target bias position items itemSummaries

/-- `find_iterate` over the children of a node. -/
def findChildren (exact : Bool) (target : D → Ordering) (bias : Bias) (position : D) :
    List (SumTree T S) → List S → D × Option (T × D)
  | childTree :: childTrees, childSummary :: childSummaries =>
    let childEnd := Dimension.addSummary position childSummary
    if targetIn (target childEnd) bias then findIterate exact target bias position childTree
    else findChildren exact target bias childEnd childTrees childSummaries
  | _, _ => (position, none)

end

/-- `find_exact` and `find`: the start and the end of the item, and the item. -/
def findWith (exact : Bool) (t : SumTree T S) (target : D → Ordering) (bias : Bias) : D × D × Option T :=
  let treeEnd := Dimension.addSummary (Dimension.zero S) t.summary
  if passes (target treeEnd) bias then (treeEnd, treeEnd, none)
  else
    match findIterate exact target bias (Dimension.zero S) t with
    | (position, some (item, itemEnd)) => (position, itemEnd, some item)
    | (position, none) => (position, position, none)

/-- `find_exact`. -/
def findExact (t : SumTree T S) (target : D → Ordering) (bias : Bias) : D × D × Option T :=
  findWith true t target bias

/-- `find`. -/
def find (t : SumTree T S) (target : D → Ordering) (bias : Bias) : D × D × Option T :=
  findWith false t target bias

/-- `find_with_prev_iterate` in a leaf. -/
def findWithPrevItems (target : D → Ordering) (bias : Bias) :
    Option T → D → List T → List S → D × Option (Option T × T × D)
  | prev, position, item :: items, itemSummary :: itemSummaries =>
    let childEnd := Dimension.addSummary position itemSummary
    if entryFound false (target childEnd) bias then (position, some (prev, item, childEnd))
    else findWithPrevItems target bias (some item) childEnd items itemSummaries
  | _, position, _, _ => (position, none)

mutual

/-- `find_with_prev_iterate`. -/
def findWithPrevIterate (target : D → Ordering) (bias : Bias) (prev : Option T) (position : D) :
    SumTree T S → Option (D × Option (Option T × T × D))
  | internal _ _ childSummaries childTrees => findWithPrevChildren target bias prev position childTrees childSummaries
  | leaf _ items itemSummaries => some (findWithPrevItems target bias prev position items itemSummaries)

/-- `find_with_prev_iterate` over the children of a node. -/
def findWithPrevChildren (target : D → Ordering) (bias : Bias) (prev : Option T) (position : D) :
    List (SumTree T S) → List S → Option (D × Option (Option T × T × D))
  | childTree :: childTrees, childSummary :: childSummaries =>
    let childEnd := Dimension.addSummary position childSummary
    if targetIn (target childEnd) bias then findWithPrevIterate target bias prev position childTree
    else childTree.last.bind fun prev => findWithPrevChildren target bias prev childEnd childTrees childSummaries
  | _, _ => some (position, none)

end

/-- `find_with_prev`: also the item before. -/
def findWithPrev (t : SumTree T S) (target : D → Ordering) (bias : Bias) : Option (D × D × Option (Option T × T)) :=
  let treeEnd := Dimension.addSummary (Dimension.zero S) t.summary
  if passes (target treeEnd) bias then some (treeEnd, treeEnd, none)
  else
    (findWithPrevIterate target bias none (Dimension.zero S) t).map fun r =>
      match r with
      | (position, some (prev, item, itemEnd)) => (position, itemEnd, some (prev, item))
      | (position, none) => (position, position, none)

/-! ## Down to a leaf -/

omit [Summary S] [Item T S] [Dimension D S] in
theorem targetIn_eq (comparison : Ordering) (bias : Bias) : targetIn comparison bias = ! passes comparison bias := by
  cases comparison <;> cases bias <;> rfl

/-- The target leads down to a leaf: the search goes on in that, behind what is before it. -/
def Descends (target : D → Ordering) (bias : Bias) (pre items : List T) (find : Bool → D × Option (T × D))
    (findWithPrev : Option T → Option (D × Option (Option T × T × D))) : Prop :=
  ∃ w is post, items = w ++ is ++ post ∧ is ≠ [] ∧ (w ≠ [] → passes (target (cum (pre ++ w))) bias = true) ∧
    passes (target (cum (pre ++ w ++ is))) bias = false ∧
    (∀ exact, find exact = findItems exact target bias (cum (pre ++ w)) is (is.map Item.summary)) ∧
    ∀ prev, findWithPrev prev =
      some (findWithPrevItems target bias (w.getLast?.or prev) (cum (pre ++ w)) is (is.map Item.summary))

section Descent

variable [LawfulSummary S] [LawfulDimension D S]
variable {target : D → Ordering} {bias : Bias} {h : Nat}

theorem findChildren_descends {ts : List (SumTree T S)} (hwf : ∀ v ∈ ts, Wf h v)
    (ih : ∀ v ∈ ts, ∀ pre : List T, passes (target (cum (pre ++ v.flat))) bias = false →
      Descends target bias pre v.flat (fun exact => findIterate exact target bias (cum pre) v)
        fun prev => findWithPrevIterate target bias prev (cum pre) v)
    (hne : ts ≠ []) (pre : List T) (hend : passes (target (cum (pre ++ flatAll ts))) bias = false) :
    Descends target bias pre (flatAll ts)
      (fun exact => findChildren exact target bias (cum pre) ts (ts.map summary))
      fun prev => findWithPrevChildren target bias prev (cum pre) ts (ts.map summary) := by
  induction ts generalizing pre with
  | nil => exact absurd rfl hne
  | cons v ts ihts =>
    have hv := hwf v mem_cons_self
    have hchildEnd : Dimension.addSummary (cum pre : D) v.summary = cum (pre ++ v.flat) := by
      rw [hv.add_summary, cum_append]
    by_cases hpass : passes (target (cum (pre ++ v.flat))) bias = true
    · -- this child is passed, and its last item is the one before whatever is found
      have hts : ts ≠ [] := by
        rintro rfl
        rw [flatAll_singleton, hpass] at hend
        simp at hend
      obtain ⟨w, is, post, hflat, his, hpassed, hstop, hfind, hprev⟩ :=
        ihts (fun u hu => hwf u (mem_cons_of_mem _ hu)) (fun u hu => ih u (mem_cons_of_mem _ hu)) hts
          (pre ++ v.flat) (by rwa [append_assoc, ← flatAll])
      simp only [append_assoc] at hpassed hstop hfind hprev
      refine ⟨v.flat ++ w, is, post, by rw [flatAll, hflat]; simp, his, ?_, by simpa using hstop, ?_, ?_⟩
      · intro _
        by_cases hw : w = []
        · rwa [hw, append_nil]
        · exact hpassed hw
      · intro exact
        simp only [map_cons, findChildren, hchildEnd, targetIn_eq, hpass]
        exact hfind exact
      · intro prev
        simp only [map_cons, findWithPrevChildren, hchildEnd, targetIn_eq, hpass, last_spec hv, getLast?_append]
        obtain ⟨x, hx⟩ : ∃ x, v.flat.getLast? = some x := ⟨_, getLast?_eq_some_getLast hv.flat_ne_nil⟩
        rw [Option.or_assoc, hx]
        exact hprev (some x)
    · obtain ⟨w, is, post, hflat, his, hpassed, hstop, hfind, hprev⟩ := ih v mem_cons_self pre (by simpa using hpass)
      refine ⟨w, is, post ++ flatAll ts, by rw [flatAll, hflat]; simp, his, hpassed, hstop, ?_, ?_⟩
      · intro exact
        simp only [map_cons, findChildren, hchildEnd, targetIn_eq, Bool.eq_false_of_not_eq_true hpass]
        exact hfind exact
      · intro prev
        simp only [map_cons, findWithPrevChildren, hchildEnd, targetIn_eq, Bool.eq_false_of_not_eq_true hpass]
        exact hprev prev

theorem findIterate_descends {u : SumTree T S} (hwf : Wf h u) (pre : List T)
    (hend : passes (target (cum (pre ++ u.flat))) bias = false) :
    Descends target bias pre u.flat (fun exact => findIterate exact target bias (cum pre) u)
      fun prev => findWithPrevIterate target bias prev (cum pre) u := by
  induction hwf generalizing pre with
  | @leaf is hne hlen =>
    refine ⟨[], is, [], by simp [flat], hne, by simp, by simpa [flat] using hend, ?_, ?_⟩
    · intro exact
      simp only [findIterate, append_nil]
    · intro prev
      simp only [findWithPrevIterate, append_nil, getLast?_nil, Option.none_or]
  | @internal h ts hne hlen hwf ih =>
    exact findChildren_descends hwf ih hne pre hend

end Descent

/-! ## In the leaf -/

section Leaf

variable {target : D → Ordering} {bias : Bias}

omit [Summary S] in
theorem findItems_spec {is : List T} (hne : is ≠ []) (pre : List T) (hend : passes (target (cum (pre ++ is))) bias = false) :
    ∃ xs x ys, is = xs ++ x :: ys ∧ (xs ≠ [] → passes (target (cum (pre ++ xs))) bias = true) ∧
      passes (target (cum (pre ++ xs ++ [x]))) bias = false ∧
      findItems false target bias (cum pre) is (is.map (Item.summary : T → S)) =
        (cum (pre ++ xs), some (x, cum (pre ++ xs ++ [x]))) ∧
      ∀ prev, findWithPrevItems target bias prev (cum pre) is (is.map (Item.summary : T → S)) =
        (cum (pre ++ xs), some (xs.getLast?.or prev, x, cum (pre ++ xs ++ [x]))) := by
  induction is generalizing pre with
  | nil => exact absurd rfl hne
  | cons x is ih =>
    have hitemEnd : Dimension.addSummary (cum pre : D) (Item.summary x) = cum (pre ++ [x]) := by
      rw [cum_append]
      rfl
    by_cases hpass : passes (target (cum (pre ++ [x]))) bias = true
    · have his : is ≠ [] := by
        rintro rfl
        rw [hpass] at hend
        simp at hend
      obtain ⟨xs, y, ys, rfl, hpassed, hstop, hfind, hprev⟩ := ih his (pre ++ [x]) (by simpa using hend)
      simp only [append_assoc, singleton_append] at hpassed hstop hfind hprev
      refine ⟨x :: xs, y, ys, rfl, ?_, by simpa using hstop, ?_, ?_⟩
      · intro _
        by_cases hxs : xs = []
        · rwa [hxs]
        · exact hpassed hxs
      · simpa [findItems, hitemEnd, entryFound, targetIn_eq, hpass] using hfind
      · intro prev
        have hlast : (x :: xs).getLast?.or prev = xs.getLast?.or (some x) := by
          rw [← singleton_append, getLast?_append, Option.or_assoc]
          rfl
        rw [hlast]
        simpa [findWithPrevItems, hitemEnd, entryFound, targetIn_eq, hpass] using hprev (some x)
    · have hstop : passes (target (cum (pre ++ [x]))) bias = false := by simpa using hpass
      refine ⟨[], x, is, rfl, by simp, by simpa using hstop, ?_, ?_⟩
      · simp [findItems, hitemEnd, entryFound, targetIn_eq, hstop]
      · intro prev
        simp [findWithPrevItems, hitemEnd, entryFound, targetIn_eq, hstop]

omit [Summary S] in
theorem findItems_exact_skip (bias : Bias) (xs ys pre : List T)
    (hne : ∀ k, k < xs.length → target (cum (pre ++ xs.take (k + 1))) ≠ .eq) :
    findItems true target bias (cum pre : D) (xs ++ ys) ((xs ++ ys).map (Item.summary : T → S)) =
      findItems true target bias (cum (pre ++ xs)) ys (ys.map Item.summary) := by
  induction xs generalizing pre with
  | nil => rw [nil_append, append_nil]
  | cons x xs ih =>
    have hitemEnd : Dimension.addSummary (cum pre : D) (Item.summary x) = cum (pre ++ [x]) := by
      rw [cum_append]
      rfl
    have hx : target (cum (pre ++ [x])) ≠ .eq := by simpa using hne 0 (by simp)
    have hrest := ih (pre ++ [x]) fun k hk => by simpa using hne (k + 1) (by simpa using hk)
    simpa [findItems, hitemEnd, entryFound, hx] using hrest

omit [Summary S] in
theorem findItems_exact {is pre : List T} {start itemEnd : D} {item : T}
    (hfind : findItems true target bias (cum pre) is (is.map (Item.summary : T → S)) = (start, some (item, itemEnd))) :
    ∃ xs ys, is = xs ++ item :: ys ∧ start = cum (pre ++ xs) ∧ itemEnd = cum (pre ++ xs ++ [item]) ∧
      target itemEnd = .eq := by
  induction is generalizing pre with
  | nil => simp [findItems] at hfind
  | cons x is ih =>
    have hitemEnd : Dimension.addSummary (cum pre : D) (Item.summary x) = cum (pre ++ [x]) := by
      rw [cum_append]
      rfl
    rw [map_cons, findItems, hitemEnd] at hfind
    by_cases heq : target (cum (pre ++ [x])) = .eq
    · simp only [entryFound, heq, if_true, decide_true, Prod.mk.injEq, Option.some.injEq] at hfind
      obtain ⟨rfl, rfl, rfl⟩ := hfind
      exact ⟨[], is, rfl, by simp, by simp, heq⟩
    · simp only [entryFound, heq, if_true, decide_false, Bool.false_eq_true, if_false] at hfind
      obtain ⟨xs, ys, rfl, hstart, hend, hmet⟩ := ih hfind
      exact ⟨x :: xs, ys, rfl, by simpa using hstart, by simpa using hend, hmet⟩

end Leaf

/-! ## What is found -/

section Found

variable [LawfulSummary S] [LawfulDimension D S]
variable {t : SumTree T S} {target : D → Ordering} {bias : Bias}

/-- Where the end of the tree is not before the target: the leaf with the item that the list is scanned to. -/
theorem find_leaf {h : Nat} (hwf : Wf h t) (hend : passes (target (cum t.flat)) bias = false) :
    ∃ w xs x ys post, t.flat = w ++ (xs ++ x :: ys) ++ post ∧ SeekLands t.flat target bias 0 (w ++ xs).length ∧
      findIterate false target bias (Dimension.zero S) t = (cum (w ++ xs), some (x, cum (w ++ xs ++ [x]))) ∧
      findWithPrevIterate target bias none (Dimension.zero S) t =
        some (cum (w ++ xs), some ((w ++ xs).getLast?, x, cum (w ++ xs ++ [x]))) ∧
      findIterate true target bias (Dimension.zero S) t =
        findItems true target bias (cum w) (xs ++ x :: ys) ((xs ++ x :: ys).map Item.summary) := by
  obtain ⟨w, is, post, hflat, his, hpassed, hstop, hfind, hprev⟩ := findIterate_descends hwf [] (by simpa using hend)
  simp only [nil_append] at hpassed hstop hfind hprev
  obtain ⟨xs, x, ys, rfl, hxs, hx, hitems, hprevItems⟩ := findItems_spec his w hstop
  have hsplit : t.flat = (w ++ xs) ++ x :: (ys ++ post) := by rw [hflat]; simp
  have htake : t.flat.take (w ++ xs).length = w ++ xs := by rw [hsplit, take_left]
  refine ⟨w, xs, x, ys, post, hflat, ⟨Nat.zero_le _, by simp [hflat], ?_, ?_⟩, ?_, ?_, hfind true⟩
  · intro hlt
    rw [htake]
    by_cases hxs' : xs = []
    · subst hxs'
      rw [append_nil] at hlt ⊢
      exact hpassed (List.length_pos_iff.1 hlt)
    · exact hxs hxs'
  · intro _
    have hsucc : t.flat.take ((w ++ xs).length + 1) = w ++ xs ++ [x] := by
      rw [hsplit, take_length_add_append]
      rfl
    rwa [hsucc]
  · exact (hfind false).trans hitems
  · refine (hprev none).trans ?_
    rw [hprevItems, Option.or_none, getLast?_append]

theorem find_end (hok : t.Ok) (hend : passes (target (cum t.flat)) bias = true ∨ t = new) (exact : Bool) :
    SeekLands t.flat target bias 0 t.flat.length ∧ findWith exact t target bias = (cum t.flat, cum t.flat, none) ∧
      findWithPrev t target bias = some (cum t.flat, cum t.flat, none) := by
  have hlands : SeekLands t.flat target bias 0 t.flat.length := by
    refine ⟨Nat.zero_le _, le_refl _, ?_, fun h => absurd h (lt_irrefl _)⟩
    intro hpos
    rw [take_length]
    rcases hend with hend | rfl
    · exact hend
    · simp [new, flat] at hpos
  rcases hok with rfl | ⟨h, hwf⟩
  · have hzero : Dimension.addSummary (Dimension.zero S : D) (new : SumTree T S).summary = Dimension.zero S :=
      LawfulDimension.zero_zero
    have hcum : (cum (new : SumTree T S).flat : D) = Dimension.zero S := rfl
    refine ⟨hlands, ?_, ?_⟩
    · rw [findWith, hzero, hcum]
      split <;> rfl
    · rw [findWithPrev, hzero, hcum]
      split <;> rfl
  · have hne : t ≠ new := by
      rintro rfl
      exact hwf.flat_ne_nil rfl
    have hpass := hend.resolve_right hne
    have htreeEnd : Dimension.addSummary (Dimension.zero S : D) t.summary = cum t.flat := hwf.add_summary _
    exact ⟨hlands, by rw [findWith, htreeEnd, if_pos hpass], by rw [findWithPrev, htreeEnd, if_pos hpass]⟩

/-- `find` finds what the list is scanned to. -/
theorem find_eq (hok : t.Ok) (ho : Ordered t.flat target) (bias : Bias) :
    find t target bias = ((Place.at (scan t.flat target bias 0)).start t.flat, (Place.at (scan t.flat target bias 0)).end t.flat,
      (Place.at (scan t.flat target bias 0)).item t.flat) ∧
    findWithPrev t target bias = some ((Place.at (scan t.flat target bias 0)).start t.flat,
      (Place.at (scan t.flat target bias 0)).end t.flat,
      ((Place.at (scan t.flat target bias 0)).item t.flat).map fun item =>
        ((Place.at (scan t.flat target bias 0)).prevItem t.flat, item)) := by
  by_cases hend : passes (target (cum t.flat)) bias = true ∨ t = new
  · obtain ⟨hlands, hfind, hprev⟩ := find_end hok hend false
    rw [← hlands.eq_scan ho, find, hfind, hprev]
    simp [Place.start, Place.end, Place.item, take_of_length_le]
  · simp only [not_or] at hend
    obtain ⟨h, hwf⟩ := hok.resolve_left hend.2
    have hstop := Bool.eq_false_of_not_eq_true hend.1
    have htreeEnd : Dimension.addSummary (Dimension.zero S : D) t.summary = cum t.flat := hwf.add_summary _
    obtain ⟨w, xs, x, ys, post, hflat, hlands, hfind, hprev, -⟩ := find_leaf hwf hstop
    rw [← hlands.eq_scan ho, find, findWith, findWithPrev, htreeEnd, hfind, hprev, if_neg hend.1, if_neg hend.1]
    have hsplit : t.flat = (w ++ xs) ++ x :: (ys ++ post) := by rw [hflat]; simp
    simp only [Place.start, Place.end, Place.item, hsplit, take_left, take_length_add_append,
      Place.prevItem_append, getElem?_append_right (le_refl _), Nat.sub_self]
    exact ⟨rfl, rfl⟩

/-- What `find_exact` finds ends at the target, and stands in the list where it says. -/
theorem findExact_sound (hok : t.Ok) {start itemEnd : D} {item : T}
    (hfind : findExact t target bias = (start, itemEnd, some item)) :
    target itemEnd = .eq ∧ ∃ k, t.flat[k]? = some item ∧ start = cum (t.flat.take k) ∧ itemEnd = cum (t.flat.take (k + 1)) := by
  by_cases hend : passes (target (cum t.flat)) bias = true ∨ t = new
  · rw [findExact, (find_end hok hend true).2.1] at hfind
    simp at hfind
  · simp only [not_or] at hend
    obtain ⟨h, hwf⟩ := hok.resolve_left hend.2
    have hstop := Bool.eq_false_of_not_eq_true hend.1
    have htreeEnd : Dimension.addSummary (Dimension.zero S : D) t.summary = cum t.flat := hwf.add_summary _
    obtain ⟨w, xs, x, ys, post, hflat, -, -, -, hexact⟩ := find_leaf hwf hstop
    rw [findExact, findWith, htreeEnd, if_neg hend.1, hexact] at hfind
    split at hfind
    · rename_i y _ heq
      simp only [Prod.mk.injEq, Option.some.injEq] at hfind
      obtain ⟨rfl, rfl, rfl⟩ := hfind
      obtain ⟨as, bs, his, rfl, rfl, hmet⟩ := findItems_exact heq
      have hsplit : t.flat = (w ++ as) ++ y :: (bs ++ post) := by rw [hflat, his]; simp
      refine ⟨hmet, (w ++ as).length, ?_, ?_, ?_⟩
      · rw [hsplit, getElem?_append_right (le_refl _), Nat.sub_self]
        rfl
      · rw [hsplit, take_left]
      · rw [hsplit, take_length_add_append]
        rfl
    · simp at hfind

/-- With a bias to the left, `find_exact` finds the item that the list is scanned to, if that ends at the target, and
nothing otherwise. -/
theorem findExact_left (hok : t.Ok) (ho : Ordered t.flat target) {j : Nat} (hj : j = scan t.flat target .left 0) :
    if j < t.flat.length ∧ target (cum (t.flat.take (j + 1))) = .eq then
      findExact t target .left = (cum (t.flat.take j), cum (t.flat.take (j + 1)), t.flat[j]?)
    else (findExact t target .left).2.2 = none := by
  by_cases hend : passes (target (cum t.flat)) .left = true ∨ t = new
  · obtain ⟨hlands, hfind, -⟩ := find_end hok hend true
    rw [if_neg (by rw [hj, ← hlands.eq_scan ho]; omega), findExact, hfind]
  · simp only [not_or] at hend
    obtain ⟨h, hwf⟩ := hok.resolve_left hend.2
    have hstop := Bool.eq_false_of_not_eq_true hend.1
    have htreeEnd : Dimension.addSummary (Dimension.zero S : D) t.summary = cum t.flat := hwf.add_summary _
    obtain ⟨w, xs, x, ys, post, hflat, hlands, -, -, hexact⟩ := find_leaf hwf hstop
    obtain rfl : (w ++ xs).length = j := by rw [hj, ← hlands.eq_scan ho]
    have hsplit : t.flat = (w ++ xs) ++ x :: (ys ++ post) := by rw [hflat]; simp
    -- what is passed ends before the target
    have hbefore : ∀ k, k < xs.length → target (cum (w ++ xs.take (k + 1))) ≠ .eq := by
      intro k hk
      have htake : t.flat.take (w.length + (k + 1)) = w ++ xs.take (k + 1) := by
        rw [hsplit, append_assoc, take_length_add_append, take_append_of_le_length hk]
      have hpass := ho.passes_of_le (i := w.length + (k + 1)) (by rw [length_append]; omega) hlands.le_length
        (hlands.passed (by rw [length_append]; omega))
      rw [htake] at hpass
      intro heq
      simp [passes, heq] at hpass
    have hlen : (w ++ xs).length < t.flat.length := by simp [hsplit]
    have hsucc : t.flat.take ((w ++ xs).length + 1) = w ++ xs ++ [x] := by
      rw [hsplit, take_length_add_append]
      rfl
    rw [findExact, findWith, htreeEnd, if_neg hend.1, hexact]
    by_cases hmet : target (cum (w ++ xs ++ [x])) = .eq
    · rw [hsucc, if_pos ⟨hlen, hmet⟩, findItems_exact_skip .left xs (x :: ys) w hbefore]
      have hitemEnd : Dimension.addSummary (cum (w ++ xs) : D) (Item.summary x) = cum (w ++ xs ++ [x]) := by
        rw [cum_append (w ++ xs)]
        rfl
      have hx : t.flat[(w ++ xs).length]? = some x := by
        rw [hsplit, getElem?_append_right (le_refl _), Nat.sub_self]
        rfl
      have htake : t.flat.take (w ++ xs).length = w ++ xs := by rw [hsplit, take_left]
      rw [map_cons, findItems, hitemEnd, hx, htake]
      simp only [entryFound, hmet, if_true, decide_true]
    · -- behind the item, everything ends after the target
      rw [hsucc, if_neg (fun h => hmet h.2)]
      have hafter : ∀ k, k < (xs ++ x :: ys).length → target (cum (w ++ (xs ++ x :: ys).take (k + 1))) ≠ .eq := by
        intro k hk
        by_cases hkx : k < xs.length
        · rw [take_append_of_le_length hkx]
          exact hbefore k hkx
        · have hlt : target (cum (t.flat.take ((w ++ xs).length + 1))) = .lt := by
            have hstopped := hlands.stopped hlen
            rw [hsucc] at hstopped ⊢
            cases hc : target (cum (w ++ xs ++ [x])) with
            | lt => rfl
            | eq => exact absurd hc hmet
            | gt =>
              rw [hc] at hstopped
              simp [passes] at hstopped
          have htake : t.flat.take (w.length + (k + 1)) = w ++ (xs ++ x :: ys).take (k + 1) := by
            rw [hflat, append_assoc, take_length_add_append, take_append_of_le_length hk]
          have hle : w.length + (k + 1) ≤ t.flat.length := by
            rw [hflat, length_append, length_append]
            omega
          have := (ho ((w ++ xs).length + 1) (w.length + (k + 1)) (by rw [length_append]; omega) hle).2 hlt
          rw [htake] at this
          rw [this]
          simp
      have hskip := findItems_exact_skip .left (xs ++ x :: ys) [] w hafter
      rw [append_nil] at hskip
      rw [hskip]
      rfl

end Found

end SumTree

end SpkEditor
