import SpkEditor.Replica.Convergence
import SpkEditor.SumTree.Refines
import SpkEditor.Text.FragmentTree

/-!
# Seeking in what a version had observed

The timestamps of the fragments of a replica are those of its base text and of edits, and none of them is
zero. So a cursor over their tree that seeks what some version had observed is where a scan of the list of
fragments is that counts those the version had observed (`versioned_seek`), as long as the tree fits the
stack of a cursor. A tree that does not is a panic (`versioned_seek_overflow`).
-/

namespace SpkEditor

open List Option

namespace FragmentTree

/-! ## Cursors over both -/

structure ShowsCursor {version : Global} (c : TreeCursor Fragment FragmentSummary (VersionedDimensions version)) (l : Cursor) :
    Prop where
  item : c.item = some l.item
  start : c.start = ⟨.offset l.start.1, l.start.2⟩
  startOffset : c.start.offset.fullOffset = some l.start.1
  endOffset : ∃ stop, c.end = some stop ∧ stop.offset.fullOffset = some (l.stop (SpkEditor.VersionedFullOffset version))

/-- What is called on a cursor after it has been sought. -/
inductive Move where
  | seekForward (position : Nat) (bias : Bias)
  | slice (position : Nat) (bias : Bias)
  | next

variable {version : Global}

def moveTree (c : TreeCursor Fragment FragmentSummary (VersionedDimensions version)) :
    Move → Option (TreeCursor Fragment FragmentSummary (VersionedDimensions version))
  | .seekForward position bias => (c.seekForward (offsetTarget position) bias).map Prod.fst
  | .slice position bias => (c.slice (offsetTarget position) bias).map Prod.fst
  | .next => c.next

def moveList (version : Global) (l : Cursor) : Move → Option Cursor
  | .seekForward position bias | .slice position bias =>
    if position < l.start.1 then none else some (l.slice (SpkEditor.VersionedFullOffset version) position bias).2
  | .next => some (l.next (SpkEditor.VersionedFullOffset version))

variable {t : SumTree Fragment FragmentSummary} {c : TreeCursor Fragment FragmentSummary (VersionedDimensions version)} {i : Nat}

theorem showsCursor_at (hs : Stands t c (.at i)) : ShowsCursor c (cursorAt version t.flat i) := by
  have hstart : c.start = ⟨.offset (cursorAt version t.flat i).start.1, (cursorAt version t.flat i).start.2⟩ :=
    (TreeCursor.position_at hs).trans (cum_eq _)
  refine ⟨?_, hstart, by rw [hstart]; rfl, _, TreeCursor.end_at hs, ?_⟩
  · rw [TreeCursor.item_at hs, Cursor.item, cursorAt, List.head?_drop]
  · rw [cum_eq, cursorAt_stop]
    rfl

section

variable (hok : t.Ok) (hcap : t.height < STACK_CAPACITY)
  (hpos : ∀ f ∈ t.flat, 0 < f.timestamp.value)
include hok hcap hpos

theorem seekInternal_offset {A : Type} {agg : SeekAggregate Fragment FragmentSummary A} {out : A → List Fragment → Prop}
    {inLeaf : A → List Fragment → List Fragment → Prop} (hg : Gathers agg out inLeaf) {p : Place}
    (hs : Stands t c p) (hp : p.index = some i) {k : Nat} (hle : observedLen version (t.flat.take i) ≤ k) (bias : Bias) {a : A}
    (ha : out a []) : ∃ c' a' exact, c.seekInternal agg (offsetTarget k) bias a = some (c', a', exact) ∧
      Stands t c' (.at (scan t.flat (offsetTarget k : VersionedDimensions version → Ordering) bias i)) := by
  have hforward : p.forward t.flat (offsetTarget k : VersionedDimensions version → Ordering) bias =
      some (i, scan t.flat (offsetTarget k : VersionedDimensions version → Ordering) bias i) := by
    rw [Place.forward, hp, bind_some, if_neg]
    rw [cum_eq, offsetTarget, VersionedFullOffset.cmpOffset, Nat.compare_eq_lt]
    exact Nat.not_lt.mpr hle
  obtain ⟨c', a', hseek, hst, -⟩ := TreeCursor.forward_spec (measures_offset hpos k bias) hg hok hcap hs
    (ordered_offset k t.flat) ha hforward
  exact ⟨c', a', _, hseek, hst⟩

section

variable (hs : Stands t c (.at i)) (hi : i ≤ t.flat.length)
include hs hi

/-- **A move of the tree's cursor is that of the list's cursor.** -/
theorem move_spec {m : Move} {l : Cursor}
    (hl : moveList version (cursorAt version t.flat i) m = some l) :
    ∃ c' j, moveTree c m = some c' ∧ Stands t c' (.at j) ∧ j ≤ t.flat.length ∧ l = cursorAt version t.flat j := by
  have hseek : ∀ {A : Type} {agg : SeekAggregate Fragment FragmentSummary A} {out : A → List Fragment → Prop}
      {inLeaf : A → List Fragment → List Fragment → Prop} (_ : Gathers agg out inLeaf) (a : A) (_ : out a []) (k : Nat)
      (bias : Bias), (if k < (cursorAt version t.flat i).start.1 then none else
        some ((cursorAt version t.flat i).slice (SpkEditor.VersionedFullOffset version) k bias).2) = some l →
      ∃ c' a' exact j, c.seekInternal agg (offsetTarget k) bias a = some (c', a', exact) ∧ Stands t c' (.at j) ∧
        j ≤ t.flat.length ∧ l = cursorAt version t.flat j := by
    intro A agg out inLeaf hg a ha k bias hl
    split at hl
    · cases hl
    · next hle =>
      obtain ⟨c', a', exact', hseek, hst⟩ := seekInternal_offset hok hcap hpos hg hs rfl (Nat.le_of_not_lt hle) bias ha
      refine ⟨c', a', exact', _, hseek, hst, (scan_lands _ bias hi).le_length, ?_⟩
      rw [slice_eq] at hl
      exact (Option.some.inj hl).symm
  cases m with
  | seekForward k bias =>
    obtain ⟨c', a', exact', j, hc', hst, hj, hlj⟩ := hseek TreeCursor.gathers_nothing () trivial k bias hl
    refine ⟨c', j, ?_, hst, hj, hlj⟩
    rw [moveTree, TreeCursor.seekForward, hc']
    rfl
  | slice k bias =>
    obtain ⟨c', a', exact', j, hc', hst, hj, hlj⟩ := hseek TreeCursor.gathers_slice ⟨SumTree.new, [], [], Summary.zero⟩
      (.mk (.inl rfl) (Nat.zero_le _)) k bias hl
    refine ⟨c', j, ?_, hst, hj, hlj⟩
    rw [moveTree, TreeCursor.slice, hc']
    rfl
  | next =>
    obtain ⟨c', hc', hst⟩ := TreeCursor.next_spec hok hcap hs
    refine ⟨c', _, hc', hst, min_le_right _ _, ?_⟩
    rw [← cursorAt_next _ hi]
    exact (some.inj hl).symm

theorem moves_spec {ms : List Move} {l : Cursor}
    (hl : ms.foldlM (moveList version) (cursorAt version t.flat i) = some l) :
    ∃ c', ms.foldlM moveTree c = some c' ∧ ShowsCursor c' l := by
  induction ms generalizing c i with
  | nil =>
    cases hl
    exact ⟨c, rfl, showsCursor_at hs⟩
  | cons m ms ih =>
    obtain ⟨l₁, hl₁, hl⟩ := Option.bind_eq_some_iff.mp hl
    obtain ⟨c₁, j, hc₁, hs₁, hj, rfl⟩ := move_spec hok hcap hpos hs hi hl₁
    obtain ⟨c', hc', hshows⟩ := ih hs₁ hj hl
    exact ⟨c', Option.bind_eq_some_iff.mpr ⟨c₁, hc₁, hc'⟩, hshows⟩

end

end

/-! ## Of a replica -/

variable {cfg : Profile} {remoteId : Nat} {baseText : List Char} {w : World}

theorem timestamp_pos (hw : World.Reachable cfg remoteId baseText w) (r : Nat) {f : Fragment}
    (hf : f ∈ (w.bufs r).snapshot.fragments) : 0 < f.timestamp.value := by
  have hinv := hw.inv
  have hcell : (f.timestamp, f.insertionOffset) ∈ (cellsOf (w.bufs r).snapshot.fragments).map Cell.id := by
    have hlen := (hinv.replicas r).wf.len_pos f hf
    refine List.mem_map.mpr ⟨f.cellAt f.insertionOffset, mem_cellsOf.mpr ⟨f, hf, mem_cells.mpr ⟨le_refl _, ?_, rfl⟩⟩, rfl⟩
    show f.insertionOffset < f.insertionOffset + f.len
    omega
  rw [(hinv.replicas r).mirrors.ids] at hcell
  rcases hinv.doc.inserted _ (Doc.mem_view.mp hcell).1 with hbase | ⟨op, hop, ht⟩
  · rw [show f.timestamp = baseId from hbase]
    decide
  · rw [show f.timestamp = op.timestamp from ht.symm]
    exact lt_of_le_of_lt (Nat.zero_le _) (hinv.causal.clock _ hop 0)

def scanTo (version : Global) (fragments : List Fragment) (position : Nat) (bias : Bias) : Cursor :=
  ((⟨(0, 0), fragments⟩ : Cursor).slice (SpkEditor.VersionedFullOffset version) position bias).2

def twoLeaves (left right : List Fragment) : SumTree Fragment FragmentSummary :=
  .internal 1 (sumOf (left ++ right)) [sumOf left, sumOf right]
    [.leaf (sumOf left) left (left.map Item.summary), .leaf (sumOf right) right (right.map Item.summary)]

theorem ok_twoLeaves {left right : List Fragment} (hl : left ≠ []) (hr : right ≠ [])
    (hlen : left.length ≤ 2 * TREE_BASE ∧ right.length ≤ 2 * TREE_BASE) :
    (twoLeaves left right).Ok ∧ (twoLeaves left right).flat = left ++ right := by
  have hflat : SumTree.flatAll [.leaf (sumOf left) left (left.map Item.summary),
      (.leaf (sumOf right) right (right.map Item.summary) : SumTree Fragment FragmentSummary)] = left ++ right := by
    simp only [SumTree.flatAll, SumTree.flat, append_nil]
  refine ⟨.inr ⟨1, ?_⟩, hflat⟩
  rw [twoLeaves, ← hflat]
  refine .internal (by simp) (by simp [TREE_BASE]) ?_
  simp only [mem_cons, not_mem_nil, or_false]
  rintro t (rfl | rfl)
  · exact .leaf hl hlen.1
  · exact .leaf hr hlen.2

def exchangedTree : SumTree Fragment FragmentSummary :=
  twoLeaves ((exchanged.bufs 2).snapshot.fragments.take 2) ((exchanged.bufs 2).snapshot.fragments.drop 2)

theorem seek_down_full {T S D A : Type} [Summary S] [Item T S] [Dimension D S] (agg : SeekAggregate T S A)
    {target : D → Ordering} {bias : Bias} (hstop : ∀ d, passes (target d) bias = false) {t u : SumTree T S} {h : Nat}
    (hwf : SumTree.Wf h u) {rest : List (StackEntry T S D)} (hrest : rest.length < STACK_CAPACITY)
    (hcap : STACK_CAPACITY ≤ rest.length + h) (d : D) (e : Bool) (a : A) (fuel : Nat) :
    loop (TreeCursor.seekTurn agg target bias) fuel (⟨t, ⟨u, 0, d⟩ :: rest, d, true, e⟩, a, false) = none := by
  induction h generalizing u rest fuel with
  | zero => omega
  | succ h ih =>
    cases fuel with
    | zero => rfl
    | succ fuel =>
      obtain ⟨ts, rfl, hne, _, hts⟩ := hwf.children
      obtain ⟨v, ts, rfl⟩ := exists_cons_of_ne_nil hne
      rw [loop]
      simp only [TreeCursor.seekTurn, Bool.false_eq_true, if_false, drop_zero, map_cons, zip_cons_cons,
        TreeCursor.seekChildren, hstop, bind_some]
      by_cases hroom : rest.length + 1 < STACK_CAPACITY
      · rw [TreeCursor.pushEntry_eq (by simpa using hroom), map_some]
        exact ih (hts v mem_cons_self) (by simpa using hroom) (by simp only [length_cons]; omega) fuel
      · simp only [TreeCursor.pushEntry, length_cons, if_neg hroom, map_none]

theorem byteLen_le_baseFragments (cfg : Profile) : ∀ (fuel : Nat) (text : List Char) (offset : Nat) (prevLocator : Locator),
    text.length ≤ fuel →
    byteLen text ≤ cfg.maxInsertionLen * (Buffer.baseFragments cfg fuel text offset prevLocator).length
  | 0, text, _, _, hfuel => by
      obtain rfl := List.length_eq_zero_iff.mp (Nat.le_zero.mp hfuel)
      simp
  | fuel + 1, text, offset, prevLocator, hfuel => by
      by_cases htext : text = []
      · simp [htext]
      obtain ⟨chunk, hchunk⟩ : ∃ chunk, chunk = if byteLen text ≤ cfg.maxInsertionLen then (text, [])
        else splitFloor cfg.maxInsertionLen text := ⟨_, rfl⟩
      have hcut : chunk.1 ++ chunk.2 = text ∧ chunk.1 ≠ [] ∧ byteLen chunk.1 ≤ cfg.maxInsertionLen := by
        rw [hchunk]
        split
        · next hle => exact ⟨append_nil text, htext, hle⟩
        · exact ⟨splitFloor_append .., splitFloor_ne_nil cfg.four_le_maxInsertionLen htext, byteLen_splitFloor_le ..⟩
      obtain ⟨happ, hne, hle⟩ := hcut
      have hlen : chunk.2.length ≤ fuel := by
        have := List.length_pos_iff.mpr hne
        have := congrArg List.length happ
        rw [length_append] at this
        omega
      have hrest := byteLen_le_baseFragments cfg fuel chunk.2 (offset + byteLen chunk.1)
        (Locator.between prevLocator Locator.max) hlen
      rw [Buffer.baseFragments, if_neg htext]
      simp only [← hchunk, length_cons]
      rw [← happ, byteLen_append, Nat.mul_succ]
      omega

theorem exists_built (fs : List Fragment) : ∃ t : SumTree Fragment FragmentSummary, Built t fs := by
  induction fs using List.reverseRecOn with
  | nil => exact ⟨_, .new⟩
  | append_singleton fs f ih =>
    obtain ⟨t, hb⟩ := ih
    obtain ⟨t', ht', -⟩ := SumTree.push_spec hb.ok.1 f
    exact ⟨t', .push f hb ht'⟩

theorem normalize_replicate (n : Nat) : normalize (List.replicate n 'a') = List.replicate n 'a' := by
  induction n with
  | zero => rfl
  | succ n ih =>
    exact congrArg _ ih

/-- A tree of more than 12 ^ 16 items is higher than the stack of a cursor. -/
theorem capacity_le_height {h : Nat} (hwf : SumTree.Wf h t) (hlen : 12 ^ 16 < t.flat.length) : STACK_CAPACITY ≤ h := by
  by_contra hlt
  have hle := hwf.length_le
  have hpow : (2 * TREE_BASE) ^ (h + 1) ≤ 12 ^ 16 :=
    Nat.pow_le_pow_right (by decide) (by rw [STACK_CAPACITY] at hlt; omega)
  omega

theorem seek_none (hok : t.Ok) (hlen : 12 ^ 16 < t.flat.length) :
    (TreeCursor.new t : TreeCursor Fragment FragmentSummary (VersionedDimensions version)).seek (offsetTarget 0) .left =
      none := by
  rcases hok with rfl | ⟨h, hwf⟩
  · exact absurd hlen (by simp [SumTree.new, SumTree.flat])
  have hstop : ∀ d : VersionedDimensions version, passes (offsetTarget 0 d) .left = false := by
    rintro ⟨_ | _, visible⟩
    · rw [passes_offset]
      simp [Cursor.passes]
    · rfl
  have hloop := fun fuel => seek_down_full (t := t) (TreeCursor.noAggregate : SeekAggregate Fragment FragmentSummary Unit)
    hstop hwf (show ([] : List (StackEntry Fragment FragmentSummary (VersionedDimensions version))).length < STACK_CAPACITY
      from Nat.succ_pos 15) (by simpa using capacity_le_height hwf hlen) (Dimension.zero FragmentSummary) t.isEmpty () fuel
  rw [TreeCursor.seek, map_eq_none_iff, TreeCursor.seekInternal, if_neg (by simp [TreeCursor.reset, offsetTarget,
    Dimension.zero, VersionedFullOffset.cmpOffset, TreeCursor.new])]
  have henter : ((TreeCursor.new t : TreeCursor Fragment FragmentSummary (VersionedDimensions version)).reset).enter =
      some ⟨t, [⟨t, 0, Dimension.zero FragmentSummary⟩], Dimension.zero FragmentSummary, true, t.isEmpty⟩ := rfl
  rw [henter, bind_some, hloop, bind_none]

/-- A buffer with so many fragments: it need not have been edited, if its base text is long enough. -/
theorem exists_overflow {n : Nat} (hn : 16 * 12 ^ 16 < n) :
    ∃ (w : World) (t : SumTree Fragment FragmentSummary),
      World.Reachable .test 0 (List.replicate n 'a') w ∧ Built t (w.bufs 0).snapshot.fragments ∧
      (TreeCursor.new t : TreeCursor Fragment FragmentSummary (VersionedDimensions (w.bufs 0).snapshot.version)).seek
        (offsetTarget 0) .left = none := by
  obtain ⟨t, hb⟩ := exists_built ((World.init .test 0 (List.replicate n 'a')).bufs 0).snapshot.fragments
  refine ⟨_, t, ⟨[], .nil⟩, hb, seek_none hb.ok.1 ?_⟩
  have hlen : byteLen (List.replicate n 'a') = n := by simp [byteLen, map_replicate, show 'a'.utf8Size = 1 from rfl]
  have hmany := byteLen_le_baseFragments .test (List.replicate n 'a').length (List.replicate n 'a') 0 Locator.min (le_refl _)
  have hfragments : ((World.init .test 0 (List.replicate n 'a')).bufs 0).snapshot.fragments =
      Buffer.baseFragments .test (List.replicate n 'a').length (List.replicate n 'a') 0 Locator.min := by
    show Buffer.baseFragments .test (normalize (List.replicate n 'a')).length (normalize (List.replicate n 'a')) 0 Locator.min = _
    rw [normalize_replicate]
  rw [hb.ok.2, hfragments]
  rw [hlen, Profile.maxInsertionLen] at hmany
  omega

end FragmentTree

end SpkEditor
