import SpkEditor.Text.EditSteps

/-!
# Local edits are splices

Seen through its cells, `apply_local_edit` does what one expects of an edit: between
two edits it copies, at an edit it inserts the text and deletes the visible cells of
the range. The ranges it records for the other replicas are positions among all its
cells, and with those ranges the whole edit is one `splice` where everything was
seen.
-/

namespace SpkEditor

open List

theorem visibleLen_add_deletedLen (f : Fragment) : f.visibleLen + f.deletedLen = f.len := by
  unfold Fragment.visibleLen Fragment.deletedLen
  split <;> omega

theorem FragmentTextSummary_pos (f : Fragment) :
    FragmentTextSummary.pos f = 0 ∨ FragmentTextSummary.pos f = f.len := by
  simp only [FragmentTextSummary, Fragment.visibleLen]
  split
  · exact .inr rfl
  · exact .inl rfl

theorem length_cellsOf (fs : List Fragment) : (cellsOf fs).length = visibleLen fs + deletedLen fs := by
  induction fs with
  | nil => rfl
  | cons f fs ih =>
    have := visibleLen_add_deletedLen f
    simp only [cellsOf_cons, length_append, Fragment.length_cells, ih, visibleLen, deletedLen,
      map_cons, sum_cons]
    omega

def hitLocal (T : Lamport) (c : Cell) : Cell := if c.visible then c.delete T else c

def visibleBefore (cells : List Cell) (i : Nat) : Nat := (cells.take i).countP Cell.visible

def visibleRange (cells : List Cell) (r : Range) : Range :=
  ⟨visibleBefore cells r.start, visibleBefore cells r.stop⟩

theorem length_textOf_true (byte : Lamport → Nat → UInt8) (l : List Cell) :
    (textOf byte true l).length = l.countP Cell.visible := by
  simp [textOf, countP_eq_length_filter]

/-! ## Replacing ranges of a text -/

/-- A text from position `i` on, with some ranges replaced, all at once. -/
def replaceFrom : Nat → List (Range × List UInt8) → List UInt8 → List UInt8
  | _, [], text => text
  | i, (r, new) :: edits, text =>
    text.take (r.start - i) ++ (new ++ replaceFrom r.stop edits (text.drop (r.stop - i)))

/-- A text with some ranges replaced, all at once. -/
def replaceRanges (edits : List (Range × List UInt8)) (text : List UInt8) : List UInt8 :=
  replaceFrom 0 edits text

section Replace

variable {byte : Lamport → Nat → UInt8} {T : Lamport}

section

variable (cells : List Cell)

theorem visibleBefore_mono {i j : Nat} (h : i ≤ j) :
    visibleBefore cells i ≤ visibleBefore cells j :=
  (take_sublist_take_left h).countP_le

theorem textOf_take (i : Nat) :
    textOf byte true (cells.take i) = (textOf byte true cells).take (visibleBefore cells i) := by
  conv_rhs => rw [← take_append_drop i cells, textOf_append]
  rw [take_left' (by rw [length_textOf_true, visibleBefore, take_append_drop])]

theorem textOf_drop (i : Nat) :
    textOf byte true (cells.drop i) = (textOf byte true cells).drop (visibleBefore cells i) := by
  conv_rhs => rw [← take_append_drop i cells, textOf_append]
  rw [drop_left' (by rw [length_textOf_true, visibleBefore, take_append_drop])]

theorem textOf_between {i j : Nat} (h : i ≤ j) : textOf byte true ((cells.drop i).take (j - i)) =
      ((textOf byte true cells).drop (visibleBefore cells i)).take
        (visibleBefore cells j - visibleBefore cells i) := by
  rw [take_drop, show i + (j - i) = j by omega, textOf_drop, textOf_take, take_drop]
  have hmono := visibleBefore_mono cells h
  rw [show visibleBefore (cells.take j) i = visibleBefore cells i by
    rw [visibleBefore, visibleBefore, take_take, min_eq_left h],
    show visibleBefore cells i + (visibleBefore cells j - visibleBefore cells i) =
      visibleBefore cells j by omega]

theorem textOf_hitLocal : textOf byte true (cells.map (hitLocal T)) = [] := by
  have hnone : ∀ c ∈ cells.map (hitLocal T), c.visible = false := by
    intro c hc
    obtain ⟨c', -, rfl⟩ := List.mem_map.mp hc
    unfold hitLocal
    split
    · rfl
    · simp_all
  rw [textOf_uniform byte hnone]
  simp

end

theorem textOf_inserted (off len : Nat) :
    textOf byte true ((List.range' off len).map (Cell.inserted T)) =
      (List.range' off len).map (byte T) := by
  have hall : ∀ c ∈ (List.range' off len).map (Cell.inserted T), c.visible = true := by
    intro c hc
    obtain ⟨o, -, rfl⟩ := List.mem_map.mp hc
    rfl
  rw [textOf_uniform byte hall, if_pos rfl, bytesOf, map_map]
  rfl

/-- **The visible text of a splice** is the visible text with the visible ranges replaced.
The induction is on the ranges; `i` is how far the cells have been used. -/
theorem textOf_splice (cells : List Cell) : ∀ (ranges : List Range) (texts : List (List Char))
    (i off : Nat), ranges.length = texts.length → ValidRanges i ranges cells.length →
    (List.range' off (byteLen texts.flatten)).map (byte T) = utf8 texts.flatten →
    textOf byte true (Splice.splice (fun _ => true) (fun _ => false) (hitLocal T) i
        (blocksOf T off ranges texts) (cells.drop i)) =
      replaceFrom (visibleBefore cells i) ((ranges.map (visibleRange cells)).zip (texts.map utf8))
        ((textOf byte true cells).drop (visibleBefore cells i))
  | [], texts, i, off, _, _, _ => textOf_drop cells i
  | r :: ranges, [], i, off, hlen, _, _ => absurd hlen (by simp)
  | r :: ranges, text :: texts, i, off, hlen, ⟨hv1, hv2, hv3⟩, hb => by
      simp only [flatten_cons, byteLen_append, utf8, flatMap_append] at hb
      rw [← range'_append_1, map_append] at hb
      obtain ⟨hb1, hb2⟩ := append_inj hb (by
        have := length_utf8 text
        simpa [utf8] using this.symm)
      have ih := textOf_splice cells ranges texts r.stop (off + byteLen text)
        (by simpa using hlen) hv3 hb2
      have hmono := visibleBefore_mono cells (le_trans hv1 hv2)
      simp only [blocksOf, Splice.splice_all_cons, map_cons, zip_cons_cons, replaceFrom,
        textOf_append, textOf_hitLocal, textOf_inserted, nil_append, drop_drop]
      rw [show i + (r.start - i) + (r.stop - r.start) = r.stop by omega, ih, textOf_between cells hv1,
        hb1]
      simp only [visibleRange]
      rw [show visibleBefore cells i + (visibleBefore cells r.stop - visibleBefore cells i) =
        visibleBefore cells r.stop by omega]
      rfl

end Replace

section Local

variable {byte : Lamport → Nat → UInt8} {s : BufferSnapshot} {T : Lamport}
  {pre : List Fragment} {st : EditState}

section

variable (h : EditInv FragmentTextSummary byte s T pre st)
include h

theorem local_progress : progress pre st = st.fragmentStart + st.oldFragments.start.2 := by
  have hls := h.le_start
  have h1 : st.oldFragments.start.1 = visibleLen pre := by rw [h.start]; rfl
  have h2 : st.oldFragments.start.2 = deletedLen pre := by rw [h.start]; rfl
  rw [progress, length_cellsOf]
  omega

theorem local_oldVisibleLen : st.fragmentStart = oldVisibleLen byte s pre st := by
  have hls := h.le_start
  have h1 : st.oldFragments.start.1 = visibleLen pre := by rw [h.start]; rfl
  rw [oldVisibleLen, h.take_progress, textOf_append, length_append, length_textOf_visible, ← h1]
  by_cases hlt : st.oldFragments.start.1 < st.fragmentStart
  · obtain ⟨f, rest, hf, hpos, hle⟩ := h.trim hlt
    have hv : ∀ c ∈ f.cells.take (st.fragmentStart - st.oldFragments.start.1),
        c.visible = f.visible := fun c hc => (cells_uniform (mem_of_mem_take hc)).2.1
    have hfv : f.visible = true := by
      by_contra hne
      simp only [FragmentTextSummary, Fragment.visibleLen, hne] at hpos
      simp at hpos
      omega
    rw [hf]
    simp only [head?_cons, Option.map_some, Option.getD_some]
    rw [textOf_uniform byte hv, if_pos hfv, length_bytesOf, length_take, Fragment.length_cells]
    omega
  · rw [show st.fragmentStart - st.oldFragments.start.1 = 0 by omega]
    simp
    omega

theorem local_visibleBefore :
    visibleBefore (cellsOf s.fragments) (progress pre st) = st.fragmentStart := by
  rw [local_oldVisibleLen h, oldVisibleLen, length_textOf_true]
  rfl

end

theorem deleteStepLocal_used {f : Fragment} {stop : Nat} (hv : f.visible = true)
    (hstop : min stop (st.oldFragments.stop FragmentTextSummary) ≤ st.fragmentStart) :
    st.deleteStepLocal T stop f = st := by
  simp only [EditState.deleteStepLocal, hv, if_true, EditState.part]
  rw [if_neg (by omega)]

section

variable (h : EditInv FragmentTextSummary byte s T pre st) (hctx : EditCtx byte s T) {f : Fragment}
  {rest : List Fragment} {stop : Nat} (hrest : st.oldFragments.rest = f :: rest)
include h hctx hrest

theorem deleteStepLocal_visible (hv : f.visible = true)
    (hlt : st.fragmentStart < min stop (st.oldFragments.stop FragmentTextSummary)) :
    Deletes FragmentTextSummary byte s T (hitLocal T) pre st pre (st.deleteStepLocal T stop f) ∧
      (st.deleteStepLocal T stop f).oldFragments = st.oldFragments ∧
      (st.deleteStepLocal T stop f).fragmentStart =
        min stop (st.oldFragments.stop FragmentTextSummary) := by
  obtain ⟨stop', hstop'⟩ : ∃ n, min stop (st.oldFragments.stop FragmentTextSummary) = n := ⟨_, rfl⟩
  have hpos : FragmentTextSummary.pos f = f.len := by
    simp [FragmentTextSummary, Fragment.visibleLen, hv]
  have hend : stop' ≤ st.oldFragments.start.1 + f.len := by
    have : st.oldFragments.stop FragmentTextSummary = st.oldFragments.start.1 + f.len := by
      simp [Cursor.stop, hrest, hpos]
    omega
  have hls := h.le_start
  rw [hstop'] at hlt ⊢
  obtain ⟨g, hg⟩ : ∃ g : Fragment, g = { st.part f stop' with
      id := Locator.between (maxId st.newFragments) f.id
      deletions := f.deletions ++ [T]
      visible := false } := ⟨_, rfl⟩
  have hgl : g.len = stop' - st.fragmentStart := by rw [hg]; rfl
  have hgv : g.visible = false := by rw [hg]
  have hgd : g.deletions = f.deletions ++ [T] := by rw [hg]
  have hst : st.deleteStepLocal T stop f = { st.pushNew g true with
        editsPatch := st.editsPatch.push ⟨⟨st.fragmentStart, stop'⟩,
          ⟨visibleLen st.newFragments, visibleLen st.newFragments⟩⟩
        insertionSlices := st.insertionSlices ++ [.fromFragment T g]
        fragmentStart := stop' } := by
    have hlen : 0 < stop' - st.fragmentStart := by omega
    subst hg
    simp [EditState.deleteStepLocal, hv, EditState.part, hstop', hlen, EditState.pushNew,
      EditState.push]
  have hp : PieceOf T st f g := by
    refine ⟨by rw [hg]; rfl, by rw [hg]; rfl, by rw [hg]; rfl, by omega, by omega,
      .inr ⟨hgv, hgd⟩⟩
  have he : Emits T st.fragmentStart st (st.deleteStepLocal T stop f) f g := by
    rw [hst]
    refine ⟨rfl, by rw [hv]; rfl, rfl, ?_, ?_⟩
    · rw [if_neg (by simp [hgd])]
    · simp only [hv, hgv, Bool.not_false, Bool.and_true, if_true, hgl]
      rw [show st.fragmentStart + (stop' - st.fragmentStart) = stop' by omega]
  have hinv := h.emit_stay hctx hrest hp he (fun _ => local_oldVisibleLen h) (by rw [hg]) hpos
    (by rw [hst]; rfl) (by rw [hst, hgl]; dsimp only; omega)
  refine ⟨deletes_of_emit (g := g) ?_ he.fragments (by rw [hst]; rfl) hinv, by rw [hst]; rfl,
    by rw [hst]⟩
  rw [hp.fate_cells.2 (by simp [hgd]), h.piece_cells hrest hp]
  refine map_congr_left (fun c hc => ?_)
  rw [← h.piece_cells hrest hp] at hc
  have hcv := (cells_uniform (mem_of_mem_drop (mem_of_mem_take hc))).2.1
  rw [hitLocal, hcv, hv, if_pos rfl]

theorem deleteStepLocal_hidden (hv : f.visible = false) (hle : st.fragmentStart ≤ stop) :
    let st' := { st.deleteStepLocal T stop f with
      oldFragments := (st.deleteStepLocal T stop f).oldFragments.next FragmentTextSummary }
    Deletes FragmentTextSummary byte s T (hitLocal T) pre st (pre ++ [f]) st' ∧
      st'.oldFragments.rest = rest ∧ st'.fragmentStart = st.fragmentStart := by
  intro st'
  have hlen := hctx.len_pos f (h.mem_of_rest (by rw [hrest]; simp))
  have hvl : f.visibleLen = 0 := by simp [Fragment.visibleLen, hv]
  have hstop : st.oldFragments.stop FragmentTextSummary = st.oldFragments.start.1 := by
    simp [Cursor.stop, hrest, FragmentTextSummary, hvl]
  have hls := h.le_start
  have hfle := h.le_stop
  have hst : st' = { st.pushNew f false with
      oldFragments := st.oldFragments.next FragmentTextSummary
      fragmentStart := st.fragmentStart } := by
    have hmin : min stop (st.oldFragments.stop FragmentTextSummary) = st.fragmentStart := by omega
    simp [st', EditState.deleteStepLocal, hv, hlen, hmin, EditState.pushNew, EditState.push]
  have hp : PieceOf T st f f :=
    ⟨rfl, by omega, rfl, hlen, by omega, .inl ⟨rfl, rfl⟩⟩
  have he : Emits T st.fragmentStart st st' f f := by
    rw [hst]
    refine ⟨rfl, by rw [hv]; rfl, rfl, ?_, ?_⟩
    · rw [if_pos rfl]; rfl
    · simp [hv, EditState.pushNew, EditState.push]
  have hnext : (st.oldFragments.next FragmentTextSummary).start.1 = st.fragmentStart := by
    simp only [Cursor.next, hrest, FragmentTextSummary, hvl]
    omega
  have hinv := h.emit_last hctx hrest hp he (fun _ => local_oldVisibleLen h) rfl (by omega)
    (by rw [hst]) (by rw [hst]; exact hnext.symm)
  refine ⟨deletes_of_emit (g := f) ?_ he.fragments (by rw [hst]; rfl) hinv, ?_, by rw [hst]⟩
  · rw [← h.piece_cells hrest hp, show st.fragmentStart - st.oldFragments.start.1 = 0 by omega,
      drop_zero, take_of_length_le (by simp)]
    rw [map_congr_left (g := id) (fun c hc => ?_), map_id]
    rw [hitLocal, (cells_uniform hc).2.1, hv]
    rfl
  · rw [hst]; simp [Cursor.next, hrest]

end

/--
**The deletion loop of a local edit** hits every cell up to `stop`. The induction is
on the fragments the cursor has not passed.
-/
theorem deleteLocal_spec (hctx : EditCtx byte s T) {stop : Nat} :
    ∀ (rest : List Fragment) (pre : List Fragment) (st : EditState),
      st.oldFragments.rest = rest → EditInv FragmentTextSummary byte s T pre st →
      st.fragmentStart ≤ stop → stop ≤ (s.fragments.map FragmentTextSummary.pos).sum →
      ∃ pre' st', EditState.deleteLocal T stop rest st = some st' ∧
        Deletes FragmentTextSummary byte s T (hitLocal T) pre st pre' st' ∧
        st'.fragmentStart = stop
  | [], pre, st, hrest, h, hle, htotal => by
      have hsum := h.start_add_rest
      rw [hrest] at hsum
      simp only [map_nil, sum_nil, add_zero] at hsum
      have hls := h.le_start
      have hnot : ¬ st.fragmentStart < stop := by omega
      exact ⟨pre, st, by simp [EditState.deleteLocal, hnot], Deletes.refl h, by omega⟩
  | f :: rest, pre, st, hrest, h, hle, htotal => by
      simp only [EditState.deleteLocal]
      by_cases hlt : st.fragmentStart < stop
      swap
      · rw [if_neg hlt]
        exact ⟨pre, st, rfl, Deletes.refl h, by omega⟩
      rw [if_pos hlt]
      have hls := h.le_start
      have hfle := h.le_stop
      have hstop : st.oldFragments.stop FragmentTextSummary =
          st.oldFragments.start.1 + f.visibleLen := by
        simp [Cursor.stop, hrest, FragmentTextSummary]
      cases hv : f.visible with
      | false =>
        -- a deleted fragment takes no visible text
        have hvl : f.visibleLen = 0 := by simp [Fragment.visibleLen, hv]
        obtain ⟨hd, hrest', hfs⟩ := deleteStepLocal_hidden h hctx hrest hv hle
        obtain ⟨pre', st', heq, hd', hst'⟩ := deleteLocal_spec hctx rest (pre ++ [f]) _ hrest'
          hd.inv (by rw [hfs]; exact hle) htotal
        rw [if_pos (by omega)]
        exact ⟨pre', st', heq, hd.trans hd', hst'⟩
      | true =>
        have hpos : FragmentTextSummary.pos f = f.len := by
          simp [FragmentTextSummary, Fragment.visibleLen, hv]
        have hvl : f.visibleLen = f.len := hpos
        by_cases hused : st.fragmentStart = st.oldFragments.stop FragmentTextSummary
        · -- nothing of it is left: step over it
          rw [deleteStepLocal_used hv (by omega), if_pos (by omega)]
          obtain ⟨hinv, hprog⟩ := h.pass hctx hrest hpos (by omega)
          obtain ⟨pre', st', heq, hd, hst'⟩ := deleteLocal_spec hctx rest (pre ++ [f])
            { st with oldFragments := st.oldFragments.next FragmentTextSummary }
            (by simp [Cursor.next, hrest]) hinv hle htotal
          exact ⟨pre', st', heq, Deletes.trans ⟨hinv, by omega, by rw [hprog]; simp, rfl⟩ hd, hst'⟩
        obtain ⟨hd, hold, hfs⟩ := deleteStepLocal_visible h hctx hrest hv
          (show st.fragmentStart < min stop _ by omega)
        by_cases hend : st.oldFragments.stop FragmentTextSummary ≤ stop
        · -- it ends inside the range: go on with the next one
          rw [if_pos hend]
          obtain ⟨hinv, hprog⟩ := hd.inv.pass hctx (by rw [hold]; exact hrest) hpos
            (by rw [hfs, hold]; omega)
          obtain ⟨pre', st', heq, hd', hst'⟩ := deleteLocal_spec hctx rest (pre ++ [f]) _
            (by simp [Cursor.next, hold, hrest]) hinv (by dsimp only; rw [hfs]; omega) htotal
          refine ⟨pre', st', heq, ?_, hst'⟩
          exact hd.trans (Deletes.trans ⟨hinv, by omega, by rw [hprog]; simp, rfl⟩ hd')
        · rw [if_neg hend]
          exact ⟨pre, _, rfl, hd, by rw [hfs]; omega⟩

/-- **One local edit**: copy up to its start, insert, delete up to its end. -/
theorem editLocal_spec (h : EditInv FragmentTextSummary byte s T pre st) (hctx : EditCtx byte s T)
    (cfg : Profile) {range : Range} {text : List Char} (hle : st.fragmentStart ≤ range.start)
    (hrange : range.start ≤ range.stop)
    (htotal : range.stop ≤ (s.fragments.map FragmentTextSummary.pos).sum)
    (hbyte : (List.range' st.insertionOffset (byteLen text)).map (byte T) = utf8 text) :
    ∃ pre' st' start, st.editLocal cfg T range text = some (st', ⟨start, progress pre' st'⟩) ∧
      EditInv FragmentTextSummary byte s T pre' st' ∧ st'.fragmentStart = range.stop ∧
      st'.insertionOffset = st.insertionOffset + byteLen text ∧
      progress pre st ≤ start ∧ start ≤ progress pre' st' ∧
      visibleRange (cellsOf s.fragments) ⟨start, progress pre' st'⟩ = range ∧
      cellsOf st'.newFragments = cellsOf st.newFragments ++
        (((cellsOf s.fragments).drop (progress pre st)).take (start - progress pre st) ++
        ((List.range' st.insertionOffset (byteLen text)).map (Cell.inserted T) ++
        (((cellsOf s.fragments).drop start).take (progress pre' st' - start)).map (hitLocal T))) := by
  obtain ⟨pre₁, st₁, heq₁, hc₁, hle₁, hstop₁, -⟩ := h.jumpTo hctx hle (by omega) .right
  obtain ⟨st₂, heq₂, hc₂, hfs₂, hold₂⟩ :=
    hc₁.inv.preserveFront hctx hle₁ hstop₁ FragmentTextSummary_pos
  have hc := hc₁.trans hc₂
  have hoff : st₂.insertionOffset = st.insertionOffset := hc.insertionOffset
  obtain ⟨hinv₃, hprog₃, hold₃, hfs₃, hoff₃, hcells₃⟩ :=
    hc.inv.insert hctx cfg (local_oldVisibleLen hc.inv) (by rw [hoff]; exact hbyte)
  obtain ⟨pre₄, st₄, heq₄, hd₄, hfs₄⟩ := deleteLocal_spec hctx _ pre₁ _ rfl
    hinv₃ (show _ ≤ range.stop by rw [hfs₃, hfs₂]; exact hrange) htotal
  -- the recorded ranges are positions among all cells
  have hstart : range.start + st₁.oldFragments.start.2 = progress pre₁ st₂ := by
    rw [local_progress hc.inv, hfs₂, hold₂]
  have hend : range.stop + st₄.oldFragments.start.2 = progress pre₄ st₄ := by
    rw [local_progress hd₄.inv, hfs₄]
  refine ⟨pre₄, st₄, progress pre₁ st₂, ?_, hd₄.inv, hfs₄, ?_, hc.le, ?_, ?_, ?_⟩
  · simp only [EditState.editLocal, heq₁, heq₂, heq₄, hstart, hend]
  · rw [hd₄.insertionOffset, hoff₃, hoff]
  · have := hd₄.le; omega
  · simp only [visibleRange, local_visibleBefore hc.inv, local_visibleBefore hd₄.inv, hfs₂, hfs₄]
  · rw [hd₄.cells, hcells₃, hc.cells, hprog₃, hoff]
    simp only [append_assoc]

theorem editsLocal_spec (hctx : EditCtx byte s T) (cfg : Profile) :
    ∀ (edits : List (Range × List Char)) (pre : List Fragment) (st : EditState),
      EditInv FragmentTextSummary byte s T pre st →
      ValidRanges st.fragmentStart (edits.map Prod.fst)
        (s.fragments.map FragmentTextSummary.pos).sum →
      (List.range' st.insertionOffset (byteLen (edits.flatMap Prod.snd))).map (byte T) =
        utf8 (edits.flatMap Prod.snd) →
      ∃ pre' st' ranges, st.editsLocal cfg T edits = some (st', ranges) ∧
        EditInv FragmentTextSummary byte s T pre' st' ∧ ranges.length = edits.length ∧
        ValidRanges (progress pre st) ranges (cellsOf s.fragments).length ∧
        ranges.map (visibleRange (cellsOf s.fragments)) = edits.map Prod.fst ∧
        cellsOf st'.newFragments ++ (cellsOf s.fragments).drop (progress pre' st') =
          cellsOf st.newFragments ++
            Splice.splice (fun _ => true) (fun _ => false) (hitLocal T) (progress pre st)
              (blocksOf T st.insertionOffset ranges (edits.map Prod.snd))
              ((cellsOf s.fragments).drop (progress pre st))
  | [], pre, st, h, _, _ => by
      refine ⟨pre, st, [], rfl, h, rfl, ?_, rfl, rfl⟩
      show progress pre st ≤ _
      have hlen : (cellsOf s.fragments).length =
          (cellsOf pre).length + (cellsOf st.oldFragments.rest).length := by
        rw [h.passed, cellsOf_append, length_append]
      by_cases hlt : st.oldFragments.start.1 < st.fragmentStart
      · obtain ⟨f, rest, hf, -, hle⟩ := h.trim hlt
        rw [hf, cellsOf_cons, length_append, Fragment.length_cells] at hlen
        simp only [progress]; omega
      · simp only [progress]; omega
  | (range, text) :: edits, pre, st, h, hv, hb => by
      obtain ⟨hv1, hv2, hv3⟩ := hv
      simp only [flatMap_cons, byteLen_append, utf8, flatMap_append] at hb
      rw [← range'_append_1, map_append] at hb
      obtain ⟨hb1, hb2⟩ := append_inj hb (by
        have := length_utf8 text
        simpa [utf8] using this.symm)
      obtain ⟨pre₁, st₁, start, heq₁, hinv₁, hfs₁, hoff₁, hle₁, hle₂, hvis₁, hcells₁⟩ :=
        editLocal_spec h hctx cfg hv1 hv2 hv3.le hb1
      obtain ⟨pre₂, st₂, ranges, heq₂, hinv₂, hlen₂, hvalid₂, hvis₂, hcells₂⟩ :=
        editsLocal_spec hctx cfg edits pre₁ st₁ hinv₁ (by rw [hfs₁]; exact hv3)
          (by rw [hoff₁]; exact hb2)
      refine ⟨pre₂, st₂, ⟨start, progress pre₁ st₁⟩ :: ranges, ?_, hinv₂, by simp [hlen₂],
        ⟨hle₁, hle₂, hvalid₂⟩, by simp only [map_cons, hvis₁, hvis₂], ?_⟩
      · simp only [EditState.editsLocal, heq₁, heq₂]
      · rw [hcells₂, hcells₁]
        simp only [map_cons, blocksOf, Splice.splice_all_cons, append_assoc, hoff₁, drop_drop]
        rw [show progress pre st + (start - progress pre st) = start by omega,
          show start + (progress pre₁ st₁ - start) = progress pre₁ st₁ by omega]

/-- **`apply_local_edit` is a splice.** It succeeds on valid ranges, and what it does to
the cells is described by the operation it returns. -/
theorem applyLocalEdit_spec (hctx : EditCtx byte s T) (cfg : Profile)
    {edits : List (Range × List Char)} (hne : edits ≠ [])
    (hv : ValidRanges 0 (edits.map Prod.fst) s.visibleText.length)
    (hb : (List.range' 0 (byteLen (edits.flatMap fun e => normalize e.2))).map (byte T) =
      utf8 (edits.flatMap fun e => normalize e.2)) :
    ∃ s' patch ranges newInsertions slices, s.applyLocalEdit cfg edits T =
        some (s', patch, ⟨T, s.version, ranges, edits.map fun e => normalize e.2⟩) ∧
      EditDone byte s T newInsertions slices s' patch ∧ ranges.length = edits.length ∧
      ValidRanges 0 ranges (cellsOf s.fragments).length ∧
      s'.visibleText = replaceRanges (edits.map fun e => (e.1, utf8 (normalize e.2))) s.visibleText ∧
      cellsOf s'.fragments = Splice.splice (fun _ => true) (fun _ => false) (hitLocal T) 0
          (blocksOf T 0 ranges (edits.map fun e => normalize e.2)) (cellsOf s.fragments) := by
  obtain ⟨⟨first, text⟩, rest, rfl⟩ := exists_cons_of_ne_nil hne
  obtain ⟨edits', hedits⟩ : ∃ e : List (Range × List Char),
      e = ((first, text) :: rest).map (fun e => (e.1, normalize e.2)) := ⟨_, rfl⟩
  have hfst : edits'.map Prod.fst = ((first, text) :: rest).map Prod.fst := by
    rw [hedits]; simp
  have hsnd : edits'.map Prod.snd = ((first, text) :: rest).map fun e => normalize e.2 := by
    rw [hedits]; simp
  have hflat : edits'.flatMap Prod.snd = ((first, text) :: rest).flatMap fun e => normalize e.2 := by
    rw [hedits]; simp [flatMap_map]
  have htotal : s.visibleText.length = (s.fragments.map FragmentTextSummary.pos).sum := by
    rw [hctx.visibleText, length_textOf_visible]; rfl
  rw [htotal] at hv
  -- the first slice, before the first edit
  obtain ⟨fs, rest', -, -, hc, hz, -, hpass, hnil⟩ :=
    (EditInv.new (d := FragmentTextSummary) hctx).appendSlice hctx rfl first.start .right
  have hfs : ((EditState.new s).appendSlice FragmentTextSummary first.start .right).fragmentStart ≤
      first.start := by
    by_cases hne : fs = []
    · rw [hnil hne]; exact Nat.zero_le _
    · have := hpass hne
      simp only [Cursor.passes, Bool.or_eq_true, decide_eq_true_eq, Bool.and_eq_true,
        beq_iff_eq] at this
      omega
  obtain ⟨pre₁, st₁, ranges, heq₁, hinv₁, hlen, hvalid, hvis, hcells₁⟩ :=
    editsLocal_spec hctx cfg edits' _ _ hc.inv (by rw [hfst]; exact ⟨hfs, hv.2.1, hv.2.2⟩) (by
        rw [hc.insertionOffset, hflat]
        exact hb)
  obtain ⟨s', patch, newInsertions, slices, hfin, hdone, hcells⟩ := hinv₁.finish hctx
  have hvalid₀ : ValidRanges 0 ranges (cellsOf s.fragments).length := by
    cases ranges with
    | nil => exact Nat.zero_le _
    | cons r rs => exact ⟨Nat.zero_le _, hvalid.2⟩
  have hsplice : cellsOf s'.fragments = Splice.splice (fun _ => true) (fun _ => false) (hitLocal T) 0
      (blocksOf T 0 ranges (edits'.map Prod.snd)) (cellsOf s.fragments) := by
    have hzero : progress [] (EditState.new s) = 0 := rfl
    have hoff : (EditState.new s).insertionOffset = 0 := rfl
    have hnone : cellsOf (EditState.new s).newFragments = [] := rfl
    rw [hcells, hcells₁, hc.cells, hc.insertionOffset, hzero, hoff, hnone]
    obtain ⟨k, hk⟩ : ∃ k, progress ([] ++ fs)
        ((EditState.new s).appendSlice FragmentTextSummary first.start .right) = k := ⟨_, rfl⟩
    rw [hk] at hvalid ⊢
    cases ranges with
    | nil =>
      rw [hedits] at hlen
      simp at hlen
    | cons r rs =>
      obtain ⟨hr1, -, -⟩ := hvalid
      rw [hedits]
      simp only [map_cons, nil_append, drop_zero, Nat.sub_zero, blocksOf,
        Splice.splice_all_cons, drop_drop]
      rw [show k + (r.start - k) = r.start by omega, ← append_assoc, ← take_add,
        show k + (r.start - k) = r.start by omega]
  refine ⟨s', patch, ranges, newInsertions, slices, ?_, hdone, by rw [hlen, hedits]; simp, hvalid₀, ?_,
    by rw [← hsnd]; exact hsplice⟩
  · simp only [BufferSnapshot.applyLocalEdit]
    rw [← hedits, heq₁]
    simp only [hfin, hsnd]
  · have htext := @textOf_splice byte T (cellsOf s.fragments) ranges
      (edits'.map Prod.snd) 0 0 (by rw [hlen, length_map]) hvalid₀
      (by rw [← flatMap_def, hflat]; exact hb)
    rw [drop_zero] at htext
    rw [hdone.visibleText, hsplice, htext, hvis, hctx.visibleText, map_map, zip_map', hedits,
      map_map]
    rfl

end Local

end SpkEditor
