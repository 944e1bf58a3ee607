import SpkEditor.Lib.Splice
import SpkEditor.Text.EditInv

/-!
# The steps both edit loops share

Jumping ahead, finishing a fragment and preserving the front of one all copy old
cells: `Copies` says how many. Each step is shown to succeed, to keep `EditInv`, and
to copy exactly the cells it goes past.
-/

namespace SpkEditor

open List

section

variable (d : Dimensions) (byte : Lamport → Nat → UInt8) (s : BufferSnapshot) (T : Lamport)

/-- From one state to a later one by copying old cells. -/
structure Copies (pre : List Fragment) (st : EditState) (pre' : List Fragment) (st' : EditState) :
    Prop where
  inv : EditInv d byte s T pre' st'
  le : progress pre st ≤ progress pre' st'
  cells : cellsOf st'.newFragments = cellsOf st.newFragments ++
    ((cellsOf s.fragments).drop (progress pre st)).take (progress pre' st' - progress pre st)
  insertionOffset : st'.insertionOffset = st.insertionOffset

variable (hit : Cell → Cell)

/-- From one state to a later one by hitting old cells. -/
structure Deletes (pre : List Fragment) (st : EditState) (pre' : List Fragment) (st' : EditState) :
    Prop where
  inv : EditInv d byte s T pre' st'
  le : progress pre st ≤ progress pre' st'
  cells : cellsOf st'.newFragments = cellsOf st.newFragments ++
    (((cellsOf s.fragments).drop (progress pre st)).take
      (progress pre' st' - progress pre st)).map hit
  insertionOffset : st'.insertionOffset = st.insertionOffset

end

section Steps

variable {d : Dimensions} {byte : Lamport → Nat → UInt8} {s : BufferSnapshot} {T : Lamport}
  {hit : Cell → Cell} {pre : List Fragment} {st : EditState}

theorem Deletes.refl (h : EditInv d byte s T pre st) : Deletes d byte s T hit pre st pre st :=
  ⟨h, le_refl _, by simp, rfl⟩

theorem Deletes.trans {pre₁ pre₂ : List Fragment} {st₁ st₂ : EditState}
    (h₁ : Deletes d byte s T hit pre st pre₁ st₁)
    (h₂ : Deletes d byte s T hit pre₁ st₁ pre₂ st₂) : Deletes d byte s T hit pre st pre₂ st₂ := by
  have hle₁ := h₁.le
  have hle₂ := h₂.le
  refine ⟨h₂.inv, by omega, ?_, h₂.insertionOffset.trans h₁.insertionOffset⟩
  rw [h₂.cells, h₁.cells, append_assoc]
  congr 1
  rw [show progress pre₂ st₂ - progress pre st =
    (progress pre₁ st₁ - progress pre st) + (progress pre₂ st₂ - progress pre₁ st₁) by omega,
    take_add, map_append, drop_drop,
    show progress pre st + (progress pre₁ st₁ - progress pre st) = progress pre₁ st₁ by omega]

theorem copies_iff {pre' : List Fragment} {st' : EditState} :
    Copies d byte s T pre st pre' st' ↔ Deletes d byte s T id pre st pre' st' :=
  ⟨fun h => ⟨h.inv, h.le, by rw [List.map_id]; exact h.cells, h.insertionOffset⟩,
    fun h => ⟨h.inv, h.le, by simpa using h.cells, h.insertionOffset⟩⟩

theorem Copies.refl (h : EditInv d byte s T pre st) : Copies d byte s T pre st pre st :=
  copies_iff.mpr (.refl h)

theorem Copies.trans {pre₁ pre₂ : List Fragment} {st₁ st₂ : EditState}
    (h₁ : Copies d byte s T pre st pre₁ st₁) (h₂ : Copies d byte s T pre₁ st₁ pre₂ st₂) :
    Copies d byte s T pre st pre₂ st₂ :=
  copies_iff.mpr ((copies_iff.mp h₁).trans (copies_iff.mp h₂))

/-! ## Cells of a piece -/

theorem EditInv.piece_cells (h : EditInv d byte s T pre st) {f g : Fragment}
    {rest : List Fragment} (hf : st.oldFragments.rest = f :: rest) (hp : PieceOf T st f g) :
    (f.cells.drop (st.fragmentStart - st.oldFragments.start.1)).take g.len =
      ((cellsOf s.fragments).drop (progress pre st)).take g.len := by
  have hle : g.len ≤ (f.cells.drop (st.fragmentStart - st.oldFragments.start.1)).length := by
    have := hp.len_le
    rw [length_drop, Fragment.length_cells]; omega
  rw [h.drop_progress hf, take_append_of_le_length hle]

theorem EditInv.copies_of_emit (h : EditInv d byte s T pre st) {st' : EditState}
    {pre' : List Fragment} {f g : Fragment} {rest : List Fragment}
    (hf : st.oldFragments.rest = f :: rest) (hp : PieceOf T st f g)
    (hd : g.deletions = f.deletions) (hnew : st'.newFragments = st.newFragments ++ [g])
    (hoff : st'.insertionOffset = st.insertionOffset)
    (hinv : EditInv d byte s T pre' st' ∧ progress pre' st' = progress pre st + g.len) :
    Copies d byte s T pre st pre' st' := by
  refine ⟨hinv.1, by omega, ?_, hoff⟩
  rw [hnew, cellsOf_append, cellsOf_cons, cellsOf_nil, append_nil, hp.fate_cells.1 hd,
    h.piece_cells hf hp, hinv.2, show progress pre st + g.len - progress pre st = g.len by omega]

theorem part_pieceOf {f : Fragment} {id : Locator} {stop : Nat}
    (hlt : st.fragmentStart < stop) (hle : stop ≤ st.oldFragments.start.1 + f.len)
    (hs : st.oldFragments.start.1 ≤ st.fragmentStart) :
    PieceOf T st f { st.part f stop with id := id } := by
  refine ⟨rfl, rfl, rfl, ?_, ?_, .inl ⟨rfl, rfl⟩⟩
  · simp only [EditState.part]; omega
  · simp only [EditState.part]; omega

theorem pushNew_emits {f g : Fragment} (oldStart : Nat) (cursor : Cursor) (fragmentStart : Nat)
    (hv : g.visible = f.visible) (hd : g.deletions = f.deletions) :
    Emits T oldStart st
      { st.pushNew g g.visible with oldFragments := cursor, fragmentStart := fragmentStart } f g := by
  refine ⟨rfl, by rw [← hv]; rfl, rfl, ?_, ?_⟩
  · rw [if_pos hd]; rfl
  · cases hfv : f.visible <;> simp [EditState.pushNew, EditState.push, hv, hfv]

theorem sliceFrom_spec (d : Dimensions) (target : Nat) (bias : Bias) :
    ∀ (rest : List Fragment) (start : Nat × Nat), ∃ fs rest', rest = fs ++ rest' ∧
      Cursor.sliceFrom d target bias start rest =
        (fs, ⟨(start.1 + (fs.map d.pos).sum, start.2 + (fs.map d.aux).sum), rest'⟩) ∧
      (∀ f tl, rest' = f :: tl →
        Cursor.passes target bias (start.1 + (fs.map d.pos).sum + d.pos f) = false) ∧
      (fs ≠ [] → Cursor.passes target bias (start.1 + (fs.map d.pos).sum) = true)
  | [], start => ⟨[], [], rfl, by simp [Cursor.sliceFrom], by simp, by simp⟩
  | f :: rest, start => by
      cases hp : Cursor.passes target bias (start.1 + d.pos f) with
      | false =>
        refine ⟨[], f :: rest, rfl, by simp [Cursor.sliceFrom, hp], ?_, by simp⟩
        intro g tl hg
        obtain ⟨rfl, -⟩ := List.cons.inj hg
        simpa using hp
      | true =>
        obtain ⟨fs, rest', hrest, heq, hstop, hpass⟩ :=
          sliceFrom_spec d target bias rest (start.1 + d.pos f, start.2 + d.aux f)
        refine ⟨f :: fs, rest', by rw [hrest]; rfl, ?_, ?_, ?_⟩
        · simp only [Cursor.sliceFrom, hp, if_true, heq, map_cons, sum_cons]
          simp [add_assoc]
        · intro g tl hg
          have := hstop g tl hg
          simpa [add_assoc] using this
        · intro _
          cases fs with
          | nil => simpa using hp
          | cons f' fs =>
            have := hpass (by simp)
            simpa [add_assoc] using this

theorem EditInv.appendSlice (h : EditInv d byte s T pre st) (hctx : EditCtx byte s T)
    (hz : st.fragmentStart = st.oldFragments.start.1) (target : Nat) (bias : Bias) :
    ∃ fs rest, st.oldFragments.rest = fs ++ rest ∧
      (st.appendSlice d target bias).oldFragments.rest = rest ∧
      Copies d byte s T pre st (pre ++ fs) (st.appendSlice d target bias) ∧
      (st.appendSlice d target bias).fragmentStart =
        (st.appendSlice d target bias).oldFragments.start.1 ∧
      (∀ f tl, rest = f :: tl → Cursor.passes target bias
        ((st.appendSlice d target bias).oldFragments.stop d) = false) ∧
      (fs ≠ [] → Cursor.passes target bias (st.appendSlice d target bias).fragmentStart = true) ∧
      (fs = [] → (st.appendSlice d target bias).fragmentStart = st.fragmentStart) := by
  obtain ⟨fs, rest, hrest, heq, hstop, hpass⟩ :=
    sliceFrom_spec d target bias st.oldFragments.rest st.oldFragments.start
  have hst : st.appendSlice d target bias =
      { st with
        newRopes := st.newRopes.append fs
        newFragments := st.newFragments ++ fs
        oldFragments := ⟨(st.oldFragments.start.1 + (fs.map d.pos).sum,
          st.oldFragments.start.2 + (fs.map d.aux).sum), rest⟩
        fragmentStart := st.oldFragments.start.1 + (fs.map d.pos).sum } := by
    simp only [EditState.appendSlice, Cursor.slice, heq]
  obtain ⟨hinv, hprog⟩ := h.keep hctx hrest hz rfl
  rw [← hst] at hinv hprog
  refine ⟨fs, rest, hrest, by rw [hst], ⟨hinv, by omega, ?_, by rw [hst]⟩, by rw [hst], ?_, ?_, ?_⟩
  · rw [hprog, show progress pre st + (cellsOf fs).length - progress pre st =
      (cellsOf fs).length by omega]
    rw [h.drop_progress_append hrest hz, take_left' rfl, hst]
    simp
  · intro f tl hf
    have := hstop f tl hf
    rw [hst]
    simpa [Cursor.stop, hf] using this
  · intro hne
    rw [hst]
    exact hpass hne
  · rintro rfl
    rw [hst, hz]
    simp

def EditState.atStart (st : EditState) : EditState :=
  { st with fragmentStart := st.oldFragments.start.1 }

theorem EditInv.finishFragment (h : EditInv d byte s T pre st) (hctx : EditCtx byte s T) :
    ∃ pre' st', st.finishFragment d = some st' ∧ Copies d byte s T pre st pre' st'.atStart ∧
      st'.oldFragments.start.1 ≤ st.oldFragments.stop d := by
  unfold EditState.finishFragment
  by_cases hlt : st.oldFragments.start.1 < st.fragmentStart
  · rw [if_pos hlt]
    obtain ⟨f, rest, hf, hpos, hle⟩ := h.trim hlt
    have hstop : st.oldFragments.stop d = st.oldFragments.start.1 + f.len := by
      simp [Cursor.stop, hf, hpos]
    have hitem : st.oldFragments.item = some f := by simp [Cursor.item, hf]
    have hnext : (st.oldFragments.next d).start.1 = st.oldFragments.start.1 + f.len := by
      simp [Cursor.next, hf, hpos]
    by_cases hlt' : st.fragmentStart < st.oldFragments.stop d
    · -- some of it is left
      simp only [hlt', if_true, hitem]
      have hp : PieceOf T st f (st.part f (st.oldFragments.stop d)) :=
        part_pieceOf hlt' (by omega) h.le_start
      have hinv := h.emit_last hctx hf hp
        (pushNew_emits (oldVisibleLen byte s pre st) (st.oldFragments.next d)
          (st.oldFragments.next d).start.1 rfl rfl) (fun _ => rfl) rfl
        (by simp only [EditState.part]; omega) rfl rfl
      refine ⟨pre ++ [f], _, rfl, ?_, ?_⟩
      · exact h.copies_of_emit hf hp rfl rfl rfl hinv
      · dsimp only; rw [hnext, hstop]
    · -- it has been used up
      simp only [hlt', if_false]
      obtain ⟨hinv, hprog⟩ := h.pass hctx hf hpos (by omega)
      refine ⟨pre ++ [f], _, rfl, ?_, ?_⟩
      · have hst : (⟨st.newRopes, st.newFragments, st.newInsertions, st.insertionSlices,
            st.editsPatch, st.insertionOffset, st.oldFragments.next d, st.fragmentStart⟩ :
              EditState).atStart = { st with oldFragments := st.oldFragments.next d } := by
          simp only [EditState.atStart, hnext]
          rw [show st.oldFragments.start.1 + f.len = st.fragmentStart by omega]
        rw [hst]
        refine ⟨hinv, by omega, by rw [hprog]; simp, rfl⟩
      · dsimp only; rw [hnext, hstop]
  · rw [if_neg hlt]
    have heq : st.fragmentStart = st.oldFragments.start.1 := by have := h.le_start; omega
    have hst : st.atStart = st := by
      unfold EditState.atStart; rw [← heq]
    refine ⟨pre, st, rfl, by rw [hst]; exact Copies.refl h, ?_⟩
    unfold Cursor.stop
    split <;> omega

theorem EditInv.preserveFront (h : EditInv d byte s T pre st) (hctx : EditCtx byte s T)
    {target : Nat} (hle : st.fragmentStart ≤ target) (hstop : target ≤ st.oldFragments.stop d)
    (hd : ∀ f, d.pos f = 0 ∨ d.pos f = f.len) :
    ∃ st', st.preserveFront target = some st' ∧ Copies d byte s T pre st pre st' ∧
      st'.fragmentStart = target ∧ st'.oldFragments = st.oldFragments := by
  unfold EditState.preserveFront
  by_cases hlt : st.fragmentStart < target
  · rw [if_pos hlt]
    have hls := h.le_start
    cases hf : st.oldFragments.rest with
    | nil => simp only [Cursor.stop, hf] at hstop; omega
    | cons f rest =>
      have hitem : st.oldFragments.item = some f := by simp [Cursor.item, hf]
      simp only [Cursor.stop, hf] at hstop
      have hpos : d.pos f = f.len := by
        rcases hd f with h0 | h0
        · omega
        · exact h0
      simp only [hitem]
      have hp : PieceOf T st f
          { st.part f target with id := Locator.between (maxId st.newFragments) f.id } :=
        part_pieceOf hlt (by omega) hls
      have hinv := h.emit_stay hctx hf hp
        (pushNew_emits (oldVisibleLen byte s pre st) st.oldFragments target rfl rfl)
        (fun _ => rfl) rfl hpos rfl (by simp only [EditState.part]; omega)
      exact ⟨_, rfl, h.copies_of_emit hf hp rfl rfl rfl hinv, rfl, rfl⟩
  · rw [if_neg hlt]
    exact ⟨st, rfl, Copies.refl h, by omega, rfl⟩

theorem EditInv.start_add_rest (h : EditInv d byte s T pre st) :
    st.oldFragments.start.1 + (st.oldFragments.rest.map d.pos).sum =
      (s.fragments.map d.pos).sum := by
  rw [h.passed, h.start]; simp

/--
**A jump copies the fragments it reuses**, and ends in or at the end of the fragment
that holds the target. If it moved at all, a position sought from the left is still
short of the target.
-/
theorem EditInv.jumpTo (h : EditInv d byte s T pre st) (hctx : EditCtx byte s T) {target : Nat}
    (hle : st.fragmentStart ≤ target) (htotal : target ≤ (s.fragments.map d.pos).sum)
    (bias : Bias) :
    ∃ pre' st', st.jumpTo d target bias = some st' ∧ Copies d byte s T pre st pre' st' ∧
      st'.fragmentStart ≤ target ∧ target ≤ st'.oldFragments.stop d ∧
      (st' = st ∨ (st'.fragmentStart = st'.oldFragments.start.1 ∧
        (bias = .left → st'.fragmentStart < target))) := by
  unfold EditState.jumpTo
  by_cases hlt : st.oldFragments.stop d < target
  · rw [if_pos hlt]
    obtain ⟨pre₁, st₁, heq, hc₁, hstart⟩ := h.finishFragment hctx
    obtain ⟨fs, rest, hrest, hrest', hc₂, hz, hstop, hpass, hnil⟩ :=
      hc₁.inv.appendSlice hctx rfl target bias
    have hsame : st₁.atStart.appendSlice d target bias = st₁.appendSlice d target bias := rfl
    rw [hsame] at hrest' hc₂ hz hstop hpass hnil
    have hfs : (st₁.appendSlice d target bias).fragmentStart ≤ target ∧
        (bias = .left → (st₁.appendSlice d target bias).fragmentStart < target) := by
      by_cases hne : fs = []
      · have := hnil hne
        simp only [EditState.atStart] at this
        exact ⟨by omega, fun _ => by omega⟩
      · have := hpass hne
        simp only [Cursor.passes, Bool.or_eq_true, decide_eq_true_eq, Bool.and_eq_true,
          beq_iff_eq] at this
        rcases this with h | ⟨hb, h⟩
        · exact ⟨by omega, fun _ => h⟩
        · exact ⟨by omega, fun hl => by rw [hb] at hl; exact absurd hl (by decide)⟩
    refine ⟨pre₁ ++ fs, _, by rw [heq]; rfl, hc₁.trans hc₂, hfs.1, ?_, .inr ⟨hz, hfs.2⟩⟩
    cases hr : rest with
    | nil =>
      have := hc₂.inv.start_add_rest
      rw [hrest', hr] at this
      simp only [map_nil, sum_nil, add_zero] at this
      simp only [Cursor.stop, hrest', hr]
      omega
    | cons f tl =>
      have := hstop f tl hr
      simp only [Cursor.passes, Bool.or_eq_false_iff, decide_eq_false_iff_not] at this
      omega
  · rw [if_neg hlt]
    exact ⟨pre, st, rfl, Copies.refl h, hle, by omega, .inl rfl⟩

/-! ## The beginning and the end -/

theorem EditInv.new (hctx : EditCtx byte s T) : EditInv d byte s T [] (EditState.new s) := by
  refine ⟨rfl, rfl, le_refl _, ?_, ?_, by simp [EditState.new], by simp [EditState.new], ?_, ?_,
    by simp [EditState.new], ?_, by simp [EditState.new], by simp [EditState.new],
    Sublist.refl _, ?_⟩
  · intro hlt; exact absurd hlt (lt_irrefl _)
  · simpa [EditState.new] using hctx.ids
  · refine ⟨rfl, rfl, ?_, ?_⟩
    · simpa [EditState.new, progress] using hctx.visibleText
    · simpa [EditState.new, progress] using hctx.deletedText
  · exact Sublist.refl _
  · intro f hf
    rcases hf with hf | ⟨-, hf⟩
    · simp at hf
    · exact absurd hf (lt_irrefl _)
  · exact Patch.describes_nil _

/-- What a finished edit leaves behind. -/
structure EditDone (byte : Lamport → Nat → UInt8) (s : BufferSnapshot) (T : Lamport)
    (newInsertions : List InsertionFragment) (newSlices : List InsertionSlice)
    (s' : BufferSnapshot) (patch : Patch) : Prop where
  ids : IdsSorted s'.fragments
  good : ∀ f ∈ s'.fragments, Locator.Good f.id
  len_pos : ∀ f ∈ s'.fragments, 0 < f.len
  visibleText : s'.visibleText = textOf byte true (cellsOf s'.fragments)
  deletedText : s'.deletedText = textOf byte false (cellsOf s'.fragments)
  insertions : s'.insertions = KeyedList.upsert InsertionFragment.key s.insertions newInsertions
  filed : newInsertions.Sublist (s'.fragments.map .new)
  kept : ∀ g ∈ s'.fragments,
    .new g ∈ newInsertions ∨ ∃ f ∈ s.fragments, InsertionFragment.new f = .new g
  refiled : ∀ f ∈ s.fragments, ∃ g ∈ s'.fragments, g.timestamp = f.timestamp ∧
    g.insertionOffset = f.insertionOffset ∧ (.new g ∈ newInsertions ∨ g.id = f.id)
  within : ∀ g ∈ s'.fragments, g.Inserted T ∨ ∃ f ∈ s.fragments, g.Within T f
  insertionSlices : s'.insertionSlices =
    KeyedList.upsert InsertionSlice.key s.insertionSlices newSlices
  slices : ∀ x, x ∈ newSlices ↔ ∃ g ∈ s'.fragments,
    (g.timestamp = T ∨ T ∈ g.deletions) ∧ x = .fromFragment T g
  sliced : newSlices.Sublist (s'.fragments.map (.fromFragment T))
  patch : patch.Describes s.visibleText s'.visibleText
  undoMap : s'.undoMap = s.undoMap
  version : s'.version = s.version
  remoteId : s'.remoteId = s.remoteId
  replicaId : s'.replicaId = s.replicaId

theorem EditInv.finish (h : EditInv d byte s T pre st) (hctx : EditCtx byte s T) :
    ∃ s' patch newInsertions slices, st.finish d s = some (s', patch) ∧
      EditDone byte s T newInsertions slices s' patch ∧
      cellsOf s'.fragments = cellsOf st.newFragments ++
        (cellsOf s.fragments).drop (progress pre st) := by
  obtain ⟨pre₁, st₁, heq, hc₁, -⟩ := h.finishFragment hctx
  obtain ⟨hinv, hprog⟩ := hc₁.inv.keep hctx 
    (show st₁.atStart.oldFragments.rest = st₁.oldFragments.rest ++ [] by simp [EditState.atStart])
    rfl rfl
  have hall : progress pre₁ st₁.atStart + (cellsOf st₁.oldFragments.rest).length =
      (cellsOf s.fragments).length := by
    have := hc₁.inv.passed
    rw [this, cellsOf_append, length_append, progress]
    simp [EditState.atStart]
  have hpass := hinv.passed
  have hrope := hinv.ropes
  have hpatch := hinv.patch
  rw [hprog, hall, drop_length] at hrope
  rw [hprog, hall, take_length, ← hctx.visibleText] at hpatch
  have hfin := hrope.finish
  simp only [EditState.atStart] at hfin hpatch hpass
  have hs' : st.finish d s = some ({ s with
      fragments := st₁.newFragments ++ st₁.oldFragments.rest
      insertions := KeyedList.upsert InsertionFragment.key s.insertions st₁.newInsertions
      insertionSlices := KeyedList.upsert InsertionSlice.key s.insertionSlices st₁.insertionSlices
      visibleText := (st₁.newRopes.append st₁.oldFragments.rest).finish.1
      deletedText := (st₁.newRopes.append st₁.oldFragments.rest).finish.2 }, st₁.editsPatch) := by
    simp only [EditState.finish, heq]
  refine ⟨_, _, st₁.newInsertions, st₁.insertionSlices, hs',
    ⟨?_, hinv.good, hinv.len_pos, ?_, ?_, rfl, hinv.filed, hinv.kept, ?_, hinv.within, rfl,
      hinv.slices, hinv.sliced, ?_, rfl, rfl, rfl, rfl⟩, ?_⟩
  · simpa [EditState.atStart] using hinv.ids
  · dsimp only; rw [hfin]
  · dsimp only; rw [hfin]
  · intro f hf
    rw [hpass] at hf
    exact hinv.refiled f (.inl (by simpa using hf))
  · dsimp only; rw [hfin]; exact hpatch
  · have hcells := hc₁.cells
    have hle := hc₁.le
    have hdrop : (cellsOf s.fragments).drop (progress pre₁ st₁.atStart) =
        cellsOf st₁.oldFragments.rest := by
      have := hc₁.inv.passed
      rw [this, progress, cellsOf_append]
      simp [EditState.atStart]
    simp only [EditState.atStart] at hcells
    simp only [cellsOf_append, hcells, append_assoc]
    congr 1
    rw [← hdrop]
    have hsplit : (cellsOf s.fragments).drop (progress pre₁ st₁.atStart) =
        ((cellsOf s.fragments).drop (progress pre st)).drop
          (progress pre₁ st₁.atStart - progress pre st) := by
      rw [drop_drop]
      congr 1
      omega
    rw [hsplit]
    exact take_append_drop ..

end Steps

/-! ## Hitting cells -/

/-- Ranges in order and without overlap, between two positions. -/
def ValidRanges : Nat → List Range → Nat → Prop
  | pos, [], limit => pos ≤ limit
  | pos, r :: rs, limit => pos ≤ r.start ∧ r.start ≤ r.stop ∧ ValidRanges r.stop rs limit

instance decidableValidRanges : ∀ pos ranges limit, Decidable (ValidRanges pos ranges limit)
  | pos, [], limit => inferInstanceAs (Decidable (pos ≤ limit))
  | pos, r :: rs, limit =>
    have := decidableValidRanges r.stop rs limit
    inferInstanceAs (Decidable (pos ≤ r.start ∧ r.start ≤ r.stop ∧ ValidRanges r.stop rs limit))

theorem ValidRanges.le {pos limit : Nat} {rs : List Range} (h : ValidRanges pos rs limit) :
    pos ≤ limit := by
  induction rs generalizing pos with
  | nil => exact h
  | cons r rs ih =>
    obtain ⟨h1, h2, h3⟩ := h
    have := ih h3
    omega

/-- The edits of an operation as cells: each range with the cells its text becomes. -/
def blocksOf (T : Lamport) : Nat → List Range → List (List Char) → List (Splice.Edit Cell)
  | off, r :: rs, t :: ts =>
    ⟨r.start, r.stop, (List.range' off (byteLen t)).map (Cell.inserted T)⟩ ::
      blocksOf T (off + byteLen t) rs ts
  | _, _, _ => []

section Steps

variable {d : Dimensions} {byte : Lamport → Nat → UInt8} {s : BufferSnapshot} {T : Lamport}
  {hit : Cell → Cell} {pre : List Fragment} {st : EditState}

theorem deletes_of_emit {st' : EditState} {pre' : List Fragment} {g : Fragment}
    (hhit : g.cells = (((cellsOf s.fragments).drop (progress pre st)).take g.len).map hit)
    (hnew : st'.newFragments = st.newFragments ++ [g])
    (hoff : st'.insertionOffset = st.insertionOffset)
    (hinv : EditInv d byte s T pre' st' ∧ progress pre' st' = progress pre st + g.len) :
    Deletes d byte s T hit pre st pre' st' := by
  refine ⟨hinv.1, by omega, ?_, hoff⟩
  rw [hnew, cellsOf_append, cellsOf_cons, cellsOf_nil, append_nil, hhit, hinv.2,
    show progress pre st + g.len - progress pre st = g.len by omega]

theorem EditInv.le_stop (h : EditInv d byte s T pre st) :
    st.fragmentStart ≤ st.oldFragments.stop d := by
  by_cases hlt : st.oldFragments.start.1 < st.fragmentStart
  · obtain ⟨f, rest, hf, hpos, hle⟩ := h.trim hlt
    simp [Cursor.stop, hf, hpos, hle]
  · unfold Cursor.stop
    split <;> omega

theorem EditInv.take_progress (h : EditInv d byte s T pre st) :
    (cellsOf s.fragments).take (progress pre st) = cellsOf pre ++
      ((st.oldFragments.rest.head?.map Fragment.cells).getD []).take
        (st.fragmentStart - st.oldFragments.start.1) := by
  rw [h.passed, cellsOf_append, progress, take_length_add_append]
  congr 1
  cases hf : st.oldFragments.rest with
  | nil => simp
  | cons f rest =>
    have hle := h.used_le hf
    simp only [cellsOf_cons, List.head?_cons, Option.map_some, Option.getD_some]
    rw [take_append_of_le_length hle]

end Steps

end SpkEditor
