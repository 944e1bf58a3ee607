import SpkEditor.Lib.Splice
import SpkEditor.Text.EditInv
import SpkEditor.Text.Undo

/-!
# What an undo touches

`fragment_ids_for_edits` visits slices with a cursor that never moves back, and only
seeks when a slice starts past where the cursor stands. That is enough because the
slices come sorted: `visitSlices_eq` says it finds, in order and each once, the
fragments that some slice covers. `applyUndo_spec` then reads `apply_undo` as a map
over the fragments.
-/

namespace SpkEditor

open List

def InsertionSlice.covers (x : InsertionSlice) (f : InsertionFragment) : Bool :=
  x.insertionId = f.timestamp && x.range.start ≤ f.splitOffset && f.splitOffset < x.range.stop

/-- A fragment whose visibility an undo has recomputed. -/
def Fragment.refreshed (undos : UndoMap) (timestamp : Lamport) (f : Fragment) : Fragment :=
  { f with visible := f.isVisible undos, maxUndos := f.maxUndos.observe timestamp }

namespace BufferSnapshot

theorem mem_slicesFor {s : BufferSnapshot} (h : KeyedList.Sorted InsertionSlice.key s.insertionSlices)
    {editId : Lamport} {x : InsertionSlice} :
    x ∈ s.slicesFor editId ↔ x ∈ s.insertionSlices ∧ x.editId = editId := by
  refine KeyedList.mem_group h fun y => ?_
  rw [Prod.Lex.toLex_le_toLex]
  rcases lt_or_eq_of_le (Lamport.MIN_le y.insertionId) with h1 | h1
  · exact .inl h1
  · refine .inr ⟨h1, ?_⟩
    rw [Prod.Lex.toLex_le_toLex]
    dsimp only
    omega

/-! ## Visiting the slices -/

theorem key_le_key {a b : InsertionFragment} : a.key ≤ b.key ↔ a.timestamp < b.timestamp ∨
      (a.timestamp = b.timestamp ∧ a.splitOffset ≤ b.splitOffset) := by
  rw [InsertionFragment.key, InsertionFragment.key, Prod.Lex.toLex_le_toLex]

theorem seekForward_spec (target : Lamport × Nat) :
    ∀ (rest : List InsertionFragment) (start : Lamport × Nat),
      KeyedList.Sorted InsertionFragment.key rest → (∀ f ∈ rest, toLex start ≤ f.key) →
      ∃ skipped start' rest', rest = skipped ++ rest' ∧
        InsertionCursor.seekForward target start rest = ⟨start', rest'⟩ ∧
        (∀ f ∈ skipped, f.key < toLex target) ∧ (∀ f ∈ rest', toLex target ≤ f.key) ∧
        (∀ f ∈ rest', toLex start' ≤ f.key)
  | [], start, _, _ => ⟨[], start, [], rfl, rfl, by simp, by simp, by simp⟩
  | f :: rest, start, hs, hstart => by
      have htail := List.pairwise_cons.mp hs
      by_cases hlt : f.key < toLex target
      · obtain ⟨skipped, start', rest', h1, h2, h3, h4, h5⟩ := seekForward_spec target rest
          (f.timestamp, f.splitOffset) htail.2 (fun g hg => le_of_lt (htail.1 g hg))
        refine ⟨f :: skipped, start', rest', by rw [h1]; rfl, ?_, ?_, h4, h5⟩
        · rw [InsertionCursor.seekForward, if_pos hlt, h2]
        · intro g hg
          rcases List.mem_cons.mp hg with rfl | hg
          · exact hlt
          · exact h3 g hg
      · refine ⟨[], start, f :: rest, rfl, ?_, by simp, ?_, hstart⟩
        · rw [InsertionCursor.seekForward, if_neg hlt]
        · intro g hg
          rcases List.mem_cons.mp hg with rfl | hg
          · exact not_lt.mp hlt
          · exact le_of_lt (lt_of_le_of_lt (not_lt.mp hlt) (htail.1 g hg))

/-- From the start of a slice on, collecting takes what the slice covers and leaves
nothing of it behind. -/
theorem collect_spec (slice : InsertionSlice) :
    ∀ (rest : List InsertionFragment) (start : Lamport × Nat),
      KeyedList.Sorted InsertionFragment.key rest → (∀ f ∈ rest, toLex start ≤ f.key) →
      (∀ f ∈ rest, slice.insertionId < f.timestamp ∨
        (slice.insertionId = f.timestamp ∧ slice.range.start ≤ f.splitOffset)) →
      ∃ taken start' rest', rest = taken ++ rest' ∧ InsertionCursor.collect slice start rest =
          (taken.map InsertionFragment.fragmentId, ⟨start', rest'⟩) ∧
        (∀ f ∈ taken, slice.covers f = true) ∧ (∀ f ∈ rest', slice.covers f = false) ∧
        (∀ f ∈ rest', toLex start' ≤ f.key)
  | [], start, _, _, _ => ⟨[], start, [], rfl, rfl, by simp, by simp, by simp⟩
  | f :: rest, start, hs, hstart, hfrom => by
      have htail := List.pairwise_cons.mp hs
      by_cases hstop : f.timestamp ≠ slice.insertionId ∨ slice.range.stop ≤ f.splitOffset
      · refine ⟨[], start, f :: rest, rfl, ?_, by simp, ?_, hstart⟩
        · rw [InsertionCursor.collect, if_pos hstop]; rfl
        · -- everything from here on is past the slice
          have hf := hfrom f (by simp)
          intro g hg
          have hfg : f.key ≤ g.key := by
            rcases List.mem_cons.mp hg with rfl | hg
            · exact le_refl _
            · exact le_of_lt (htail.1 g hg)
          by_contra hne
          simp only [InsertionSlice.covers, Bool.not_eq_false, Bool.and_eq_true,
            decide_eq_true_eq] at hne
          obtain ⟨⟨h1, h2⟩, h3⟩ := hne
          rcases key_le_key.mp hfg with hlt | ⟨heq, hle⟩
          · rw [← h1] at hlt
            rcases hf with hf | ⟨hf, -⟩
            · exact absurd hlt (not_lt_of_gt hf)
            · exact absurd hlt (by rw [hf]; exact lt_irrefl _)
          · rcases hstop with hstop | hstop
            · exact hstop (heq.trans h1.symm)
            · omega
      · obtain ⟨taken, start', rest', h1, h2, h3, h4, h5⟩ := collect_spec slice rest
          (f.timestamp, f.splitOffset) htail.2 (fun g hg => le_of_lt (htail.1 g hg))
          (fun g hg => hfrom g (mem_cons_of_mem _ hg))
        simp only [not_or, not_not, not_le] at hstop
        refine ⟨f :: taken, start', rest', by rw [h1]; rfl, ?_, ?_, h4, h5⟩
        · rw [InsertionCursor.collect, if_neg (by simp [hstop.1, hstop.2]), h2]; rfl
        · intro g hg
          rcases List.mem_cons.mp hg with rfl | hg
          · have hg := hfrom g (by simp)
            have : slice.range.start ≤ g.splitOffset := by
              rcases hg with hg | ⟨-, hg⟩
              · rw [hstop.1] at hg; exact absurd hg (lt_irrefl _)
              · exact hg
            simp [InsertionSlice.covers, hstop.1, hstop.2, this]
          · exact h3 g hg

/-- Slices in the order they are visited start no earlier than the ones before. -/
def StartsBefore (a b : InsertionSlice) : Prop :=
  a.insertionId < b.insertionId ∨ (a.insertionId = b.insertionId ∧ a.range.start ≤ b.range.start)

theorem not_covers_of_lt {x y : InsertionSlice} (h : StartsBefore x y) {f : InsertionFragment}
    (hf : f.key < toLex (x.insertionId, x.range.start)) : y.covers f = false := by
  by_contra hne
  simp only [InsertionSlice.covers, Bool.not_eq_false, Bool.and_eq_true, decide_eq_true_eq] at hne
  obtain ⟨⟨h1, h2⟩, -⟩ := hne
  rw [InsertionFragment.key, Prod.Lex.toLex_lt_toLex] at hf
  dsimp only at hf
  rw [← h1] at hf
  rcases h with h | ⟨h, hle⟩
  · rcases hf with hf | ⟨hf, -⟩
    · exact absurd h (not_lt_of_gt hf)
    · rw [hf] at h; exact absurd h (lt_irrefl _)
  · rcases hf with hf | ⟨-, hf⟩
    · rw [h] at hf; exact absurd hf (lt_irrefl _)
    · omega

/-- **The cursor finds exactly what the slices cover.** The induction is on the slices;
what the cursor has passed is covered by none of those that are left. -/
theorem visitSlices_eq :
    ∀ (slices : List InsertionSlice) (start : Lamport × Nat) (rest : List InsertionFragment),
      slices.Pairwise StartsBefore → KeyedList.Sorted InsertionFragment.key rest →
      (∀ f ∈ rest, toLex start ≤ f.key) →
      visitSlices slices ⟨start, rest⟩ =
        (rest.filter fun f => slices.any (·.covers f)).map InsertionFragment.fragmentId
  | [], start, rest, _, _, _ => by simp [visitSlices]
  | slice :: slices, start, rest, hp, hs, hstart => by
      obtain ⟨hp1, hp2⟩ := List.pairwise_cons.mp hp
      -- where the cursor stands when it starts to collect
      obtain ⟨skipped, start₁, rest₁, hrest, hseek, hskip, hfrom, hstart₁⟩ :
          ∃ skipped start₁ rest₁, rest = skipped ++ rest₁ ∧
            (if slice.insertionId ≠ start.1 ∨ start.2 < slice.range.start then
              InsertionCursor.seekForward (slice.insertionId, slice.range.start) start rest
              else ⟨start, rest⟩) = (⟨start₁, rest₁⟩ : InsertionCursor) ∧
            (∀ f ∈ skipped, f.key < toLex (slice.insertionId, slice.range.start)) ∧
            (∀ f ∈ rest₁, slice.insertionId < f.timestamp ∨
              (slice.insertionId = f.timestamp ∧ slice.range.start ≤ f.splitOffset)) ∧
            (∀ f ∈ rest₁, toLex start₁ ≤ f.key) := by
        by_cases hc : slice.insertionId ≠ start.1 ∨ start.2 < slice.range.start
        · obtain ⟨skipped, start₁, rest₁, h1, h2, h3, h4, h5⟩ :=
            seekForward_spec (slice.insertionId, slice.range.start) rest start hs hstart
          refine ⟨skipped, start₁, rest₁, h1, by rw [if_pos hc, h2], h3, ?_, h5⟩
          intro f hf
          have := h4 f hf
          rwa [InsertionFragment.key, Prod.Lex.toLex_le_toLex] at this
        · refine ⟨[], start, rest, rfl, by rw [if_neg hc], by simp, ?_, hstart⟩
          intro f hf
          simp only [not_or, not_not, not_lt] at hc
          have := hstart f hf
          rw [InsertionFragment.key, Prod.Lex.le_iff] at this
          rw [hc.1]
          exact this.imp id (fun h => ⟨h.1, le_trans hc.2 h.2⟩)
      have hs₁ : KeyedList.Sorted InsertionFragment.key rest₁ := by
        rw [hrest] at hs; exact (List.pairwise_append.mp hs).2.1
      obtain ⟨taken, start₂, rest₂, hrest₁, hcoll, htaken, hleft, hstart₂⟩ :=
        collect_spec slice rest₁ start₁ hs₁ hstart₁ hfrom
      have hs₂ : KeyedList.Sorted InsertionFragment.key rest₂ := by
        rw [hrest₁] at hs₁; exact (List.pairwise_append.mp hs₁).2.1
      have ih := visitSlices_eq slices start₂ rest₂ hp2 hs₂ hstart₂
      have hskip' : skipped.filter (fun f => (slice :: slices).any (·.covers f)) = [] := by
        rw [filter_eq_nil_iff]
        intro f hf
        have hself : StartsBefore slice slice := .inr ⟨rfl, le_refl _⟩
        simp only [any_cons, not_covers_of_lt hself (hskip f hf), Bool.false_or,
          any_eq_true, not_exists, not_and]
        intro y hy
        rw [not_covers_of_lt (hp1 y hy) (hskip f hf)]
        exact Bool.false_ne_true
      have htaken' : taken.filter (fun f => (slice :: slices).any (·.covers f)) = taken := by
        rw [filter_eq_self]
        intro f hf
        simp [htaken f hf]
      have hleft' : rest₂.filter (fun f => (slice :: slices).any (·.covers f)) =
          rest₂.filter (fun f => slices.any (·.covers f)) := by
        refine filter_congr (fun f hf => ?_)
        simp [hleft f hf]
      rw [visitSlices]
      simp only [hseek, hcoll, ih]
      rw [hrest, hrest₁, filter_append, filter_append, hskip', htaken', hleft',
        nil_append, map_append]

/-! ## The fragments found -/

/-- The insertions file every fragment, and nothing else. -/
structure Filed (s : BufferSnapshot) : Prop where
  sorted : KeyedList.Sorted InsertionFragment.key s.insertions
  mem_iff : ∀ i, i ∈ s.insertions ↔ ∃ f ∈ s.fragments, i = .new f

/-- One of the edits inserted or deleted this fragment, as far as the slices know. -/
def touches (s : BufferSnapshot) (editIds : List Lamport) (f : Fragment) : Bool :=
  s.insertionSlices.any fun x => decide (x.editId ∈ editIds) && x.covers (.new f)

theorem eq_of_id {fs : List Fragment} (h : IdsSorted fs) {f g : Fragment} (hf : f ∈ fs)
    (hg : g ∈ fs) (hid : f.id = g.id) : f = g :=
  KeyedList.Sorted.eq_of_key (show KeyedList.Sorted Fragment.id fs from h) hf hg hid

theorem sliceOrder_startsBefore {a b : InsertionSlice} (h : sliceOrder a b) : StartsBefore a b := by
  rcases h with h | ⟨h1, h | ⟨h, -⟩⟩
  · exact .inl h
  · exact .inr ⟨h1, le_of_lt h⟩
  · exact .inr ⟨h1, le_of_eq h⟩

theorem sorted_slices (slices : List InsertionSlice) :
    (slices.insertionSort sliceOrder).Pairwise StartsBefore := by
  have htrans : IsTrans InsertionSlice sliceOrder := by
    refine ⟨fun a b c hab hbc => ?_⟩
    rcases hab with hab | ⟨hab, hab'⟩
    · rcases hbc with hbc | ⟨hbc, -⟩
      · exact .inl (lt_trans hab hbc)
      · exact .inl (hbc ▸ hab)
    · rcases hbc with hbc | ⟨hbc, hbc'⟩
      · exact .inl (hab ▸ hbc)
      · exact .inr ⟨hab.trans hbc, by omega⟩
  have htotal : Std.Total sliceOrder := by
    refine ⟨fun a b => ?_⟩
    rcases lt_trichotomy a.insertionId b.insertionId with h | h | h
    · exact .inl (.inl h)
    · by_cases hab : a.range.start < b.range.start ∨
          (a.range.start = b.range.start ∧ b.range.stop ≤ a.range.stop)
      · exact .inl (.inr ⟨h, hab⟩)
      · exact .inr (.inr ⟨h.symm, by omega⟩)
    · exact .inr (.inl h)
  exact (pairwise_insertionSort sliceOrder slices).imp sliceOrder_startsBefore

section

variable {s : BufferSnapshot} (hfiled : Filed s)
  (hslices : KeyedList.Sorted InsertionSlice.key s.insertionSlices) (editIds : List Lamport)
include hfiled hslices

theorem fragmentIdsForEdits_eq :
    ∃ found : InsertionFragment → Bool, (∀ f, found (.new f) = s.touches editIds f) ∧
      s.fragmentIdsForEdits editIds =
        ((s.insertions.filter found).map InsertionFragment.fragmentId).insertionSort (· ≤ ·) := by
  obtain ⟨slices, hsl⟩ : ∃ x, x = (editIds.flatMap s.slicesFor).insertionSort sliceOrder := ⟨_, rfl⟩
  refine ⟨fun f => slices.any (·.covers f), fun f => ?_, ?_⟩
  · rw [Bool.eq_iff_iff, touches, any_eq_true, any_eq_true]
    constructor
    · rintro ⟨x, hx, hc⟩
      rw [hsl, mem_insertionSort, mem_flatMap] at hx
      obtain ⟨e, he, hx⟩ := hx
      obtain ⟨h1, h2⟩ := (mem_slicesFor hslices).mp hx
      exact ⟨x, h1, by simp [h2, he, hc]⟩
    · rintro ⟨x, hx, hc⟩
      simp only [Bool.and_eq_true, decide_eq_true_eq] at hc
      refine ⟨x, ?_, hc.2⟩
      rw [hsl, mem_insertionSort, mem_flatMap]
      exact ⟨x.editId, hc.1, (mem_slicesFor hslices).mpr ⟨hx, rfl⟩⟩
  · rw [fragmentIdsForEdits, ← hsl, visitSlices_eq slices _ _ (by rw [hsl]; exact sorted_slices _) hfiled.sorted]
    intro f _
    rw [InsertionFragment.key, Prod.Lex.toLex_le_toLex]
    rcases lt_or_eq_of_le (Lamport.MIN_le f.timestamp) with h | h
    · exact .inl h
    · exact .inr ⟨h, Nat.zero_le _⟩

theorem mem_fragmentIdsForEdits :
    ∀ id ∈ s.fragmentIdsForEdits editIds, ∃ f ∈ s.fragments, f.id = id := by
  obtain ⟨found, -, heq⟩ := fragmentIdsForEdits_eq hfiled hslices editIds
  intro id hid
  rw [heq, mem_insertionSort] at hid
  obtain ⟨i, hi, rfl⟩ := List.mem_map.mp hid
  obtain ⟨f, hf, rfl⟩ := (hfiled.mem_iff i).mp (List.mem_filter.mp hi).1
  exact ⟨f, hf, rfl⟩

end

/-- **`fragment_ids_for_edits`** finds the ids of the fragments the edits touched, in
order and each once. -/
theorem fragmentIdsForEdits_spec {s : BufferSnapshot} (hids : IdsSorted s.fragments)
    (hfiled : Filed s) (hslices : KeyedList.Sorted InsertionSlice.key s.insertionSlices)
    (editIds : List Lamport) :
    (s.fragmentIdsForEdits editIds).Pairwise (· < ·) ∧
      ∀ f ∈ s.fragments, f.id ∈ s.fragmentIdsForEdits editIds ↔ s.touches editIds f = true := by
  obtain ⟨found, hfound, heq⟩ := fragmentIdsForEdits_eq hfiled hslices editIds
  rw [heq]
  constructor
  · -- each fragment is filed once
    have hnd : ((s.insertions.filter found).map InsertionFragment.fragmentId).Nodup := by
      refine Nodup.map_on ?_ ?_
      · intro a ha b hb hab
        obtain ⟨f, hf, rfl⟩ := (hfiled.mem_iff a).mp (List.mem_filter.mp ha).1
        obtain ⟨g, hg, rfl⟩ := (hfiled.mem_iff b).mp (List.mem_filter.mp hb).1
        rw [eq_of_id hids hf hg hab]
      · have hins : s.insertions.Nodup :=
          List.Pairwise.imp (fun h heq => absurd h (by rw [heq]; exact lt_irrefl _)) hfiled.sorted
        exact hins.filter _
    have hsort := pairwise_insertionSort (fun a b : Locator => a ≤ b)
      ((s.insertions.filter found).map InsertionFragment.fragmentId)
    have hnd' := (perm_insertionSort (fun a b : Locator => a ≤ b)
      ((s.insertions.filter found).map InsertionFragment.fragmentId)).nodup_iff.mpr hnd
    exact (hsort.and hnd').imp (fun h => lt_of_le_of_ne h.1 h.2)
  · intro f hf
    rw [mem_insertionSort, mem_map, ← hfound f]
    constructor
    · rintro ⟨i, hi, hid⟩
      obtain ⟨hi, hc⟩ := List.mem_filter.mp hi
      obtain ⟨g, hg, rfl⟩ := (hfiled.mem_iff i).mp hi
      rwa [eq_of_id hids hf hg hid.symm]
    · intro hc
      exact ⟨.new f, List.mem_filter.mpr ⟨(hfiled.mem_iff _).mpr ⟨f, hf, rfl⟩, hc⟩, rfl⟩

/-! ## Refreshing the fragments -/

/-- What holds at every point of `apply_undo`, with the fragments the cursor has passed. -/
structure UndoInv (byte : Lamport → Nat → UInt8) (s : BufferSnapshot) (pre : List Fragment)
    (st : UndoState) : Prop where
  passed : s.fragments = pre ++ st.rest
  oldStart : st.oldStart = visibleLen pre
  ropes : RopeInv byte st.newRopes (cellsOf st.newFragments) (cellsOf st.rest)
  patch : st.edits.Describes (textOf byte true (cellsOf pre))
    (textOf byte true (cellsOf st.newFragments))

structure UndoDone (byte : Lamport → Nat → UInt8) (s : BufferSnapshot) (undo : UndoOperation)
    (s' : BufferSnapshot) (patch : Patch) : Prop where
  fragments : s'.fragments = s.fragments.map fun f =>
    if s.touches (undo.counts.map Prod.fst) f then
      f.refreshed (s.undoMap.insert undo) undo.timestamp else f
  visibleText : s'.visibleText = textOf byte true (cellsOf s'.fragments)
  deletedText : s'.deletedText = textOf byte false (cellsOf s'.fragments)
  insertions : s'.insertions = s.insertions
  insertionSlices : s'.insertionSlices = s.insertionSlices
  undoMap : s'.undoMap = s.undoMap.insert undo
  version : s'.version = s.version
  remoteId : s'.remoteId = s.remoteId
  replicaId : s'.replicaId = s.replicaId
  patch : patch.Describes s.visibleText s'.visibleText

section Refresh

variable {byte : Lamport → Nat → UInt8} {s : BufferSnapshot} {pre : List Fragment}
  {st : UndoState} {undos : UndoMap} {ts : Lamport}

theorem UndoInv.sliceTo (h : UndoInv byte s pre st) {id : Locator} {A B : List Fragment}
    (hrest : st.rest = A ++ B) (hA : ∀ f ∈ A, f.id < id)
    (hB : ∀ f, B.head? = some f → ¬ f.id < id) :
    UndoInv byte s (pre ++ A) (st.sliceTo id) ∧
      (st.sliceTo id).newFragments = st.newFragments ++ A ∧ (st.sliceTo id).rest = B := by
  have hhead : ∀ f, B.head? = some f → decide (f.id < id) = false := by
    intro f hf; simpa using hB f hf
  have htake : st.rest.takeWhile (fun f => decide (f.id < id)) = A := by
    rw [hrest, takeWhile_append_of_pos (by simpa using hA),
      Splice.takeWhile_eq_nil_of_head hhead, append_nil]
  have hdrop : st.rest.dropWhile (fun f => decide (f.id < id)) = B := by
    rw [hrest, dropWhile_append_of_pos (by simpa using hA), Splice.dropWhile_eq_self_of_head hhead]
  refine ⟨⟨?_, ?_, ?_, ?_⟩, ?_, ?_⟩
  · rw [h.passed, hrest, append_assoc]
    simp only [UndoState.sliceTo, hdrop]
  · simp [UndoState.sliceTo, htake, h.oldStart, visibleLen]
  · have hr := h.ropes
    rw [hrest, cellsOf_append] at hr
    simp only [UndoState.sliceTo, htake, hdrop, cellsOf_append]
    exact hr.append
  · simp only [UndoState.sliceTo, htake, cellsOf_append, textOf_append]
    exact Patch.describes_copy h.patch _
  · simp only [UndoState.sliceTo, htake]
  · simp only [UndoState.sliceTo, hdrop]

theorem bytesOf_refreshed (f : Fragment) :
    bytesOf byte (f.refreshed undos ts).cells = bytesOf byte f.cells := by
  simp [bytesOf, Fragment.cells, Fragment.cellAt, Fragment.refreshed, Function.comp_def]

theorem UndoInv.refresh (h : UndoInv byte s pre st) (undos : UndoMap) (ts : Lamport) {f : Fragment} {rest : List Fragment}
    (hrest : st.rest = f :: rest) :
    UndoInv byte s (pre ++ [f]) (st.refresh undos ts) ∧
      (st.refresh undos ts).newFragments = st.newFragments ++ [f.refreshed undos ts] ∧
      (st.refresh undos ts).rest = rest := by
  have hold : ∀ c ∈ f.cells, c.visible = f.visible := fun c hc => (cells_uniform hc).2.1
  have hnew : ∀ c ∈ (f.refreshed undos ts).cells, c.visible = (f.refreshed undos ts).visible :=
    fun c hc => (cells_uniform hc).2.1
  have hst : st.refresh undos ts =
      { newRopes := st.newRopes.pushFragment (f.refreshed undos ts) f.visible
        newFragments := st.newFragments ++ [f.refreshed undos ts]
        edits :=
          if f.visible && !(f.refreshed undos ts).visible then
            st.edits.push ⟨⟨st.oldStart, st.oldStart + f.len⟩,
              ⟨visibleLen st.newFragments, visibleLen st.newFragments⟩⟩
          else if !f.visible && (f.refreshed undos ts).visible then
            st.edits.push ⟨⟨st.oldStart, st.oldStart⟩,
              ⟨visibleLen st.newFragments, visibleLen st.newFragments + f.len⟩⟩
          else st.edits
        oldStart := st.oldStart + f.visibleLen
        rest := rest } := by
    simp only [UndoState.refresh, hrest]
    rfl
  rw [hst]
  refine ⟨⟨?_, ?_, ?_, ?_⟩, rfl, rfl⟩
  · rw [h.passed, hrest]; simp
  · simp [h.oldStart, visibleLen]
  · have hr := h.ropes
    rw [hrest, cellsOf_cons] at hr
    have := hr.push hold hnew (bytesOf_refreshed f)
    rw [Fragment.length_cells] at this
    simp only [cellsOf_append, cellsOf_cons, cellsOf_nil, append_nil]
    exact this
  · have hlenO : (textOf byte true (cellsOf pre)).length = st.oldStart := by
      rw [length_textOf_visible, h.oldStart]
    simp only [cellsOf_append, cellsOf_cons, cellsOf_nil, append_nil, textOf_append]
    rw [textOf_uniform byte hold, textOf_uniform byte hnew, bytesOf_refreshed]
    cases hfv : f.visible with
    | true =>
      cases hgv : (f.refreshed undos ts).visible with
      | true => simpa using Patch.describes_copy h.patch (bytesOf byte f.cells)
      | false =>
        have := Patch.describes_push h.patch (bytesOf byte f.cells) []
        simpa [Patch.editAt, hlenO, length_textOf_visible] using this
    | false =>
      cases hgv : (f.refreshed undos ts).visible with
      | true =>
        have := Patch.describes_push h.patch [] (bytesOf byte f.cells)
        simpa [Patch.editAt, hlenO, length_textOf_visible] using this
      | false => simpa using h.patch

/-- **The loop of `apply_undo`** refreshes the fragments with the given ids. -/
theorem UndoInv.steps (undos : UndoMap) (ts : Lamport) (hids : IdsSorted s.fragments) :
    ∀ (ids : List Locator) (pre : List Fragment) (st : UndoState), ids.Pairwise (· < ·) →
      (∀ id ∈ ids, ∃ f ∈ st.rest, f.id = id) → UndoInv byte s pre st →
      ∃ pre', UndoInv byte s pre' (ids.foldl (UndoState.step undos ts) st) ∧
        (ids.foldl (UndoState.step undos ts) st).newFragments ++
            (ids.foldl (UndoState.step undos ts) st).rest =
          st.newFragments ++ st.rest.map fun f => if f.id ∈ ids then f.refreshed undos ts else f
  | [], pre, st, _, _, h => ⟨pre, h, by simp⟩
  | id :: ids, pre, st, hp, hmem, h => by
      obtain ⟨hp1, hp2⟩ := List.pairwise_cons.mp hp
      obtain ⟨f, hf, hfid⟩ := hmem id (by simp)
      obtain ⟨A, B, hrest⟩ := append_of_mem hf
      have hsorted : IdsSorted (A ++ f :: B) := by
        have := hids
        rw [h.passed, hrest] at this
        exact (List.pairwise_append.mp this).2.1
      obtain ⟨-, hs2, hs3⟩ := List.pairwise_append.mp hsorted
      have hA : ∀ g ∈ A, g.id < id := fun g hg => hfid ▸ hs3 g hg f (by simp)
      have hB : ∀ g ∈ B, id < g.id := fun g hg => hfid ▸ (List.pairwise_cons.mp hs2).1 g hg
      obtain ⟨h₁, hnew₁, hrest₁⟩ := h.sliceTo hrest hA (fun g hg => by
        cases hg
        rw [hfid]; exact lt_irrefl _)
      obtain ⟨h₂, hnew₂, hrest₂⟩ := h₁.refresh undos ts hrest₁
      obtain ⟨pre', h₃, heq⟩ := UndoInv.steps undos ts hids ids _ _ hp2 (fun id' hid' => by
        -- the later ids are of later fragments
        obtain ⟨g, hg, hgid⟩ := hmem id' (mem_cons_of_mem _ hid')
        refine ⟨g, ?_, hgid⟩
        have hlt := hp1 id' hid'
        rw [← hgid] at hlt
        rw [hrest₂]
        rw [hrest] at hg
        rcases List.mem_append.mp hg with hg | hg
        · exact absurd (hA g hg) (not_lt_of_gt hlt)
        · rcases List.mem_cons.mp hg with rfl | hg
          · rw [hfid] at hlt; exact absurd hlt (lt_irrefl _)
          · exact hg) h₂
      refine ⟨pre', h₃, heq.trans ?_⟩
      have hmapA : A.map (fun g => if g.id ∈ id :: ids then g.refreshed undos ts else g) = A := by
        rw [map_congr_left (g := fun g => g), map_id']
        intro g hg
        refine if_neg (fun hin => ?_)
        rcases List.mem_cons.mp hin with hin | hin
        · exact absurd (hA g hg) (by rw [hin]; exact lt_irrefl _)
        · exact absurd (hA g hg) (not_lt_of_gt (hp1 _ hin))
      have hmapB : B.map (fun g => if g.id ∈ id :: ids then g.refreshed undos ts else g) =
          B.map (fun g => if g.id ∈ ids then g.refreshed undos ts else g) := by
        refine map_congr_left (fun g hg => ?_)
        have : g.id ≠ id := ne_of_gt (hB g hg)
        simp [this]
      rw [hnew₂, hnew₁, hrest₂, hrest, map_append, map_cons, hmapA, hmapB, if_pos (by simp [hfid])]
      simp

/-- **`apply_undo` refreshes the fragments that the undone edits touched**, and nothing
else. -/
theorem applyUndo_spec (hids : IdsSorted s.fragments) (hfiled : Filed s)
    (hslices : KeyedList.Sorted InsertionSlice.key s.insertionSlices)
    (hv : s.visibleText = textOf byte true (cellsOf s.fragments))
    (hd : s.deletedText = textOf byte false (cellsOf s.fragments)) (undo : UndoOperation) :
    UndoDone byte s undo (s.applyUndo undo).1 (s.applyUndo undo).2 := by
  obtain ⟨s₁, hs₁⟩ : ∃ x, x = { s with undoMap := s.undoMap.insert undo } := ⟨_, rfl⟩
  obtain ⟨ids, hidsEq⟩ : ∃ x, x = s₁.fragmentIdsForEdits (undo.counts.map Prod.fst) := ⟨_, rfl⟩
  have hfrag : s₁.fragments = s.fragments := by rw [hs₁]
  have htouch : s₁.touches = s.touches := by rw [hs₁]; rfl
  have hids₁ : IdsSorted s₁.fragments := by rw [hfrag]; exact hids
  have hfiled₁ : Filed s₁ := by rw [hs₁]; exact ⟨hfiled.sorted, hfiled.mem_iff⟩
  obtain ⟨hsorted, hmem⟩ := fragmentIdsForEdits_spec hids₁ hfiled₁ (by rw [hs₁]; exact hslices)
    (undo.counts.map Prod.fst)
  have hof := mem_fragmentIdsForEdits hfiled₁ (by rw [hs₁]; exact hslices)
    (undo.counts.map Prod.fst)
  rw [← hidsEq] at hsorted hmem hof
  rw [hfrag] at hof
  rw [hfrag, htouch] at hmem
  obtain ⟨st, hst⟩ : ∃ x, x = ids.foldl (UndoState.step (s.undoMap.insert undo) undo.timestamp)
      ⟨⟨s.visibleText, s.deletedText, [], []⟩, [], [], 0, s.fragments⟩ := ⟨_, rfl⟩
  have heq : s.applyUndo undo = ({ s with
      undoMap := s.undoMap.insert undo
      fragments := st.newFragments ++ st.rest
      visibleText := (st.newRopes.append st.rest).finish.1
      deletedText := (st.newRopes.append st.rest).finish.2 }, st.edits) := by
    rw [hst, hidsEq, hs₁]; rfl
  obtain ⟨pre, hinv, hall⟩ := UndoInv.steps (s.undoMap.insert undo) undo.timestamp
    hids ids [] ⟨⟨s.visibleText, s.deletedText, [], []⟩, [], [], 0, s.fragments⟩ hsorted hof
    ⟨rfl, rfl, ⟨rfl, rfl, hv, hd⟩, Patch.describes_nil _⟩
  rw [← hst] at hinv hall
  -- the rest is kept
  have hrope := hinv.ropes
  rw [← append_nil (cellsOf st.rest)] at hrope
  have hfin := hrope.append.finish
  have hpatch := Patch.describes_copy hinv.patch (textOf byte true (cellsOf st.rest))
  rw [← textOf_append, ← cellsOf_append, ← hinv.passed, ← hv, ← textOf_append] at hpatch
  rw [← cellsOf_append] at hfin hpatch
  rw [heq]
  refine ⟨?_, by rw [hfin], by rw [hfin], rfl, rfl, rfl, rfl, rfl, rfl, by rw [hfin]; exact hpatch⟩
  rw [hall, nil_append]
  refine map_congr_left (fun f hf => ?_)
  by_cases ht : s.touches (undo.counts.map Prod.fst) f = true
  · rw [if_pos ((hmem f hf).mpr ht), if_pos ht]
  · rw [if_neg (fun hin => ht ((hmem f hf).mp hin)), if_neg ht]

end Refresh

end BufferSnapshot

end SpkEditor
