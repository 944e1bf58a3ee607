import SpkEditor.Text.Buffer
import SpkEditor.Text.LocalEdit
import SpkEditor.Text.RemoteEdit
import SpkEditor.Text.UndoProof

/-!
# Well-formed snapshots

`Wf` is the representation invariant of a snapshot: what the fragments, the two
indices, the undo map, the texts and the version owe each other. An edit keeps it
(`Wf.edit`, whichever of the two loops ran) and so does an undo (`Wf.undo`). The one
thing neither can know by itself is that the bytes of the new cells are not filed
already; that is a fact about the operations of all replicas and comes in from
outside.
-/

namespace SpkEditor

open List

variable {newInsertions : List InsertionFragment} {newSlices : List InsertionSlice} {undos : UndoMap}
  {patch : Patch}

/-- The insertion a base text is filed under. -/
def baseId : Lamport := Lamport.new ReplicaId.LOCAL

def Fragment.DependsOn (f : Fragment) (e : Lamport) : Prop := e = f.timestamp ∨ e ∈ f.deletions

/-- **The representation invariant of a snapshot.** -/
structure Wf (byte : Lamport → Nat → UInt8) (s : BufferSnapshot) : Prop where
  ids : IdsSorted s.fragments
  good : ∀ f ∈ s.fragments, Locator.Good f.id
  len_pos : ∀ f ∈ s.fragments, 0 < f.len
  nodup : ((cellsOf s.fragments).map Cell.id).Nodup
  visibleText : s.visibleText = textOf byte true (cellsOf s.fragments)
  deletedText : s.deletedText = textOf byte false (cellsOf s.fragments)
  filed : s.Filed
  slicesSorted : KeyedList.Sorted InsertionSlice.key s.insertionSlices
  /-- Every edit but the base text left slices that hold the fragments it touched. -/
  sliced : ∀ f ∈ s.fragments, ∀ e, f.DependsOn e → e ≠ baseId →
    ∃ x ∈ s.insertionSlices, x.editId = e ∧ x.insertionId = f.timestamp ∧
      x.range.start ≤ f.insertionOffset ∧ f.insertionOffset + f.len ≤ x.range.stop
  /-- A slice lies on no fragment that its edit did not touch. -/
  backed : ∀ x ∈ s.insertionSlices, s.version.observed x.insertionId = true ∧
    ∀ f ∈ s.fragments, f.timestamp = x.insertionId → f.insertionOffset < x.range.stop →
      x.range.start < f.insertionOffset + f.len → f.DependsOn x.editId
  visible : ∀ f ∈ s.fragments, f.visible = f.isVisible s.undoMap
  undosSorted : KeyedList.Sorted UndoMapEntry.key s.undoMap
  observed : ∀ f ∈ s.fragments, ∀ e, f.DependsOn e → s.version.observed e = true
  undosObserved : ∀ e ∈ s.undoMap,
    s.version.observed e.undoId = true ∧ s.version.observed e.editId = true
  /-- A fragment knows the undos that its visibility depends on. -/
  maxUndos : ∀ f ∈ s.fragments, ∀ e ∈ s.undoMap, f.DependsOn e.editId →
    f.maxUndos.observed e.undoId = true

section

variable {byte : Lamport → Nat → UInt8} {s s' : BufferSnapshot} {T : Lamport}

theorem isVisible_congr {f : Fragment} {undos' : UndoMap}
    (h : ∀ e, f.DependsOn e → undos.isUndone e = undos'.isUndone e) :
    f.isVisible undos = f.isVisible undos' := by
  unfold Fragment.isVisible
  rw [h f.timestamp (.inl rfl)]
  congr 1
  rw [Bool.eq_iff_iff, all_eq_true, all_eq_true]
  constructor
  · intro hall d hd; rw [← h d (.inr hd)]; exact hall d hd
  · intro hall d hd; rw [h d (.inr hd)]; exact hall d hd

section

variable (h : Wf byte s) (hT : s.version.observed T = false)
include h hT

theorem Wf.not_undone :
    s.undoMap.isUndone T = false := by
  refine UndoMap.isUndone_of_none h.undosSorted (fun e he hid => ?_)
  have := (h.undosObserved e he).2
  rw [hid, hT] at this
  exact Bool.false_ne_true this

theorem Wf.editCtx : EditCtx byte s T := by
  refine ⟨h.ids, h.good, h.len_pos, fun f hf => ⟨?_, ?_⟩, h.visibleText, h.deletedText⟩
  · intro heq
    have := h.observed f hf f.timestamp (.inl rfl)
    rw [heq, hT] at this
    exact Bool.false_ne_true this
  · intro hmem
    have := h.observed f hf T (.inr hmem)
    rw [hT] at this
    exact Bool.false_ne_true this

end

theorem nodup_keys {fs : List Fragment} (hnd : ((cellsOf fs).map Cell.id).Nodup)
    (hpos : ∀ f ∈ fs, 0 < f.len) :
    (fs.map fun f => (InsertionFragment.new f).key).Nodup := by
  have hmem : ∀ f : Fragment, 0 < f.len →
      (f.timestamp, f.insertionOffset) ∈ f.cells.map Cell.id := by
    intro f hf
    refine List.mem_map.mpr ⟨f.cellAt f.insertionOffset, mem_cells.mpr ⟨?_, ?_, rfl⟩, rfl⟩
    · exact le_refl _
    · show f.insertionOffset < _
      omega
  induction fs with
  | nil => exact List.Pairwise.nil
  | cons f fs ih =>
    rw [cellsOf_cons, map_append] at hnd
    obtain ⟨-, hnd2, hdisj⟩ := List.nodup_append.mp hnd
    have htail : ∀ g ∈ fs, 0 < g.len := fun g hg => hpos g (mem_cons_of_mem _ hg)
    rw [map_cons, nodup_cons]
    refine ⟨fun hin => ?_, ih hnd2 htail⟩
    obtain ⟨g, hg, heq⟩ := List.mem_map.mp hin
    have heq' : (g.timestamp, g.insertionOffset) = (f.timestamp, f.insertionOffset) := heq
    have hgm : (g.timestamp, g.insertionOffset) ∈ (cellsOf fs).map Cell.id := by
      obtain ⟨c, hc, hid⟩ := List.mem_map.mp (hmem g (htail g hg))
      exact List.mem_map.mpr ⟨c, mem_cellsOf.mpr ⟨g, hg, hc⟩, hid⟩
    exact hdisj _ (hmem f (hpos f (by simp))) _ hgm heq'.symm

/-- **The insertions after an edit** file the fragments after it. -/
theorem filed_of_edit (h : s.Filed) (hd : EditDone byte s T newInsertions newSlices s' patch)
    (hnd : ((cellsOf s'.fragments).map Cell.id).Nodup) : s'.Filed := by
  have hkeys := nodup_keys hnd hd.len_pos
  have hinj := inj_on_of_nodup_map hkeys
  have hnew : (newInsertions.map InsertionFragment.key).Nodup := by
    refine (hd.filed.map InsertionFragment.key).nodup ?_
    rw [map_map]
    exact hkeys
  refine ⟨by rw [hd.insertions]; exact KeyedList.upsert_sorted h.sorted hnew, fun i => ?_⟩
  rw [hd.insertions, KeyedList.mem_upsert h.sorted hnew]
  constructor
  · intro hi
    rcases hi with hi | ⟨hi, hkey⟩
    · obtain ⟨g, hg, heq⟩ := List.mem_map.mp (hd.filed.subset hi)
      exact ⟨g, hg, heq.symm⟩
    · -- an old entry whose key was not taken is that of a fragment kept whole
      obtain ⟨f, hf, rfl⟩ := (h.mem_iff i).mp hi
      obtain ⟨g, hg, ht, ho, hid⟩ := hd.refiled f hf
      rcases hid with hin | hid
      · refine absurd (List.mem_map.mpr ⟨.new g, hin, ?_⟩) hkey
        simp [InsertionFragment.key, InsertionFragment.new, ht, ho]
      · exact ⟨g, hg, by simp [InsertionFragment.new, ht, ho, hid]⟩
  · rintro ⟨g, hg, heq⟩
    subst heq
    rcases hd.kept g hg with hin | ⟨f, hf, heq⟩
    · exact .inl hin
    · by_cases hkey : (InsertionFragment.new g).key ∈ newInsertions.map InsertionFragment.key
      · obtain ⟨j, hj, hjk⟩ := List.mem_map.mp hkey
        obtain ⟨g', hg', rfl⟩ := List.mem_map.mp (hd.filed.subset hj)
        rw [hinj hg hg' hjk.symm]
        exact .inl hj
      · exact .inr ⟨(h.mem_iff _).mpr ⟨f, hf, heq.symm⟩, hkey⟩

theorem slices_of_edit (hs : KeyedList.Sorted InsertionSlice.key s.insertionSlices)
    (hd : EditDone byte s T newInsertions newSlices s' patch)
    (hnd : ((cellsOf s'.fragments).map Cell.id).Nodup) :
    KeyedList.Sorted InsertionSlice.key s'.insertionSlices ∧
      ∀ x, x ∈ s'.insertionSlices ↔ x ∈ newSlices ∨ x ∈ s.insertionSlices := by
  have hinj : ∀ x y : InsertionSlice, x.key = y.key → x = y := by
    rintro ⟨a, b, ⟨c, d⟩⟩ ⟨a', b', ⟨c', d'⟩⟩ heq
    simp only [InsertionSlice.key, EmbeddingLike.apply_eq_iff_eq, Prod.mk.injEq] at heq
    obtain ⟨h1, h2, h3, h4⟩ := heq
    rw [h1, h2, h3, h4]
  have hnew : (newSlices.map InsertionSlice.key).Nodup := by
    refine (hd.sliced.map InsertionSlice.key).nodup ?_
    rw [map_map]
    refine Nodup.map_on (fun f hf g hg heq => ?_) (nodup_keys hnd hd.len_pos).of_map
    refine inj_on_of_nodup_map (nodup_keys hnd hd.len_pos) hf hg ?_
    have := hinj _ _ heq
    simp only [InsertionSlice.fromFragment, InsertionSlice.mk.injEq, Range.mk.injEq] at this
    simp [InsertionFragment.key, InsertionFragment.new, this.2.1, this.2.2.1]
  rw [hd.insertionSlices]
  refine ⟨KeyedList.upsert_sorted hs hnew, fun x => ?_⟩
  rw [KeyedList.mem_upsert hs hnew]
  constructor
  · intro hx; exact hx.imp id And.left
  · intro hx
    by_cases hin : x ∈ newSlices
    · exact .inl hin
    · refine .inr ⟨hx.resolve_left hin, fun hk => hin ?_⟩
      obtain ⟨y, hy, hyk⟩ := List.mem_map.mp hk
      exact hinj _ _ hyk ▸ hy

/-! ## Edits -/

theorem dependsOn_of_edit (hd : EditDone byte s T newInsertions newSlices s' patch) {g : Fragment}
    (hg : g ∈ s'.fragments) {e : Lamport} (he : g.DependsOn e) :
    e = T ∨ ∃ f ∈ s.fragments, g.Within T f ∧ f.DependsOn e := by
  rcases hd.within g hg with hin | ⟨f, hf, hw⟩
  · rcases he with he | he
    · exact .inl (he.trans hin.timestamp)
    · rw [hin.deletions] at he; exact absurd he (by simp)
  · rcases he with he | he
    · exact .inr ⟨f, hf, hw, .inl (he.trans hw.timestamp)⟩
    · rcases hw.fate with ⟨-, hdel⟩ | ⟨-, hdel⟩
      · rw [hdel] at he; exact .inr ⟨f, hf, hw, .inr he⟩
      · rw [hdel] at he
        rcases List.mem_append.mp he with he | he
        · exact .inr ⟨f, hf, hw, .inr he⟩
        · exact .inl (List.mem_singleton.mp he)

theorem eq_of_overlap {fs : List Fragment} (hnd : ((cellsOf fs).map Cell.id).Nodup)
    (hpos : ∀ f ∈ fs, 0 < f.len) {f g : Fragment} (hf : f ∈ fs) (hg : g ∈ fs) (ht : f.timestamp = g.timestamp)
    (hfg : f.insertionOffset < g.insertionOffset + g.len)
    (hgf : g.insertionOffset < f.insertionOffset + f.len) : f = g := by
  have hcell : ∀ {f : Fragment} {o : Nat}, f.insertionOffset ≤ o → o < f.insertionOffset + f.len →
      (f.timestamp, o) ∈ f.cells.map Cell.id := fun {f o} h1 h2 =>
    mem_map.mpr ⟨f.cellAt o, mem_cells.mpr ⟨h1, h2, rfl⟩, rfl⟩
  by_contra hne
  unfold cellsOf at hnd
  rw [map_flatMap, nodup_flatMap] at hnd
  have : Std.Symm (Function.onFun List.Disjoint fun f : Fragment => f.cells.map Cell.id) :=
    ⟨fun _ _ h _ ha hb => h hb ha⟩
  have hdisj := hnd.2.forall hf hg hne
  have hflen := hpos f hf
  have hglen := hpos g hg
  rcases le_total f.insertionOffset g.insertionOffset with hle | hle
  · exact hdisj (hcell hle hgf) (ht ▸ hcell (le_refl _) (by omega))
  · exact hdisj (hcell (le_refl _) (by omega)) (ht ▸ hcell hle hfg)

/-- **The slices after an edit** lie on what their edits touched. -/
theorem backed_of_edit (h : Wf byte s) (hT : s.version.observed T = false)
    (hd : EditDone byte s T newInsertions newSlices s' patch)
    (hnd : ((cellsOf s'.fragments).map Cell.id).Nodup) :
    ∀ x ∈ s'.insertionSlices, (s.version.observe T).observed x.insertionId = true ∧
      ∀ f ∈ s'.fragments, f.timestamp = x.insertionId → f.insertionOffset < x.range.stop →
        x.range.start < f.insertionOffset + f.len → f.DependsOn x.editId := by
  intro x hx
  rcases ((slices_of_edit h.slicesSorted hd hnd).2 x).mp hx with hx | hx
  · obtain ⟨g, hg, hgT, rfl⟩ := (hd.slices x).mp hx
    constructor
    · rcases dependsOn_of_edit hd hg (.inl rfl) with heq | ⟨f, hf, -, hdep⟩
      · exact heq ▸ Global.observed_observe_self ..
      · exact Global.observed_observe_of (h.observed f hf _ hdep)
    · intro f hf ht hlt hgt
      rw [eq_of_overlap hnd hd.len_pos hf hg ht hlt hgt]
      exact hgT.imp_left Eq.symm
  · obtain ⟨hobs, hback⟩ := h.backed x hx
    refine ⟨Global.observed_observe_of hobs, fun g hg ht hlt hgt => ?_⟩
    rcases hd.within g hg with hin | ⟨f, hf, hw⟩
    · rw [← ht, hin.timestamp, hT] at hobs
      exact absurd hobs Bool.false_ne_true
    · have hstart := hw.start_le
      have hstop := hw.le_stop
      have hdep := hback f hf (hw.timestamp.symm.trans ht) (by omega) (by omega)
      rcases hdep with hdep | hdep
      · exact .inl (hdep.trans hw.timestamp.symm)
      · rcases hw.fate with ⟨-, hdel⟩ | ⟨-, hdel⟩
        · exact .inr (hdel ▸ hdep)
        · exact .inr (hdel ▸ mem_append_left _ hdep)

theorem Wf.edit (h : Wf byte s) (hT : s.version.observed T = false)
    (hd : EditDone byte s T newInsertions newSlices s' patch)
    (hnd : ((cellsOf s'.fragments).map Cell.id).Nodup) :
    Wf byte { s' with version := s.version.observe T } := by
  obtain ⟨hsorted, hslices⟩ := slices_of_edit h.slicesSorted hd hnd
  have hnone : ∀ e ∈ s.undoMap, e.editId ≠ T := fun e he heq => by
    have := (h.undosObserved e he).2
    rw [heq, hT] at this
    exact Bool.false_ne_true this
  have hundo := h.not_undone hT
  refine ⟨hd.ids, hd.good, hd.len_pos, hnd, hd.visibleText, hd.deletedText,
    ⟨(filed_of_edit h.filed hd hnd).sorted, (filed_of_edit h.filed hd hnd).mem_iff⟩, hsorted,
    ?_, fun x hx => ?_, ?_, by rw [hd.undoMap]; exact h.undosSorted, ?_, ?_, ?_⟩
  · intro g hg e he hbase
    rcases dependsOn_of_edit hd hg he with rfl | ⟨f, hf, hw, hfe⟩
    · -- a slice of this edit, made from this fragment
      refine ⟨.fromFragment e g, (hslices _).mpr (.inl ((hd.slices _).mpr
        ⟨g, hg, he.imp Eq.symm id, rfl⟩)), rfl, rfl, le_refl _, le_refl _⟩
    · obtain ⟨x, hx, h1, h2, h3, h4⟩ := h.sliced f hf e hfe hbase
      refine ⟨x, (hslices _).mpr (.inr hx), h1, h2.trans hw.timestamp.symm, ?_, ?_⟩
      · have := hw.start_le; omega
      · have := hw.le_stop; omega
  · exact backed_of_edit h hT hd hnd x hx
  · intro g hg
    rw [hd.undoMap]
    rcases hd.within g hg with hin | ⟨f, hf, hw⟩
    · rw [hin.visible, Fragment.isVisible, hin.timestamp, hin.deletions, hundo]
      rfl
    · rcases hw.fate with ⟨hv, hdel⟩ | ⟨hv, hdel⟩
      · rw [hv, h.visible f hf, Fragment.isVisible, Fragment.isVisible, hw.timestamp, hdel]
      · rw [hv, Fragment.isVisible, hdel]
        simp [hundo]
  · intro g hg e he
    rcases dependsOn_of_edit hd hg he with rfl | ⟨f, hf, -, hfe⟩
    · exact Global.observed_observe_self ..
    · exact Global.observed_observe_of (h.observed f hf e hfe)
  · intro e he
    rw [hd.undoMap] at he
    obtain ⟨h1, h2⟩ := h.undosObserved e he
    exact ⟨Global.observed_observe_of h1, Global.observed_observe_of h2⟩
  · intro g hg e he hdep
    rw [hd.undoMap] at he
    rcases dependsOn_of_edit hd hg hdep with heq | ⟨f, hf, hw, hfe⟩
    · exact absurd heq (hnone e he)
    · rw [hw.maxUndos]
      exact h.maxUndos f hf e he hfe

/-! ## Undos -/

/-- An undo that may be applied: its edits are known, are counted once each, and none of
them is the base text. -/
structure UndoOperation.Known (undo : UndoOperation) (version : Global) : Prop where
  nodup : (undo.counts.map Prod.fst).Nodup
  observed : ∀ e ∈ undo.counts.map Prod.fst, version.observed e = true
  not_base : ∀ e ∈ undo.counts.map Prod.fst, e ≠ baseId

theorem mem_entriesOf {undo : UndoOperation} {e : UndoMapEntry} :
    e ∈ UndoMap.entriesOf undo ↔
      e.undoId = undo.timestamp ∧ (e.editId, e.undoCount) ∈ undo.counts := by
  simp only [UndoMap.entriesOf, mem_map]
  constructor
  · rintro ⟨c, hc, heq⟩
    subst heq
    exact ⟨rfl, hc⟩
  · rintro ⟨h1, h2⟩
    exact ⟨_, h2, by rw [← h1]⟩

theorem nodup_entriesOf {undo : UndoOperation} (h : (undo.counts.map Prod.fst).Nodup) :
    ((UndoMap.entriesOf undo).map UndoMapEntry.key).Nodup := by
  rw [UndoMap.entriesOf, map_map]
  refine Nodup.map_on (fun a ha b hb heq => ?_) h.of_map
  simp only [Function.comp_apply, UndoMapEntry.key, EmbeddingLike.apply_eq_iff_eq,
    Prod.mk.injEq] at heq
  exact inj_on_of_nodup_map h ha hb heq.1

section

variable (hs : KeyedList.Sorted UndoMapEntry.key undos) {undo : UndoOperation}
  (hnd : (undo.counts.map Prod.fst).Nodup) (hnew : ∀ e ∈ undos, e.undoId ≠ undo.timestamp)
include hs hnd hnew

theorem mem_insert {e : UndoMapEntry} :
    e ∈ undos.insert undo ↔ e ∈ UndoMap.entriesOf undo ∨ e ∈ undos := by
  rw [UndoMap.insert, KeyedList.mem_upsert hs (nodup_entriesOf hnd)]
  constructor
  · intro he; exact he.imp id And.left
  · intro he
    refine he.imp id (fun he => ⟨he, fun hk => ?_⟩)
    obtain ⟨x, hx, hkey⟩ := List.mem_map.mp hk
    simp only [UndoMapEntry.key, EmbeddingLike.apply_eq_iff_eq, Prod.mk.injEq] at hkey
    exact hnew e he (hkey.2.symm.trans (mem_entriesOf.mp hx).1)

theorem undoCount_insert_le_iff {e : Lamport} {n : Nat} : (undos.insert undo).undoCount e ≤ n ↔
    undos.undoCount e ≤ n ∧ ∀ c, (e, c) ∈ undo.counts → c ≤ n := by
  have hs' : KeyedList.Sorted UndoMapEntry.key (undos.insert undo) :=
    KeyedList.upsert_sorted hs (nodup_entriesOf hnd)
  unfold UndoMap.undoCount
  simp only [UndoMap.maxCount_le_iff, UndoMap.mem_entriesFor hs', UndoMap.mem_entriesFor hs,
    mem_insert hs hnd hnew, mem_entriesOf]
  constructor
  · intro h
    exact ⟨fun x hx => h x ⟨.inr hx.1, hx.2⟩, fun c hc => h ⟨e, undo.timestamp, c⟩ ⟨.inl ⟨rfl, hc⟩, rfl⟩⟩
  · rintro ⟨hold, hcounts⟩ x ⟨⟨-, hx⟩ | hx, rfl⟩
    · exact hcounts _ hx
    · exact hold x ⟨hx, rfl⟩

theorem undoCount_insert {ids : List Lamport}
    (hcounts : undo.counts = ids.map fun e => (e, undos.undoCount e + 1)) (e : Lamport) :
    (undos.insert undo).undoCount e = undos.undoCount e + if e ∈ ids then 1 else 0 := by
  refine eq_of_forall_ge_iff fun n => ?_
  rw [undoCount_insert_le_iff hs hnd hnew, hcounts]
  split
  · rename_i he
    exact ⟨fun h => h.2 _ (mem_map_of_mem he), fun h => ⟨by omega, by simp; omega⟩⟩
  · rename_i he
    exact ⟨fun h => h.1, fun h => ⟨h, by simp [he]⟩⟩

theorem isUndone_insert {e : Lamport}
    (he : e ∉ undo.counts.map Prod.fst) :
    (undos.insert undo).isUndone e = undos.isUndone e := by
  have hs' : KeyedList.Sorted UndoMapEntry.key (undos.insert undo) :=
    KeyedList.upsert_sorted hs (nodup_entriesOf hnd)
  unfold UndoMap.isUndone UndoMap.undoCount
  rw [UndoMap.maxCount_congr (fun x => ?_)]
  rw [UndoMap.mem_entriesFor hs', UndoMap.mem_entriesFor hs, mem_insert hs hnd hnew]
  constructor
  · rintro ⟨h1, h2⟩
    refine ⟨h1.resolve_left (fun hx => he ?_), h2⟩
    exact List.mem_map.mpr ⟨_, (mem_entriesOf.mp hx).2, h2⟩
  · rintro ⟨h1, h2⟩; exact ⟨.inr h1, h2⟩

end

theorem ids_refreshed {ts : Lamport} (p : Fragment → Bool) (fs : List Fragment) :
    (cellsOf (fs.map fun f => if p f then f.refreshed undos ts else f)).map Cell.id =
      (cellsOf fs).map Cell.id := by
  induction fs with
  | nil => rfl
  | cons f fs ih =>
    rw [map_cons, cellsOf_cons, cellsOf_cons, map_append, map_append, ih]
    congr 1
    split
    · simp [Fragment.cells, Fragment.cellAt, Fragment.refreshed, Cell.id, Function.comp_def]
    · rfl

theorem Wf.touches (h : Wf byte s) {editIds : List Lamport} {f : Fragment} (hf : f ∈ s.fragments)
    {e : Lamport} (he : f.DependsOn e) (hmem : e ∈ editIds) (hbase : e ≠ baseId) :
    s.touches editIds f = true := by
  obtain ⟨x, hx, h1, h2, h3, h4⟩ := h.sliced f hf e he hbase
  have hlen := h.len_pos f hf
  rw [BufferSnapshot.touches, any_eq_true]
  refine ⟨x, hx, ?_⟩
  have hlt : f.insertionOffset < x.range.stop := by omega
  simp [InsertionSlice.covers, InsertionFragment.new, h1, hmem, h2, h3, hlt]

theorem Wf.touches_iff (h : Wf byte s) {editIds : List Lamport} (hbase : ∀ e ∈ editIds, e ≠ baseId)
    {f : Fragment} (hf : f ∈ s.fragments) :
    s.touches editIds f = true ↔ ∃ e ∈ editIds, f.DependsOn e := by
  constructor
  · intro ht
    rw [BufferSnapshot.touches, List.any_eq_true] at ht
    obtain ⟨x, hx, hcovers⟩ := ht
    rw [Bool.and_eq_true, InsertionSlice.covers, Bool.and_eq_true, Bool.and_eq_true] at hcovers
    obtain ⟨hmem, ⟨hid, hstart⟩, hstop⟩ := hcovers
    have hlt : x.range.start < f.insertionOffset + f.len :=
      lt_of_le_of_lt (of_decide_eq_true hstart) (Nat.lt_add_of_pos_right (h.len_pos f hf))
    exact ⟨x.editId, of_decide_eq_true hmem,
      (h.backed x hx).2 f hf (of_decide_eq_true hid).symm (of_decide_eq_true hstop) hlt⟩
  · rintro ⟨e, hmem, he⟩
    exact h.touches hf he hmem (hbase e hmem)

theorem Wf.undo (h : Wf byte s) {undo : UndoOperation}
    (hT : s.version.observed undo.timestamp = false) (hk : undo.Known s.version)
    (hd : BufferSnapshot.UndoDone byte s undo s' patch) :
    Wf byte { s' with version := s.version.observe undo.timestamp } := by
  have hnew : ∀ e ∈ s.undoMap, e.undoId ≠ undo.timestamp := fun e he heq => by
    have := (h.undosObserved e he).1
    rw [heq, hT] at this
    exact Bool.false_ne_true this
  -- every fragment comes from one that differs in visibility and undos at most
  have hfrom : ∀ g ∈ s'.fragments, ∃ f ∈ s.fragments,
      (s.touches (undo.counts.map Prod.fst) f = true ∧
        g = f.refreshed (s.undoMap.insert undo) undo.timestamp) ∨
      (s.touches (undo.counts.map Prod.fst) f = false ∧ g = f) := by
    intro g hg
    rw [hd.fragments] at hg
    obtain ⟨f, hf, heq⟩ := List.mem_map.mp hg
    refine ⟨f, hf, ?_⟩
    split at heq
    · rename_i ht; exact .inl ⟨ht, heq.symm⟩
    · rename_i ht; exact .inr ⟨by simpa using ht, heq.symm⟩
  have hsame : ∀ g ∈ s'.fragments, ∃ f ∈ s.fragments, g.id = f.id ∧ g.timestamp = f.timestamp ∧
      g.insertionOffset = f.insertionOffset ∧ g.len = f.len ∧ g.deletions = f.deletions := by
    intro g hg
    obtain ⟨f, hf, ⟨-, rfl⟩ | ⟨-, rfl⟩⟩ := hfrom g hg
    · exact ⟨f, hf, rfl, rfl, rfl, rfl, rfl⟩
    · exact ⟨g, hf, rfl, rfl, rfl, rfl, rfl⟩
  have hdep : ∀ {g f : Fragment} {e : Lamport}, g.timestamp = f.timestamp →
      g.deletions = f.deletions → g.DependsOn e → f.DependsOn e := by
    intro g f e h1 h2 he
    rcases he with he | he
    · exact .inl (he.trans h1)
    · exact .inr (h2 ▸ he)
  have hnewMap : s'.fragments.map InsertionFragment.new = s.fragments.map InsertionFragment.new := by
    rw [hd.fragments, map_map]
    refine map_congr_left (fun f _ => ?_)
    simp only [Function.comp_apply]
    split <;> rfl
  have hidMap : s'.fragments.map Fragment.id = s.fragments.map Fragment.id := by
    rw [hd.fragments, map_map]
    refine map_congr_left (fun f _ => ?_)
    simp only [Function.comp_apply]
    split <;> rfl
  refine ⟨?_, ?_, ?_, ?_, hd.visibleText, hd.deletedText, ⟨?_, ?_⟩, ?_, ?_, ?_, ?_, ?_, ?_, ?_, ?_⟩
  · have := List.pairwise_map.mpr h.ids
    rw [← hidMap] at this
    exact List.pairwise_map.mp this
  · intro g hg
    obtain ⟨f, hf, hid, -⟩ := hsame g hg
    rw [hid]; exact h.good f hf
  · intro g hg
    obtain ⟨f, hf, -, -, -, hlen, -⟩ := hsame g hg
    rw [hlen]; exact h.len_pos f hf
  · dsimp only
    rw [hd.fragments, ids_refreshed]
    exact h.nodup
  · dsimp only
    rw [hd.insertions]; exact h.filed.sorted
  · intro i
    rw [hd.insertions, h.filed.mem_iff]
    have h1 : (∃ f ∈ s.fragments, i = .new f) ↔ i ∈ s.fragments.map InsertionFragment.new := by
      simp [eq_comm]
    have h2 : (∃ f ∈ s'.fragments, i = .new f) ↔ i ∈ s'.fragments.map InsertionFragment.new := by
      simp [eq_comm]
    rw [h1, h2, hnewMap]
  · dsimp only
    rw [hd.insertionSlices]; exact h.slicesSorted
  · intro g hg e he hbase
    obtain ⟨f, hf, -, ht, ho, hlen, hdel⟩ := hsame g hg
    rw [hd.insertionSlices, ht, ho, hlen]
    exact h.sliced f hf e (hdep ht hdel he) hbase
  · intro x hx
    rw [hd.insertionSlices] at hx
    obtain ⟨hobs, hback⟩ := h.backed x hx
    refine ⟨Global.observed_observe_of hobs, fun g hg hgx hlt hgt => ?_⟩
    obtain ⟨f, hf, -, ht, ho, hlen, hdel⟩ := hsame g hg
    rw [ht] at hgx
    rw [ho] at hlt hgt
    rw [hlen] at hgt
    exact hdep ht.symm hdel.symm (hback f hf hgx hlt hgt)
  · intro g hg
    rw [hd.undoMap]
    obtain ⟨f, hf, ⟨-, rfl⟩ | ⟨ht, rfl⟩⟩ := hfrom g hg
    · rfl
    · -- nothing it depends on has been counted
      rw [h.visible g hf]
      refine isVisible_congr (fun e he => (isUndone_insert h.undosSorted hk.nodup hnew ?_).symm)
      intro hmem
      have := h.touches hf he hmem (hk.not_base e hmem)
      rw [ht] at this
      exact Bool.false_ne_true this
  · dsimp only
    rw [hd.undoMap]
    exact KeyedList.upsert_sorted h.undosSorted (nodup_entriesOf hk.nodup)
  · intro g hg e he
    obtain ⟨f, hf, -, ht, -, -, hdel⟩ := hsame g hg
    exact Global.observed_observe_of (h.observed f hf e (hdep ht hdel he))
  · intro e he
    rw [hd.undoMap, mem_insert h.undosSorted hk.nodup hnew] at he
    rcases he with he | he
    · obtain ⟨h1, h2⟩ := mem_entriesOf.mp he
      rw [h1]
      exact ⟨Global.observed_observe_self .., Global.observed_observe_of
        (hk.observed _ (List.mem_map.mpr ⟨_, h2, rfl⟩))⟩
    · obtain ⟨h1, h2⟩ := h.undosObserved e he
      exact ⟨Global.observed_observe_of h1, Global.observed_observe_of h2⟩
  · intro g hg e he hge
    rw [hd.undoMap, mem_insert h.undosSorted hk.nodup hnew] at he
    obtain ⟨f, hf, ⟨-, rfl⟩ | ⟨ht, rfl⟩⟩ := hfrom g hg
    · rcases he with he | he
      · rw [(mem_entriesOf.mp he).1]
        exact Global.observed_observe_self ..
      · exact Global.observed_observe_of (h.maxUndos f hf e he hge)
    · rcases he with he | he
      · have hmem : e.editId ∈ undo.counts.map Prod.fst :=
          List.mem_map.mpr ⟨_, (mem_entriesOf.mp he).2, rfl⟩
        have := h.touches hf hge hmem (hk.not_base _ hmem)
        rw [ht] at this
        exact absurd this Bool.false_ne_true
      · exact h.maxUndos g hf e he hge

/-! ## New buffers -/

theorem baseFragments_spec (cfg : Profile) :
    ∀ (fuel : Nat) (text : List Char) (off : Nat) (prev : Locator), text.length ≤ fuel →
      Locator.min ≤ prev → prev < Locator.max →
      NewFragments baseId off (byteLen text) prev Locator.max
          (Buffer.baseFragments cfg fuel text off prev) ∧
        (Buffer.baseFragments cfg fuel text off prev).Pairwise
          (fun f g => f.insertionOffset < g.insertionOffset) ∧
        ∀ f ∈ Buffer.baseFragments cfg fuel text off prev, off ≤ f.insertionOffset
  | 0, text, off, prev, hfuel, _, _ => by
      have : text = [] := List.length_eq_zero_iff.mp (by omega)
      subst this
      exact ⟨.nil, List.Pairwise.nil, by simp [Buffer.baseFragments]⟩
  | fuel + 1, text, off, prev, hfuel, hmin, hlt => by
      by_cases htext : text = []
      · subst htext
        rw [Buffer.baseFragments, if_pos rfl]
        exact ⟨.nil, List.Pairwise.nil, by simp⟩
      obtain ⟨chunk, rest, hchunk, hne, happ⟩ := exists_chunk cfg htext
      obtain ⟨hb1, hb2, -⟩ := Locator.between_spec hlt Locator.max_last
      have hgood := Locator.good_between hmin hlt (le_refl _) Locator.max_last
      obtain ⟨f, hf⟩ : ∃ f : Fragment, f =
          { id := Locator.between prev Locator.max
            timestamp := Lamport.new ReplicaId.LOCAL
            insertionOffset := off
            len := byteLen chunk
            visible := true
            deletions := []
            maxUndos := Global.new } := ⟨_, rfl⟩
      have hlen : rest.length ≤ fuel := by
        have h1 := congrArg List.length happ
        have h2 := List.length_pos_iff.mpr hne
        rw [length_append] at h1
        omega
      obtain ⟨hfs, hoff, hge⟩ := baseFragments_spec cfg fuel rest (off + byteLen chunk)
        (Locator.between prev Locator.max) hlen (le_of_lt hgood.min_lt) hb2
      have hbytes : byteLen text = byteLen chunk + byteLen rest := by
        rw [← happ, byteLen_append]
      have hpos := byteLen_pos hne
      have heq : Buffer.baseFragments cfg (fuel + 1) text off prev =
          f :: Buffer.baseFragments cfg fuel rest (off + byteLen chunk)
            (Locator.between prev Locator.max) := by
        rw [Buffer.baseFragments, if_neg htext]
        simp only [hchunk, hf]
      have hid : f.id = Locator.between prev Locator.max := by rw [hf]
      rw [← hid] at hfs hb1 hb2 hgood hoff hge
      have hcells : f.cells = (List.range' off (byteLen chunk)).map (Cell.inserted baseId) := by
        rw [hf]; rfl
      rw [heq, hbytes, ← hid]
      refine ⟨hfs.cons hb1 hb2 hgood (by rw [hf]; exact hpos) (by rw [hf]; exact ⟨rfl, rfl, rfl, rfl⟩)
        hcells, ?_, ?_⟩
      · refine List.pairwise_cons.mpr ⟨fun g hg => ?_, hoff⟩
        have := hge g hg
        rw [hf]; dsimp only; omega
      · intro g hg
        rcases List.mem_cons.mp hg with rfl | hg
        · rw [hf]
        · have := hge g hg; omega

section

variable (cfg : Profile) (replicaId remoteId : Nat) (baseText : List Char)

theorem new_cells :
    cellsOf (Buffer.new cfg replicaId remoteId baseText).snapshot.fragments =
      (List.range' 0 (byteLen (normalize baseText))).map (Cell.inserted baseId) :=
  (baseFragments_spec cfg _ (normalize baseText) 0 Locator.min (le_refl _) (le_refl _)
    Locator.min_lt_max).1.cells

theorem Wf.new (hb : (List.range' 0 (byteLen (normalize baseText))).map (byte baseId) =
      utf8 (normalize baseText)) :
    Wf byte (Buffer.new cfg replicaId remoteId baseText).snapshot := by
  have hcells := new_cells cfg replicaId remoteId baseText
  obtain ⟨hfs, hoff, -⟩ := baseFragments_spec cfg (normalize baseText).length (normalize baseText) 0
    Locator.min (le_refl _) (le_refl _) Locator.min_lt_max
  have hsnap : (Buffer.new cfg replicaId remoteId baseText).snapshot.fragments =
      Buffer.baseFragments cfg (normalize baseText).length (normalize baseText) 0 Locator.min := rfl
  have hvis : ∀ c ∈ cellsOf (Buffer.new cfg replicaId remoteId baseText).snapshot.fragments,
      c.visible = true := by
    rw [hcells]
    intro c hc
    obtain ⟨o, -, rfl⟩ := List.mem_map.mp hc
    rfl
  have hbytes : bytesOf byte
      (cellsOf (Buffer.new cfg replicaId remoteId baseText).snapshot.fragments) =
      utf8 (normalize baseText) := by
    rw [hcells, bytesOf, map_map, ← hb]
    rfl
  refine ⟨hfs.ids, hfs.good, hfs.len_pos, ?_, ?_, ?_, ⟨?_, ?_⟩, List.Pairwise.nil, ?_, fun _ hx => absurd hx not_mem_nil, ?_,
    List.Pairwise.nil, ?_, ?_, ?_⟩
  · rw [hcells, map_map]
    refine Nodup.map_on (fun a _ b _ heq => ?_) nodup_range'
    simpa [Cell.id, Cell.inserted] using heq
  · rw [textOf_uniform byte hvis, if_pos rfl, hbytes]; rfl
  · rw [textOf_uniform byte hvis, if_neg (by simp)]; rfl
  · refine List.pairwise_map.mpr (hoff.imp_of_mem (fun {f g} hf hg hlt => ?_))
    rw [InsertionFragment.key, InsertionFragment.key, Prod.Lex.toLex_lt_toLex]
    exact .inr ⟨(hfs.inserted f hf).timestamp.trans (hfs.inserted g hg).timestamp.symm, hlt⟩
  · intro i
    show i ∈ (Buffer.new cfg replicaId remoteId baseText).snapshot.fragments.map .new ↔ _
    simp [eq_comm]
  · intro f hf e he hbase
    rcases he with he | he
    · exact absurd (he.trans (hfs.inserted f hf).timestamp) hbase
    · rw [(hfs.inserted f hf).deletions] at he; exact absurd he (by simp)
  · intro f hf
    rw [(hfs.inserted f hf).visible, Fragment.isVisible, (hfs.inserted f hf).deletions]
    rfl
  · intro f hf e he
    have heq : e = baseId := by
      rcases he with he | he
      · exact he.trans (hfs.inserted f hf).timestamp
      · rw [(hfs.inserted f hf).deletions] at he; exact absurd he (by simp)
    have hne : normalize baseText ≠ [] := by
      intro hnil
      rw [hsnap, hnil] at hf
      simp [Buffer.baseFragments] at hf
    rw [heq]
    show Global.observed (if normalize baseText = [] then _ else _) baseId = true
    rw [if_neg hne]
    exact Global.observed_observe_self ..
  · intro e he; exact absurd he (not_mem_nil)
  · intro f _ e he; exact absurd he (not_mem_nil)

end

end

end SpkEditor
