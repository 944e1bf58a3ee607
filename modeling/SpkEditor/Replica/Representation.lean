import SpkEditor.Replica.Convergence

/-!
# The representation invariant

`Wf` and `Mirrors` in terms of fragments, as a reader of `check_invariants` would put
them: the fragments of an insertion tile it in document order, and the two texts are
what the visible and the other fragments hold of the inserted texts.
-/

namespace SpkEditor

open List

/-- Fragments that tile an insertion from an offset up to another one, in this order. -/
def Tiles : Nat → List Fragment → Nat → Prop
  | offset, [], stop => offset = stop
  | offset, f :: fs, stop => f.insertionOffset = offset ∧ 0 < f.len ∧ Tiles (offset + f.len) fs stop

def Fragment.text (content : Lamport → List UInt8) (f : Fragment) : List UInt8 :=
  ((content f.timestamp).drop f.insertionOffset).take f.len

def Inserted (sent : List Operation) (t : Lamport) : Prop :=
  t = baseId ∨ ∃ op, Operation.edit op ∈ sent ∧ op.timestamp = t

/-- **What a snapshot keeps consistent.** `content` is the text of each insertion. -/
structure Represents (content : Lamport → List UInt8) (sent : List Operation)
    (s : BufferSnapshot) : Prop where
  ids : s.fragments.Pairwise fun f g => f.id < g.id
  insertionsSorted : KeyedList.Sorted InsertionFragment.key s.insertions
  insertions : s.insertions.Perm (s.fragments.map InsertionFragment.new)
  inserted : ∀ f ∈ s.fragments, Inserted sent f.timestamp ∧ s.version.observed f.timestamp = true
  tiles : ∀ t, Inserted sent t → s.version.observed t = true →
    Tiles 0 (s.fragments.filter fun f => f.timestamp = t) (content t).length
  visible : ∀ f ∈ s.fragments, f.visible = f.isVisible s.undoMap
  visibleText : s.visibleText = (s.fragments.filter fun f => f.visible).flatMap (Fragment.text content)
  deletedText : s.deletedText =
    (s.fragments.filter fun f => !f.visible).flatMap (Fragment.text content)

theorem filter_cellsOf (t : Lamport) (fs : List Fragment) :
    ((cellsOf fs).map Cell.id).filter (fun x => decide (x.1 = t)) =
      (cellsOf (fs.filter fun f => f.timestamp = t)).map Cell.id := by
  induction fs with
  | nil => rfl
  | cons f fs ih =>
    have hts : ∀ x ∈ f.cells.map Cell.id, x.1 = f.timestamp := by
      intro x hx
      obtain ⟨c, hc, rfl⟩ := List.mem_map.mp hx
      exact (cells_uniform hc).1
    rw [cellsOf_cons, map_append, filter_append, ih, filter_cons]
    by_cases hf : f.timestamp = t
    · rw [if_pos (decide_eq_true hf), cellsOf_cons, map_append, List.filter_eq_self.mpr]
      intro x hx
      exact decide_eq_true ((hts x hx).trans hf)
    · rw [if_neg (by simpa using hf), List.filter_eq_nil_iff.mpr, nil_append]
      intro x hx hd
      exact hf ((hts x hx).symm.trans (of_decide_eq_true hd))

theorem tiles_of_offsets {t : Lamport} : ∀ {fs : List Fragment} {offset n : Nat},
    (∀ f ∈ fs, 0 < f.len) →
    (cellsOf fs).map Cell.id = (List.range' offset n).map (fun o => (t, o)) →
    Tiles offset fs (offset + n)
  | [], offset, n, _, h => by
      have : n = 0 := by simpa using (congrArg List.length h).symm
      rw [this]
      rfl
  | f :: fs, offset, n, hpos, h => by
      have hf := hpos f (by simp)
      have hlen := congrArg List.length h
      simp only [cellsOf_cons, length_map, length_append, Fragment.length_cells,
        length_range'] at hlen
      obtain ⟨m, rfl⟩ : ∃ m, n = f.len + m := ⟨n - f.len, by omega⟩
      rw [cellsOf_cons, map_append, ← range'_append_1, map_append] at h
      obtain ⟨hhead, htail⟩ := append_inj h (by simp)
      have hoff : f.insertionOffset = offset := by
        have h0 := congrArg (fun l => l.head?) hhead
        obtain ⟨k, hk⟩ : ∃ k, f.len = k + 1 := ⟨f.len - 1, by omega⟩
        simp only [Fragment.cells, hk, range'_succ, map_cons, head?_cons,
          Option.some.injEq] at h0
        exact (Prod.mk.inj h0).2
      refine ⟨hoff, hf, ?_⟩
      rw [← add_assoc]
      exact tiles_of_offsets (fun g hg => hpos g (mem_cons_of_mem _ hg)) htail

theorem Tiles.le : ∀ {fs : List Fragment} {offset stop : Nat}, Tiles offset fs stop →
    offset ≤ stop ∧ ∀ f ∈ fs, f.insertionOffset + f.len ≤ stop
  | [], _, _, h => ⟨le_of_eq h, by simp⟩
  | f :: fs, offset, stop, ⟨h1, h2, h3⟩ => by
      obtain ⟨hle, hall⟩ := h3.le
      refine ⟨by omega, fun g hg => ?_⟩
      rcases List.mem_cons.mp hg with rfl | hg
      · omega
      · exact hall g hg

theorem bytesOf_cells {content : Lamport → List UInt8} {f : Fragment}
    (h : f.insertionOffset + f.len ≤ (content f.timestamp).length) :
    bytesOf (fun t i => (content t).getD i 0) f.cells = f.text content := by
  unfold bytesOf Fragment.cells Fragment.text
  refine ext_getElem (by simp; omega) (fun i h1 h2 => ?_)
  simp only [length_map, length_range'] at h1
  have hlt : f.insertionOffset + i < (content f.timestamp).length := by omega
  simp [Fragment.cellAt, getElem?_eq_getElem hlt]

theorem textOf_fragments {content : Lamport → List UInt8} (v : Bool) {fs : List Fragment}
    (h : ∀ f ∈ fs, f.insertionOffset + f.len ≤ (content f.timestamp).length) :
    textOf (fun t i => (content t).getD i 0) v (cellsOf fs) =
      (fs.filter fun f => f.visible == v).flatMap (Fragment.text content) := by
  induction fs with
  | nil => rfl
  | cons f fs ih =>
    rw [cellsOf_cons, textOf_append, ih (fun g hg => h g (mem_cons_of_mem _ hg)),
      textOf_uniform _ (fun c hc => (cells_uniform hc).2.1), filter_cons]
    by_cases hv : f.visible = v
    · rw [if_pos hv, if_pos (by simpa using hv), flatMap_cons, bytesOf_cells (h f (by simp))]
    · rw [if_neg hv, if_neg (by simpa using hv), nil_append]

section

variable {baseText : List Char} {cfg : Profile} {remoteId r : Nat} {w : World}
  {sent : List Operation} {b : Buffer}

theorem DocInv.insertion {doc : Doc} (h : DocInv baseText sent doc) (hc : Causal sent) {t : Lamport}
    (ht : Inserted sent t) :
    doc.order.filter (fun x => decide (x.1 = t)) =
      (List.range' 0 (contentOf baseText sent t).length).map fun o => (t, o) := by
  rcases ht with rfl | ⟨op, hop, rfl⟩
  · rw [h.baseOrder, contentOf, if_pos rfl, length_utf8]
    rfl
  · rw [(h.holds op hop).whole, contentOf_edit hc hop, length_utf8]

section

variable (h : ReplicaInv baseText sent r b)
include h

/-- The fragments of an insertion that has been observed tile it. -/
theorem ReplicaInv.tiles (hc : Causal sent)
    (hdoc : DocInv baseText sent (Doc.of baseText sent)) {t : Lamport} (ht : Inserted sent t)
    (hobs : b.snapshot.version.observed t = true) :
    Tiles 0 (b.snapshot.fragments.filter fun f => f.timestamp = t)
      (contentOf baseText sent t).length := by
  have hids : (cellsOf (b.snapshot.fragments.filter fun f => f.timestamp = t)).map Cell.id =
      (List.range' 0 (contentOf baseText sent t).length).map fun o => (t, o) := by
    rw [← filter_cellsOf, h.mirrors.ids, Doc.view, filter_filter, ← hdoc.insertion hc ht]
    refine filter_congr (fun x _ => ?_)
    by_cases hx : x.1 = t
    · rw [hx, hobs, Bool.and_true]
    · rw [decide_eq_false hx, Bool.false_and]
  have := tiles_of_offsets (fun f hf => h.wf.len_pos f (List.mem_filter.mp hf).1) hids
  rwa [zero_add] at this

theorem ReplicaInv.inserted (hdoc : DocInv baseText sent (Doc.of baseText sent)) {f : Fragment}
    (hf : f ∈ b.snapshot.fragments) :
    Inserted sent f.timestamp ∧ b.snapshot.version.observed f.timestamp = true := by
  refine ⟨?_, h.wf.observed f hf _ (.inl rfl)⟩
  have hcell : f.cellAt f.insertionOffset ∈ cellsOf b.snapshot.fragments := by
    refine mem_cellsOf.mpr ⟨f, hf, mem_cells.mpr ⟨le_refl _, ?_, rfl⟩⟩
    have := h.wf.len_pos f hf
    show f.insertionOffset < _
    omega
  have hid := mem_map_of_mem (f := Cell.id) hcell
  rw [h.mirrors.ids] at hid
  exact hdoc.inserted _ (Doc.mem_view.mp hid).1

theorem ReplicaInv.represents (hc : Causal sent)
    (hdoc : DocInv baseText sent (Doc.of baseText sent)) :
    Represents (contentOf baseText sent) sent b.snapshot := by
  have hle : ∀ f ∈ b.snapshot.fragments,
      f.insertionOffset + f.len ≤ (contentOf baseText sent f.timestamp).length := by
    intro f hf
    obtain ⟨hins, hobs⟩ := h.inserted hdoc hf
    exact (h.tiles hc hdoc hins hobs).le.2 f (List.mem_filter.mpr ⟨hf, by simp⟩)
  have htext := fun v => @textOf_fragments (contentOf baseText sent) v _ hle
  refine ⟨h.wf.ids, h.wf.filed.sorted, ?_, fun f hf => h.inserted hdoc hf,
    fun t ht hobs => h.tiles hc hdoc ht hobs, h.wf.visible, ?_, ?_⟩
  · have hnd := nodup_keys h.wf.nodup h.wf.len_pos
    refine (perm_ext_iff_of_nodup ?_ ?_).mpr (fun i => ?_)
    · exact h.wf.filed.sorted.imp (fun hlt heq => absurd (heq ▸ hlt) (lt_irrefl _))
    · rw [← Function.comp_def, ← map_map] at hnd
      exact List.Nodup.of_map _ hnd
    · rw [h.wf.filed.mem_iff, mem_map]
      constructor <;> rintro ⟨f, hf, heq⟩ <;> exact ⟨f, hf, heq.symm⟩
  · rw [h.wf.visibleText]
    refine (htext true).trans ?_
    congr 2
    funext f
    simp
  · rw [h.wf.deletedText]
    refine (htext false).trans ?_
    congr 2
    funext f
    simp

end

end

end SpkEditor
