import SpkEditor.Text.Cells
import SpkEditor.Text.Edit
import SpkEditor.Text.PatchProof
import Mathlib.Algebra.Order.Ring.Nat

/-!
# The invariant of the edit loops

`EditInv` is what holds at every point of `apply_local_edit` and `apply_remote_edit`.
The number `progress` says how many of the old cells have been used; everything else
is about the fragments written so far and what is left of the old ones. The loops
only ever do five things, and each has its lemma.
-/

namespace SpkEditor

open List

variable {fs rest : List Fragment} {f g : Fragment} {st' : EditState} {oldStart : Nat}

def IdsSorted (fs : List Fragment) : Prop := fs.Pairwise (fun f g => f.id < g.id)

/-- A piece of a fragment, or all of it: as it was, or deleted by the edit. -/
structure Fragment.Within (T : Lamport) (g f : Fragment) : Prop where
  timestamp : g.timestamp = f.timestamp
  start_le : f.insertionOffset ≤ g.insertionOffset
  le_stop : g.insertionOffset + g.len ≤ f.insertionOffset + f.len
  maxUndos : g.maxUndos = f.maxUndos
  fate : (g.visible = f.visible ∧ g.deletions = f.deletions) ∨
    (g.visible = false ∧ g.deletions = f.deletions ++ [T])

/-- A fragment of the edit's own text. -/
structure Fragment.Inserted (T : Lamport) (g : Fragment) : Prop where
  timestamp : g.timestamp = T
  visible : g.visible = true
  deletions : g.deletions = []
  maxUndos : g.maxUndos = Global.new

theorem IdsSorted.le_maxId (h : IdsSorted fs) : ∀ f ∈ fs, f.id ≤ maxId fs := by
  intro f hf
  rcases eq_nil_or_concat fs with rfl | ⟨gs, g, rfl⟩
  · simp at hf
  · rw [concat_eq_append] at h hf ⊢
    have hmax : maxId (gs ++ [g]) = g.id := by simp [maxId]
    rw [hmax]
    rcases List.mem_append.mp hf with hf | hf
    · exact le_of_lt ((List.pairwise_append.mp h).2.2 f hf g (by simp))
    · rw [List.mem_singleton.mp hf]

theorem maxId_lt {l : Locator} (hmin : Locator.min < l)
    (h : ∀ f ∈ fs, f.id < l) : maxId fs < l := by
  unfold maxId
  cases hl : fs.getLast? with
  | none => exact hmin
  | some f => exact h f (mem_of_getLast? hl)

theorem min_le_maxId (h : ∀ f ∈ fs, Locator.Good f.id) : Locator.min ≤ maxId fs := by
  unfold maxId
  cases hl : fs.getLast? with
  | none => exact le_refl _
  | some f => exact le_of_lt (h f (mem_of_getLast? hl)).min_lt

theorem IdsSorted.insert {gs : List Fragment} (h : IdsSorted (fs ++ gs))
    (hl : maxId fs < g.id) (hr : ∀ f ∈ gs, g.id < f.id) : IdsSorted (fs ++ [g] ++ gs) := by
  obtain ⟨h1, h2, h3⟩ := List.pairwise_append.mp h
  refine List.pairwise_append.mpr ⟨List.pairwise_append.mpr ⟨h1, by simp, ?_⟩, h2, ?_⟩
  · intro a ha b hb
    rw [List.mem_singleton.mp hb]
    exact lt_of_le_of_lt (IdsSorted.le_maxId h1 a ha) hl
  · intro a ha b hb
    rcases List.mem_append.mp ha with ha | ha
    · exact h3 a ha b hb
    · rw [List.mem_singleton.mp ha]; exact hr b hb

section

variable (d : Dimensions) (byte : Lamport → Nat → UInt8) (s : BufferSnapshot) (T : Lamport)

/-- What an edit may assume of the snapshot it is applied to. -/
structure EditCtx : Prop where
  ids : IdsSorted s.fragments
  good : ∀ f ∈ s.fragments, Locator.Good f.id
  len_pos : ∀ f ∈ s.fragments, 0 < f.len
  /-- The edit is new. -/
  fresh : ∀ f ∈ s.fragments, f.timestamp ≠ T ∧ T ∉ f.deletions
  visibleText : s.visibleText = textOf byte true (cellsOf s.fragments)
  deletedText : s.deletedText = textOf byte false (cellsOf s.fragments)

/-- How many of the old cells have been used. -/
def progress (pre : List Fragment) (st : EditState) : Nat :=
  (cellsOf pre).length + (st.fragmentStart - st.oldFragments.start.1)

/-- A fragment that has been used, at least in part. -/
def Touched (pre : List Fragment) (st : EditState) (f : Fragment) : Prop :=
  f ∈ pre ∨ (st.oldFragments.rest.head? = some f ∧ st.oldFragments.start.1 < st.fragmentStart)

/-- **The invariant of the edit loops**, with the fragments the cursor has passed. -/
structure EditInv (pre : List Fragment) (st : EditState) : Prop where
  passed : s.fragments = pre ++ st.oldFragments.rest
  start : st.oldFragments.start = ((pre.map d.pos).sum, (pre.map d.aux).sum)
  le_start : st.oldFragments.start.1 ≤ st.fragmentStart
  /-- Only a fragment whose positions are its bytes is ever used in part. -/
  trim : st.oldFragments.start.1 < st.fragmentStart → ∃ f rest, st.oldFragments.rest = f :: rest ∧
    d.pos f = f.len ∧ st.fragmentStart ≤ st.oldFragments.start.1 + f.len
  ids : IdsSorted (st.newFragments ++ st.oldFragments.rest)
  good : ∀ g ∈ st.newFragments, Locator.Good g.id
  len_pos : ∀ g ∈ st.newFragments, 0 < g.len
  ropes : RopeInv byte st.newRopes (cellsOf st.newFragments)
    ((cellsOf s.fragments).drop (progress pre st))
  /-- What is filed among the insertions has been written. -/
  filed : st.newInsertions.Sublist (st.newFragments.map .new)
  /-- What has been written and not filed was there before. -/
  kept : ∀ g ∈ st.newFragments,
    .new g ∈ st.newInsertions ∨ ∃ f ∈ s.fragments, InsertionFragment.new f = .new g
  /-- Where a used fragment was filed, something written is filed now. -/
  refiled : ∀ f, Touched pre st f → ∃ g ∈ st.newFragments, g.timestamp = f.timestamp ∧
    g.insertionOffset = f.insertionOffset ∧ (.new g ∈ st.newInsertions ∨ g.id = f.id)
  within : ∀ g ∈ st.newFragments, g.Inserted T ∨ ∃ f ∈ s.fragments, g.Within T f
  slices : ∀ x, x ∈ st.insertionSlices ↔ ∃ g ∈ st.newFragments,
    (g.timestamp = T ∨ T ∈ g.deletions) ∧ x = .fromFragment T g
  sliced : st.insertionSlices.Sublist (st.newFragments.map (.fromFragment T))
  patch : st.editsPatch.Describes
    (textOf byte true ((cellsOf s.fragments).take (progress pre st)))
    (textOf byte true (cellsOf st.newFragments))

end

section Steps

variable {d : Dimensions} {byte : Lamport → Nat → UInt8} {s : BufferSnapshot} {T : Lamport}
  {pre : List Fragment} {st : EditState}

section

variable (h : EditInv d byte s T pre st)
include h

theorem EditInv.mem_of_rest (hf : f ∈ st.oldFragments.rest) : f ∈ s.fragments := by
  rw [h.passed]; exact mem_append_right _ hf

theorem EditInv.lt_rest :
    ∀ g ∈ st.newFragments, ∀ f ∈ st.oldFragments.rest, g.id < f.id :=
  (List.pairwise_append.mp h.ids).2.2

section

variable (hctx : EditCtx byte s T) (hf : f ∈ st.oldFragments.rest)
include hctx hf

theorem EditInv.maxId_lt_rest : maxId st.newFragments < f.id :=
  maxId_lt (hctx.good f (h.mem_of_rest hf)).min_lt (fun g hg => h.lt_rest g hg f hf)

theorem EditInv.between_spec :
    maxId st.newFragments < Locator.between (maxId st.newFragments) f.id ∧
      Locator.between (maxId st.newFragments) f.id < f.id ∧
      Locator.Good (Locator.between (maxId st.newFragments) f.id) := by
  have hgood := hctx.good f (h.mem_of_rest hf)
  have hlt := h.maxId_lt_rest hctx hf
  obtain ⟨h1, h2, -⟩ := Locator.between_spec hlt hgood.last
  exact ⟨h1, h2, Locator.good_between (min_le_maxId h.good) hlt (le_of_lt hgood.lt_max) hgood.last⟩

end

theorem EditInv.used_le (hf : st.oldFragments.rest = f :: rest) :
    st.fragmentStart - st.oldFragments.start.1 ≤ f.cells.length := by
  by_cases hlt : st.oldFragments.start.1 < st.fragmentStart
  · obtain ⟨f', rest', hf', -, hle⟩ := h.trim hlt
    obtain ⟨rfl, -⟩ := List.cons.inj (hf.symm.trans hf')
    rw [Fragment.length_cells]; omega
  · omega

theorem EditInv.drop_progress (hf : st.oldFragments.rest = f :: rest) :
    (cellsOf s.fragments).drop (progress pre st) =
      f.cells.drop (st.fragmentStart - st.oldFragments.start.1) ++ cellsOf rest := by
  have hle := h.used_le hf
  rw [h.passed, hf, cellsOf_append, cellsOf_cons, progress, ← drop_drop, drop_left' rfl,
    drop_append_of_le_length hle]

end

/-- A piece of the current fragment, starting where the last one ended: as it was, or
deleted by the edit. -/
structure PieceOf (T : Lamport) (st : EditState) (f g : Fragment) : Prop where
  timestamp : g.timestamp = f.timestamp
  offset : g.insertionOffset = f.insertionOffset + (st.fragmentStart - st.oldFragments.start.1)
  maxUndos : g.maxUndos = f.maxUndos
  len_pos : 0 < g.len
  len_le : st.fragmentStart - st.oldFragments.start.1 + g.len ≤ f.len
  fate : (g.visible = f.visible ∧ g.deletions = f.deletions) ∨
    (g.visible = false ∧ g.deletions = f.deletions ++ [T])

/-- What writing a piece does to everything but the cursor. -/
structure Emits (T : Lamport) (oldStart : Nat) (st st' : EditState) (f g : Fragment) : Prop where
  fragments : st'.newFragments = st.newFragments ++ [g]
  ropes : st'.newRopes = st.newRopes.pushFragment g f.visible
  insertions : st'.newInsertions = st.newInsertions ++ [.new g]
  slices : st'.insertionSlices =
    if g.deletions = f.deletions then st.insertionSlices
    else st.insertionSlices ++ [.fromFragment T g]
  patch : st'.editsPatch =
    if f.visible && !g.visible then
      st.editsPatch.push ⟨⟨oldStart, oldStart + g.len⟩,
        ⟨visibleLen st.newFragments, visibleLen st.newFragments⟩⟩
    else st.editsPatch

theorem PieceOf.fate_cells (hp : PieceOf T st f g) : (g.deletions = f.deletions → g.cells =
      (f.cells.drop (st.fragmentStart - st.oldFragments.start.1)).take g.len) ∧
    (g.deletions ≠ f.deletions → g.cells =
      ((f.cells.drop (st.fragmentStart - st.oldFragments.start.1)).take g.len).map
        (Cell.delete T)) := by
  rcases hp.fate with ⟨hv, hd⟩ | ⟨hv, hd⟩
  · exact ⟨fun _ => cells_piece hp.timestamp hv hd hp.maxUndos hp.offset hp.len_le,
      fun hne => absurd hd hne⟩
  · refine ⟨fun h => absurd (hd.symm.trans h) (by simp), fun _ => ?_⟩
    exact cells_piece_delete hp.timestamp hv hd hp.maxUndos hp.offset hp.len_le

section

variable (h : EditInv d byte s T pre st)
include h

theorem EditInv.emit_content (hf : st.oldFragments.rest = f :: rest)
    (hp : PieceOf T st f g) (he : Emits T oldStart st st' f g)
    (ho : f.visible = true →
      oldStart = (textOf byte true ((cellsOf s.fragments).take (progress pre st))).length) :
    RopeInv byte st'.newRopes (cellsOf st'.newFragments)
        ((cellsOf s.fragments).drop (progress pre st + g.len)) ∧
      st'.editsPatch.Describes
        (textOf byte true ((cellsOf s.fragments).take (progress pre st + g.len)))
        (textOf byte true (cellsOf st'.newFragments)) := by
  have hdrop := h.drop_progress hf
  have hlen : ((f.cells.drop (st.fragmentStart - st.oldFragments.start.1)).take g.len).length =
      g.len := by
    have := hp.len_le
    rw [length_take, length_drop, Fragment.length_cells]; omega
  -- the old cells of the piece, and those after it
  have hsplit : (cellsOf s.fragments).drop (progress pre st) =
      (f.cells.drop (st.fragmentStart - st.oldFragments.start.1)).take g.len ++
        (cellsOf s.fragments).drop (progress pre st + g.len) := by
    rw [← drop_drop, hdrop]
    have hle : g.len ≤ (f.cells.drop (st.fragmentStart - st.oldFragments.start.1)).length := by
      have := hp.len_le
      rw [length_drop, Fragment.length_cells]; omega
    rw [drop_append_of_le_length hle, ← append_assoc, take_append_drop]
  have htake : (cellsOf s.fragments).take (progress pre st + g.len) =
      (cellsOf s.fragments).take (progress pre st) ++
        (f.cells.drop (st.fragmentStart - st.oldFragments.start.1)).take g.len := by
    rw [take_add, hsplit, take_left' hlen]
  have hold : ∀ c ∈ (f.cells.drop (st.fragmentStart - st.oldFragments.start.1)).take g.len,
      c.visible = f.visible := fun c hc =>
    (cells_uniform (mem_of_mem_drop (mem_of_mem_take hc))).2.1
  have hnew : ∀ c ∈ g.cells, c.visible = g.visible := fun c hc => (cells_uniform hc).2.1
  have hbytes : bytesOf byte g.cells = bytesOf byte
      ((f.cells.drop (st.fragmentStart - st.oldFragments.start.1)).take g.len) := by
    by_cases hd : g.deletions = f.deletions
    · rw [hp.fate_cells.1 hd]
    · rw [hp.fate_cells.2 hd, bytesOf_delete]
  rw [he.fragments, he.ropes, he.patch, cellsOf_append, cellsOf_cons, cellsOf_nil, append_nil]
  constructor
  · have hr := h.ropes
    rw [hsplit] at hr
    have := hr.push hold hnew hbytes
    rwa [hlen] at this
  · rw [htake, textOf_append, textOf_append, textOf_uniform byte hold, textOf_uniform byte hnew]
    cases hfv : f.visible with
    | true =>
      cases hgv : g.visible with
      | true =>
        -- visible text that stays visible
        rw [hbytes]
        exact Patch.describes_copy h.patch _
      | false =>
        -- visible text that goes
        have := Patch.describes_push h.patch (bytesOf byte
          ((f.cells.drop (st.fragmentStart - st.oldFragments.start.1)).take g.len)) []
        simp only [Patch.editAt, length_bytesOf, hlen, length_nil, add_zero,
          length_textOf_visible, ← ho hfv] at this
        simpa using this
    | false =>
      have hgv : g.visible = false := by
        rcases hp.fate with ⟨hv, -⟩ | ⟨hv, -⟩
        · rw [hv, hfv]
        · exact hv
      simpa [hgv] using h.patch

section

variable (hctx : EditCtx byte s T) (hf : st.oldFragments.rest = f :: rest) (hp : PieceOf T st f g)
  (he : Emits T oldStart st st' f g)
include hctx hf hp he

/-- What writing a piece does to the indices, wherever the cursor goes. -/
theorem EditInv.emit_index (hgood : Locator.Good g.id) :
    (∀ g ∈ st'.newFragments, Locator.Good g.id) ∧ (∀ g ∈ st'.newFragments, 0 < g.len) ∧
      st'.newInsertions.Sublist (st'.newFragments.map .new) ∧
      (∀ g ∈ st'.newFragments,
        .new g ∈ st'.newInsertions ∨ ∃ f ∈ s.fragments, InsertionFragment.new f = .new g) ∧
      (∀ f', Touched pre st f' ∨ f' = f → ∃ g ∈ st'.newFragments, g.timestamp = f'.timestamp ∧
        g.insertionOffset = f'.insertionOffset ∧ (.new g ∈ st'.newInsertions ∨ g.id = f'.id)) ∧
      (∀ g ∈ st'.newFragments, g.Inserted T ∨ ∃ f ∈ s.fragments, g.Within T f) ∧
      (∀ x, x ∈ st'.insertionSlices ↔ ∃ g ∈ st'.newFragments,
        (g.timestamp = T ∨ T ∈ g.deletions) ∧ x = .fromFragment T g) ∧
      st'.insertionSlices.Sublist (st'.newFragments.map (.fromFragment T)) := by
  have hfs : f ∈ s.fragments := h.mem_of_rest (by rw [hf]; simp)
  obtain ⟨hfT, hfd⟩ := hctx.fresh f hfs
  rw [he.fragments, he.insertions]
  refine ⟨?_, ?_, ?_, ?_, ?_, ?_, ?_, ?_⟩
  · intro x hx
    rcases List.mem_append.mp hx with hx | hx
    · exact h.good x hx
    · rw [List.mem_singleton.mp hx]; exact hgood
  · intro x hx
    rcases List.mem_append.mp hx with hx | hx
    · exact h.len_pos x hx
    · rw [List.mem_singleton.mp hx]; exact hp.len_pos
  · rw [map_append]
    exact h.filed.append (Sublist.refl _)
  · intro x hx
    rcases List.mem_append.mp hx with hx | hx
    · exact (h.kept x hx).imp (mem_append_left _) id
    · rw [List.mem_singleton.mp hx]; exact .inl (by simp)
  · intro f' hf'
    by_cases ht : Touched pre st f'
    · obtain ⟨x, hx, h1, h2, h3⟩ := h.refiled f' ht
      exact ⟨x, mem_append_left _ hx, h1, h2, h3.imp (mem_append_left _) id⟩
    · -- the first piece of the current fragment is filed where the fragment was
      have hff : f' = f := hf'.resolve_left ht
      subst hff
      have hzero : st.fragmentStart - st.oldFragments.start.1 = 0 := by
        by_contra hne
        exact ht (.inr ⟨by rw [hf]; rfl, by omega⟩)
      refine ⟨g, by simp, hp.timestamp, ?_, .inl (by simp)⟩
      rw [hp.offset, hzero, add_zero]
  · intro x hx
    rcases List.mem_append.mp hx with hx | hx
    · exact h.within x hx
    · rw [List.mem_singleton.mp hx]
      refine .inr ⟨f, hfs, hp.timestamp, ?_, ?_, hp.maxUndos, hp.fate⟩
      · rw [hp.offset]; omega
      · have := hp.len_le; rw [hp.offset]; omega
  · intro x
    have hslices : x ∈ st'.insertionSlices ↔
        x ∈ st.insertionSlices ∨ (g.deletions ≠ f.deletions ∧ x = .fromFragment T g) := by
      rw [he.slices]
      split <;> simp [*]
    rw [hslices, h.slices]
    have hgT : T ∈ g.deletions ↔ g.deletions ≠ f.deletions := by
      rcases hp.fate with ⟨-, hd⟩ | ⟨-, hd⟩
      · rw [hd]; exact ⟨fun hm => absurd hm hfd, fun hne => absurd rfl hne⟩
      · rw [hd]; simp
    constructor
    · rintro (⟨y, hy, h1, h2⟩ | ⟨h1, h2⟩)
      · exact ⟨y, mem_append_left _ hy, h1, h2⟩
      · exact ⟨g, by simp, .inr (hgT.mpr h1), h2⟩
    · rintro ⟨y, hy, h1, h2⟩
      rcases List.mem_append.mp hy with hy | hy
      · exact .inl ⟨y, hy, h1, h2⟩
      · rw [List.mem_singleton.mp hy] at h1 h2
        refine .inr ⟨?_, h2⟩
        rcases h1 with h1 | h1
        · exact absurd (hp.timestamp.symm.trans h1) hfT
        · exact hgT.mp h1
  · rw [he.slices, map_append]
    split
    · exact h.sliced.trans (sublist_append_left ..)
    · exact h.sliced.append (Sublist.refl _)

theorem EditInv.emit_stay (ho : f.visible = true →
      oldStart = (textOf byte true ((cellsOf s.fragments).take (progress pre st))).length)
    (hid : g.id = Locator.between (maxId st.newFragments) f.id) (hpos : d.pos f = f.len)
    (hc : st'.oldFragments = st.oldFragments)
    (hfs : st'.fragmentStart = st.fragmentStart + g.len) :
    EditInv d byte s T pre st' ∧ progress pre st' = progress pre st + g.len := by
  obtain ⟨hb1, hb2, hb3⟩ := h.between_spec hctx (f := f) (by rw [hf]; simp)
  rw [← hid] at hb1 hb2 hb3
  obtain ⟨i1, i2, i3, i4, i5, i6, i7, i8⟩ := h.emit_index hctx hf hp he hb3
  obtain ⟨c1, c2⟩ := h.emit_content hf hp he ho
  have hle := h.le_start
  have hlen := hp.len_le
  have hprog : progress pre st' = progress pre st + g.len := by
    simp only [progress, hc, hfs]; omega
  refine ⟨⟨by rw [hc]; exact h.passed, by rw [hc]; exact h.start, by rw [hc, hfs]; omega, ?_, ?_,
    i1, i2, by rw [hprog]; exact c1, i3, i4, ?_, i6, i7, i8, by rw [hprog]; exact c2⟩, hprog⟩
  · intro _
    rw [hc, hfs]
    exact ⟨f, rest, hf, hpos, by omega⟩
  · rw [he.fragments, hc]
    refine h.ids.insert hb1 (fun x hx => ?_)
    rw [hf] at hx
    rcases List.mem_cons.mp hx with rfl | hx
    · exact hb2
    · have hids := (List.pairwise_append.mp h.ids).2.1
      rw [hf] at hids
      exact lt_trans hb2 ((List.pairwise_cons.mp hids).1 x hx)
  · intro f' ht
    refine i5 f' ?_
    rcases ht with ht | ⟨ht, -⟩
    · exact .inl (.inl ht)
    · rw [hc, hf] at ht
      exact .inr (Option.some.inj ht).symm

/-- Write the rest of the current fragment under its own id, and go on to the next. -/
theorem EditInv.emit_last (ho : f.visible = true →
      oldStart = (textOf byte true ((cellsOf s.fragments).take (progress pre st))).length)
    (hid : g.id = f.id)
    (hall : st.fragmentStart - st.oldFragments.start.1 + g.len = f.len)
    (hc : st'.oldFragments = st.oldFragments.next d)
    (hfs : st'.fragmentStart = st'.oldFragments.start.1) :
    EditInv d byte s T (pre ++ [f]) st' ∧ progress (pre ++ [f]) st' = progress pre st + g.len := by
  have hgood : Locator.Good g.id := by
    rw [hid]; exact hctx.good f (h.mem_of_rest (by rw [hf]; simp))
  obtain ⟨i1, i2, i3, i4, i5, i6, i7, i8⟩ := h.emit_index hctx hf hp he hgood
  obtain ⟨c1, c2⟩ := h.emit_content hf hp he ho
  have hnext : st.oldFragments.next d =
      ⟨(st.oldFragments.start.1 + d.pos f, st.oldFragments.start.2 + d.aux f), rest⟩ := by
    simp [Cursor.next, hf]
  have hprog : progress (pre ++ [f]) st' = progress pre st + g.len := by
    simp only [progress, hfs, Nat.sub_self, cellsOf_append, cellsOf_cons, cellsOf_nil,
      length_append, Fragment.length_cells, length_nil]
    omega
  refine ⟨⟨?_, ?_, by rw [hfs], ?_, ?_, i1, i2, by rw [hprog]; exact c1, i3, i4, ?_, i6, i7, i8,
    by rw [hprog]; exact c2⟩, hprog⟩
  · rw [hc, hnext, h.passed, hf]; simp
  · rw [hc, hnext, h.start]; simp
  · rw [hfs]; intro hlt; exact absurd hlt (lt_irrefl _)
  · rw [he.fragments, hc, hnext]
    have hids := h.ids
    rw [hf] at hids
    obtain ⟨h1, h2, h3⟩ := List.pairwise_append.mp hids
    refine List.pairwise_append.mpr ⟨List.pairwise_append.mpr ⟨h1, by simp, ?_⟩,
      (List.pairwise_cons.mp h2).2, ?_⟩
    · intro a ha b hb
      rw [List.mem_singleton.mp hb, hid]
      exact h3 a ha f (by simp)
    · intro a ha b hb
      rcases List.mem_append.mp ha with ha | ha
      · exact h3 a ha b (mem_cons_of_mem _ hb)
      · rw [List.mem_singleton.mp ha, hid]
        exact (List.pairwise_cons.mp h2).1 b hb
  · intro f' ht
    refine i5 f' ?_
    rcases ht with ht | ⟨-, ht⟩
    · rcases List.mem_append.mp ht with ht | ht
      · exact .inl (.inl ht)
      · exact .inr (List.mem_singleton.mp ht)
    · rw [hfs] at ht; exact absurd ht (lt_irrefl _)

end

theorem EditInv.pass (hctx : EditCtx byte s T)
    (hf : st.oldFragments.rest = f :: rest) (hpos : d.pos f = f.len)
    (hall : st.fragmentStart = st.oldFragments.start.1 + f.len) :
    EditInv d byte s T (pre ++ [f]) { st with oldFragments := st.oldFragments.next d } ∧
      progress (pre ++ [f]) { st with oldFragments := st.oldFragments.next d } =
        progress pre st := by
  have hnext : st.oldFragments.next d =
      ⟨(st.oldFragments.start.1 + d.pos f, st.oldFragments.start.2 + d.aux f), rest⟩ := by
    simp [Cursor.next, hf]
  have hprog : progress (pre ++ [f]) { st with oldFragments := st.oldFragments.next d } =
      progress pre st := by
    simp only [progress, hnext, cellsOf_append, cellsOf_cons, cellsOf_nil, length_append,
      Fragment.length_cells, length_nil, hall, hpos]
    omega
  have hids := h.ids
  rw [hf] at hids
  refine ⟨⟨?_, ?_, ?_, ?_, ?_, h.good, h.len_pos, by rw [hprog]; exact h.ropes, h.filed, h.kept, ?_,
    h.within, h.slices, h.sliced, by rw [hprog]; exact h.patch⟩, hprog⟩
  · rw [hnext, h.passed, hf]; simp
  · rw [hnext, h.start]; simp
  · rw [hnext]; dsimp only; omega
  · rw [hnext]; dsimp only; intro hlt; omega
  · rw [hnext]
    exact List.Pairwise.sublist (Sublist.append_left (sublist_cons_self ..) _) hids
  · intro f' ht
    refine h.refiled f' ?_
    rcases ht with ht | ⟨-, ht⟩
    · rcases List.mem_append.mp ht with ht | ht
      · exact .inl ht
      · rw [List.mem_singleton.mp ht]
        have := hctx.len_pos f (h.mem_of_rest (by rw [hf]; simp))
        exact .inr ⟨by rw [hf]; rfl, by omega⟩
    · rw [hnext] at ht; dsimp only at ht; omega

theorem EditInv.drop_progress_append (hf : st.oldFragments.rest = fs ++ rest)
    (hz : st.fragmentStart = st.oldFragments.start.1) :
    (cellsOf s.fragments).drop (progress pre st) = cellsOf fs ++ cellsOf rest := by
  rw [h.passed, hf, progress, hz, Nat.sub_self, add_zero, cellsOf_append, drop_left' rfl, cellsOf_append]

theorem EditInv.keep (hctx : EditCtx byte s T) {fragmentStart : Nat}
    (hf : st.oldFragments.rest = fs ++ rest) (hz : st.fragmentStart = st.oldFragments.start.1)
    (hfs : fragmentStart = st.oldFragments.start.1 + (fs.map d.pos).sum) :
    let st' : EditState :=
      { st with
        newRopes := st.newRopes.append fs
        newFragments := st.newFragments ++ fs
        oldFragments := ⟨(st.oldFragments.start.1 + (fs.map d.pos).sum,
          st.oldFragments.start.2 + (fs.map d.aux).sum), rest⟩
        fragmentStart := fragmentStart }
    EditInv d byte s T (pre ++ fs) st' ∧
      progress (pre ++ fs) st' = progress pre st + (cellsOf fs).length := by
  intro st'
  have hprog : progress (pre ++ fs) st' = progress pre st + (cellsOf fs).length := by
    simp only [progress, st', cellsOf_append, length_append, hz, hfs]
    omega
  have hdrop := h.drop_progress_append hf hz
  have hmem : ∀ f ∈ fs, f ∈ s.fragments := fun f hfm => h.mem_of_rest (by rw [hf]; simp [hfm])
  have hnone : ∀ f ∈ fs, ¬ (f.timestamp = T ∨ T ∈ f.deletions) := fun f hfm => by
    obtain ⟨h1, h2⟩ := hctx.fresh f (hmem f hfm)
    exact fun hor => hor.elim h1 h2
  have hids := h.ids
  rw [hf] at hids
  refine ⟨⟨?_, ?_, ?_, ?_, ?_, ?_, ?_, ?_, ?_, ?_, ?_, ?_, ?_, ?_, ?_⟩, hprog⟩
  · rw [h.passed, hf]; simp [st']
  · simp [st', h.start]
  · simp only [st', hfs]; omega
  · simp only [st', hfs]; intro hlt; omega
  · simpa [st', IdsSorted] using hids
  · intro g hg
    rcases List.mem_append.mp hg with hg | hg
    · exact h.good g hg
    · exact hctx.good g (hmem g hg)
  · intro g hg
    rcases List.mem_append.mp hg with hg | hg
    · exact h.len_pos g hg
    · exact hctx.len_pos g (hmem g hg)
  · rw [hprog]
    have hr := h.ropes
    have hsplit : (cellsOf s.fragments).drop (progress pre st) = cellsOf fs ++
        (cellsOf s.fragments).drop (progress pre st + (cellsOf fs).length) := by
      rw [← drop_drop, hdrop, drop_left' rfl]
    rw [hsplit] at hr
    simpa [st'] using hr.append
  · simp only [st', map_append]
    exact h.filed.trans (sublist_append_left ..)
  · intro g hg
    rcases List.mem_append.mp hg with hg | hg
    · exact h.kept g hg
    · exact .inr ⟨g, hmem g hg, rfl⟩
  · intro f ht
    rcases ht with ht | ⟨-, ht⟩
    · rcases List.mem_append.mp ht with ht | ht
      · obtain ⟨g, hg, h1⟩ := h.refiled f (.inl ht)
        exact ⟨g, mem_append_left _ hg, h1⟩
      · exact ⟨f, mem_append_right _ ht, rfl, rfl, .inr rfl⟩
    · simp only [st', hfs] at ht; omega
  · intro g hg
    rcases List.mem_append.mp hg with hg | hg
    · exact h.within g hg
    · exact .inr ⟨g, hmem g hg, rfl, le_refl _, le_refl _, rfl, .inl ⟨rfl, rfl⟩⟩
  · intro x
    rw [h.slices]
    constructor
    · rintro ⟨g, hg, h1⟩; exact ⟨g, mem_append_left _ hg, h1⟩
    · rintro ⟨g, hg, h1, h2⟩
      rcases List.mem_append.mp hg with hg | hg
      · exact ⟨g, hg, h1, h2⟩
      · exact absurd h1 (hnone g hg)
  · simp only [st', map_append]
    exact h.sliced.trans (sublist_append_left ..)
  · rw [hprog, take_add, hdrop, take_left' rfl]
    simp only [st', cellsOf_append, textOf_append]
    exact Patch.describes_copy h.patch _

end

/-! ## New text -/

/-- Fresh fragments for `len` bytes of an insertion from `off` on, in the gap between two
locators. -/
structure NewFragments (T : Lamport) (off len : Nat) (lo hi : Locator) (fs : List Fragment) :
    Prop where
  ids : IdsSorted fs
  above : ∀ f ∈ fs, lo < f.id
  below : ∀ f ∈ fs, f.id < hi
  good : ∀ f ∈ fs, Locator.Good f.id
  len_pos : ∀ f ∈ fs, 0 < f.len
  inserted : ∀ f ∈ fs, f.Inserted T
  cells : cellsOf fs = (List.range' off len).map (Cell.inserted T)

theorem NewFragments.nil {T : Lamport} {off : Nat} {lo hi : Locator} : NewFragments T off 0 lo hi [] :=
  ⟨List.Pairwise.nil, by simp, by simp, by simp, by simp, by simp, by simp⟩

theorem NewFragments.cons {T : Lamport} {f : Fragment} {fs : List Fragment} {off n len : Nat}
    {lo hi : Locator} (hfs : NewFragments T (off + n) len f.id hi fs) (hlo : lo < f.id) (hhi : f.id < hi)
    (hgood : Locator.Good f.id) (hpos : 0 < f.len) (hf : f.Inserted T)
    (hcells : f.cells = (List.range' off n).map (Cell.inserted T)) :
    NewFragments T off (n + len) lo hi (f :: fs) where
  ids := List.pairwise_cons.mpr ⟨hfs.above, hfs.ids⟩
  above := List.forall_mem_cons.mpr ⟨hlo, fun g hg => lt_trans hlo (hfs.above g hg)⟩
  below := List.forall_mem_cons.mpr ⟨hhi, hfs.below⟩
  good := List.forall_mem_cons.mpr ⟨hgood, hfs.good⟩
  len_pos := List.forall_mem_cons.mpr ⟨hpos, hfs.len_pos⟩
  inserted := List.forall_mem_cons.mpr ⟨hf, hfs.inserted⟩
  cells := by rw [cellsOf_cons, hfs.cells, hcells, ← map_append, range'_append_1]

theorem exists_chunk (cfg : Profile) {text : List Char} (htext : text ≠ []) : ∃ chunk rest,
    (if byteLen text ≤ cfg.maxInsertionLen then (text, [])
      else splitFloor cfg.maxInsertionLen text) = (chunk, rest) ∧ chunk ≠ [] ∧ chunk ++ rest = text := by
  split
  · exact ⟨text, [], rfl, htext, by simp⟩
  · exact ⟨_, _, rfl, splitFloor_ne_nil cfg.four_le_maxInsertionLen htext, splitFloor_append ..⟩

theorem pushChunks_spec (cfg : Profile) (T : Lamport) {nextId : Locator}
    (hhi : nextId ≤ Locator.max) (hlast : nextId.getLast? ≠ some 0) :
    ∀ (fuel : Nat) (text : List Char) (st : EditState), text.length ≤ fuel →
      Locator.min ≤ maxId st.newFragments → maxId st.newFragments < nextId →
      ∃ fs, NewFragments T st.insertionOffset (byteLen text) (maxId st.newFragments) nextId fs ∧
        EditState.pushChunks cfg T nextId fuel text st =
          { st with
            newFragments := st.newFragments ++ fs
            newInsertions := st.newInsertions ++ fs.map .new
            insertionSlices := st.insertionSlices ++ fs.map (.fromFragment T)
            insertionOffset := st.insertionOffset + byteLen text }
  | 0, text, st, hfuel, _, _ => by
      have : text = [] := List.length_eq_zero_iff.mp (by omega)
      subst this
      exact ⟨[], .nil, by simp [EditState.pushChunks]⟩
  | fuel + 1, text, st, hfuel, hmin, hlt => by
      by_cases htext : text = []
      · subst htext
        exact ⟨[], .nil, by simp [EditState.pushChunks]⟩
      obtain ⟨chunk, rest, hchunk, hne, happ⟩ := exists_chunk cfg htext
      obtain ⟨hb1, hb2, -⟩ := Locator.between_spec hlt hlast
      have hgood := Locator.good_between hmin hlt hhi hlast
      let f : Fragment :=
        { id := Locator.between (maxId st.newFragments) nextId
          timestamp := T
          insertionOffset := st.insertionOffset
          len := byteLen chunk
          visible := true
          deletions := []
          maxUndos := Global.new }
      let st₁ : EditState :=
        { st with
          newFragments := st.newFragments ++ [f]
          newInsertions := st.newInsertions ++ [.new f]
          insertionSlices := st.insertionSlices ++ [.fromFragment T f]
          insertionOffset := st.insertionOffset + byteLen chunk }
      have hmax : maxId st₁.newFragments = f.id := by simp [maxId, st₁]
      have hlen : rest.length ≤ fuel := by
        have h1 := congrArg List.length happ
        have h2 := List.length_pos_iff.mpr hne
        rw [length_append] at h1
        omega
      obtain ⟨fs, hfs, heq⟩ := pushChunks_spec cfg T hhi hlast fuel rest st₁ hlen
        (by rw [hmax]; exact le_of_lt hgood.min_lt) (by rw [hmax]; exact hb2)
      rw [hmax] at hfs
      have hbytes : byteLen text = byteLen chunk + byteLen rest := by
        rw [← happ, byteLen_append]
      refine ⟨f :: fs, hbytes ▸ hfs.cons hb1 hb2 hgood (byteLen_pos hne) ⟨rfl, rfl, rfl, rfl⟩ rfl, ?_⟩
      rw [EditState.pushChunks, if_neg htext]
      simp only [hchunk]
      rw [if_neg hne]
      refine heq.trans ?_
      simp only [st₁, hbytes, append_assoc, map_cons, cons_append,
        nil_append, add_assoc]

def oldVisibleLen (byte : Lamport → Nat → UInt8) (s : BufferSnapshot) (pre : List Fragment)
    (st : EditState) : Nat :=
  (textOf byte true ((cellsOf s.fragments).take (progress pre st))).length

theorem EditInv.insert (h : EditInv d byte s T pre st) (hctx : EditCtx byte s T) (cfg : Profile)
    {text : List Char} (ho : oldStart = oldVisibleLen byte s pre st)
    (hbyte : (List.range' st.insertionOffset (byteLen text)).map (byte T) = utf8 text) :
    EditInv d byte s T pre (st.insertText cfg T oldStart text) ∧
      progress pre (st.insertText cfg T oldStart text) = progress pre st ∧
      (st.insertText cfg T oldStart text).oldFragments = st.oldFragments ∧
      (st.insertText cfg T oldStart text).fragmentStart = st.fragmentStart ∧
      (st.insertText cfg T oldStart text).insertionOffset = st.insertionOffset + byteLen text ∧
      cellsOf (st.insertText cfg T oldStart text).newFragments = cellsOf st.newFragments ++
        (List.range' st.insertionOffset (byteLen text)).map (Cell.inserted T) := by
  by_cases htext : text = []
  · subst htext
    have : st.insertText cfg T oldStart [] = st := by simp [EditState.insertText]
    rw [this]
    exact ⟨h, rfl, rfl, rfl, by simp, by simp⟩
  -- the locator the new text has to stay below
  obtain ⟨hhi, hlast, hlt, hbelow⟩ : st.nextFragmentId ≤ Locator.max ∧
      st.nextFragmentId.getLast? ≠ some 0 ∧ maxId st.newFragments < st.nextFragmentId ∧
      ∀ f ∈ st.oldFragments.rest, st.nextFragmentId ≤ f.id := by
    unfold EditState.nextFragmentId Cursor.item
    cases hrest : st.oldFragments.rest with
    | nil =>
      refine ⟨le_refl _, Locator.max_last, ?_, by simp⟩
      exact maxId_lt Locator.min_lt_max (fun g hg => (h.good g hg).lt_max)
    | cons f rest =>
      have hf : f ∈ st.oldFragments.rest := by rw [hrest]; simp
      have hgood := hctx.good f (h.mem_of_rest hf)
      refine ⟨le_of_lt hgood.lt_max, hgood.last, h.maxId_lt_rest hctx hf, ?_⟩
      intro g hg
      rcases List.mem_cons.mp hg with rfl | hg
      · exact le_refl _
      · have hids := (List.pairwise_append.mp h.ids).2.1
        rw [hrest] at hids
        exact le_of_lt ((List.pairwise_cons.mp hids).1 g hg)
  obtain ⟨fs, hfs, heq⟩ := pushChunks_spec cfg T hhi hlast text.length text st (le_refl _)
    (min_le_maxId h.good) hlt
  have hst : st.insertText cfg T oldStart text =
      { st with
        newRopes := st.newRopes.pushStr text
        newFragments := st.newFragments ++ fs
        newInsertions := st.newInsertions ++ fs.map .new
        insertionSlices := st.insertionSlices ++ fs.map (.fromFragment T)
        insertionOffset := st.insertionOffset + byteLen text
        editsPatch := st.editsPatch.push ⟨⟨oldStart, oldStart⟩,
          ⟨visibleLen st.newFragments, visibleLen st.newFragments + byteLen text⟩⟩ } := by
    simp only [EditState.insertText, if_neg htext, EditState.pushFragmentsForInsertion, heq]
  rw [hst]
  have hvis : ∀ c ∈ cellsOf fs, c.visible = true := by
    rw [hfs.cells]
    intro c hc
    obtain ⟨o, -, rfl⟩ := List.mem_map.mp hc
    rfl
  have hbytes : bytesOf byte (cellsOf fs) = utf8 text := by
    rw [hfs.cells, bytesOf, map_map, ← hbyte]
    rfl
  obtain ⟨hs1, hs2, hs3⟩ := List.pairwise_append.mp h.ids
  refine ⟨⟨h.passed, h.start, h.le_start, h.trim, ?_, ?_, ?_, ?_, ?_, ?_, ?_, ?_, ?_, ?_, ?_⟩, rfl, rfl,
    rfl, rfl, by rw [← hfs.cells, cellsOf_append]⟩
  · refine List.pairwise_append.mpr ⟨List.pairwise_append.mpr ⟨hs1, hfs.ids, ?_⟩, hs2, ?_⟩
    · intro a ha b hb
      exact lt_of_le_of_lt (IdsSorted.le_maxId hs1 a ha) (hfs.above b hb)
    · intro a ha b hb
      rcases List.mem_append.mp ha with ha | ha
      · exact hs3 a ha b hb
      · exact lt_of_lt_of_le (hfs.below a ha) (hbelow b hb)
  · intro g hg
    exact (List.mem_append.mp hg).elim (h.good g) (hfs.good g)
  · intro g hg
    exact (List.mem_append.mp hg).elim (h.len_pos g) (hfs.len_pos g)
  · dsimp only
    rw [cellsOf_append]
    exact h.ropes.pushStr hvis hbytes
  · dsimp only
    rw [map_append]
    exact h.filed.append (Sublist.refl _)
  · intro g hg
    rcases List.mem_append.mp hg with hg | hg
    · exact (h.kept g hg).imp (mem_append_left _) id
    · exact .inl (mem_append_right _ (mem_map_of_mem hg))
  · intro f ht
    obtain ⟨g, hg, h1, h2, h3⟩ := h.refiled f ht
    exact ⟨g, mem_append_left _ hg, h1, h2, h3.imp (mem_append_left _) id⟩
  · intro g hg
    rcases List.mem_append.mp hg with hg | hg
    · exact h.within g hg
    · exact .inl (hfs.inserted g hg)
  · intro x
    rw [mem_append, h.slices, mem_map]
    constructor
    · rintro (⟨g, hg, h1⟩ | ⟨g, hg, rfl⟩)
      · exact ⟨g, mem_append_left _ hg, h1⟩
      · exact ⟨g, mem_append_right _ hg, .inl (hfs.inserted g hg).timestamp, rfl⟩
    · rintro ⟨g, hg, h1, h2⟩
      rcases List.mem_append.mp hg with hg | hg
      · exact .inl ⟨g, hg, h1, h2⟩
      · exact .inr ⟨g, hg, h2.symm⟩
  · dsimp only
    rw [map_append]
    exact h.sliced.append (Sublist.refl _)
  · dsimp only
    rw [cellsOf_append, textOf_append, textOf_uniform byte hvis, if_pos rfl, hbytes]
    have := Patch.describes_push h.patch [] (utf8 text)
    simp only [Patch.editAt, length_nil, add_zero, length_utf8, length_textOf_visible,
      append_nil] at this
    rw [ho]
    exact this

end Steps

end SpkEditor
