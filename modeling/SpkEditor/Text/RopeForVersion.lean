import SpkEditor.Text.EditsInRange

/-!
# The text of an earlier version

`rope_for_version` goes over the fragments that something has touched since the version, with one cursor in each of
the two texts, and copies what lies between them. `Reads` is where it stands: both cursors are not past the next
fragment, and what it has still to copy of the visible text before that fragment belongs to the old text as it is.
-/

namespace SpkEditor

open List

namespace TextCursor

variable {c : TextCursor} {stop : Nat}

section

variable (hle : c.offset ≤ stop) (hfit : stop ≤ c.text.length)
include hle hfit

theorem seekForward_eq : c.seekForward stop = some { c with offset := stop } := by
  rw [seekForward, if_pos ⟨hle, hfit⟩]

theorem slice_eq :
    c.slice stop = some ((c.text.take stop).drop c.offset, { c with offset := stop }) := by
  rw [slice, seekForward_eq hle hfit]
  rfl

theorem upTo_eq :
    c.upTo stop = some ((c.text.take stop).drop c.offset, { c with offset := stop }) := by
  unfold upTo
  split
  · exact slice_eq hle hfit
  · have heq : stop = c.offset := by omega
    subst heq
    rw [drop_eq_nil_of_le (by simp)]

end

end TextCursor

section

variable {byte : Lamport → Nat → UInt8} {since : Global} {undos : UndoMap} {start : Nat × Nat} {f : Fragment}
  {fs : List Fragment} {visible deleted : TextCursor}

/-- **Where the walk stands** between the fragments it has passed and the others. -/
structure Reads (byte : Lamport → Nat → UInt8) (start : Nat × Nat) (fs : List Fragment)
    (visible deleted : TextCursor) : Prop where
  visibleRest : visible.text.drop start.1 = textOf byte true (cellsOf fs)
  deletedRest : deleted.text.drop start.2 = textOf byte false (cellsOf fs)
  visibleFits : start.1 ≤ visible.text.length
  deletedFits : start.2 ≤ deleted.text.length
  visible_le : visible.offset ≤ start.1
  deleted_le : deleted.offset ≤ start.2

theorem Reads.length (h : Reads byte start fs visible deleted) :
    visible.text.length = start.1 + visibleLen fs ∧ deleted.text.length = start.2 + deletedLen fs := by
  have h1 := congrArg List.length h.visibleRest
  have h2 := congrArg List.length h.deletedRest
  have h3 := h.visibleFits
  have h4 := h.deletedFits
  rw [length_drop, length_textOf_visible] at h1
  rw [length_drop, length_textOf_deleted] at h2
  omega

section

variable (h : Reads byte start (f :: fs) visible deleted)
include h

theorem Reads.next :
    (visible.text.take (start.1 + f.visibleLen)).drop start.1 = textOf byte true f.cells ∧
      (deleted.text.take (start.2 + f.deletedLen)).drop start.2 = textOf byte false f.cells := by
  have hv := length_textOf_visible byte [f]
  have hd := length_textOf_deleted byte [f]
  simp only [cellsOf_cons, cellsOf_nil, append_nil, visibleLen, deletedLen, map_cons, map_nil,
    sum_cons, sum_nil, add_zero] at hv hd
  rw [drop_take, drop_take, h.visibleRest, h.deletedRest, cellsOf_cons, textOf_append, textOf_append,
    Nat.add_sub_cancel_left, Nat.add_sub_cancel_left, take_left' hv, take_left' hd]
  exact ⟨rfl, rfl⟩

theorem Reads.pass {v d : Nat} (hv : v ≤ start.1 + f.visibleLen) (hd : d ≤ start.2 + f.deletedLen) :
    Reads byte (f.behind start) fs { visible with offset := v } { deleted with offset := d } := by
  have hlen := h.length
  have hvl := length_textOf_visible byte [f]
  have hdl := length_textOf_deleted byte [f]
  simp only [cellsOf_cons, cellsOf_nil, append_nil, visibleLen, deletedLen, map_cons, map_nil,
    sum_cons, sum_nil, add_zero] at hvl hdl hlen
  refine ⟨?_, ?_, ?_, ?_, hv, hd⟩
  · show visible.text.drop (start.1 + f.visibleLen) = _
    rw [← drop_drop, h.visibleRest, cellsOf_cons, textOf_append, drop_left' hvl]
  · show deleted.text.drop (start.2 + f.deletedLen) = _
    rw [← drop_drop, h.deletedRest, cellsOf_cons, textOf_append, drop_left' hdl]
  · show start.1 + f.visibleLen ≤ visible.text.length
    omega
  · show start.2 + f.deletedLen ≤ deleted.text.length
    omega

end

theorem textOf_cells (byte : Lamport → Nat → UInt8) (v : Bool) (f : Fragment) :
    textOf byte v f.cells = if f.visible = v then bytesOf byte f.cells else [] :=
  textOf_uniform byte (fun _ hc => (cells_uniform hc).2.1)

theorem oldTextOf_cells (byte : Lamport → Nat → UInt8) (v : Global) (undos : UndoMap) (f : Fragment) :
    oldTextOf byte v undos f.cells = if f.wasVisible v undos then bytesOf byte f.cells else [] :=
  oldTextOf_uniform byte (fun _ hc => Fragment.wasVisible_cell hc _ _)

/-- **One stop**: the version's text of the fragment is copied, and the visible text there has been passed. -/
theorem readStop_spec (h : Reads byte start (f :: fs) visible deleted) (hat : visible.offset = start.1) :
    ∃ deleted', readStop since undos ⟨start, f⟩ visible deleted = some (oldTextOf byte since undos f.cells,
        { visible with offset := (f.behind start).1 }, deleted') ∧
      Reads byte (f.behind start) fs { visible with offset := (f.behind start).1 } deleted' := by
  obtain ⟨hnext, hnext'⟩ := h.next
  have hlen := h.length
  have hvl : visibleLen (f :: fs) = f.visibleLen + visibleLen fs := rfl
  have hdl : deletedLen (f :: fs) = f.deletedLen + deletedLen fs := rfl
  have hdeleted := h.deleted_le
  have hpass := @Reads.pass byte start f fs visible deleted h (f.behind start).1
  rw [textOf_cells] at hnext hnext'
  rw [oldTextOf_cells, readStop]
  simp only
  cases hw : f.wasVisible since undos with
  | true =>
    cases hv : f.visible with
    | true =>
      rw [hv, if_pos rfl, ← hat] at hnext
      refine ⟨deleted, ?_, hpass (le_refl _) (Nat.le_add_right_of_le hdeleted)⟩
      rw [if_pos rfl, if_pos rfl, if_pos rfl, TextCursor.slice_eq (by omega) (by omega), ← hat, hnext, hat]
      rfl
    | false =>
      rw [hv, if_pos rfl] at hnext'
      refine ⟨{ deleted with offset := start.2 + f.deletedLen }, ?_, hpass (le_refl _) (le_refl _)⟩
      rw [if_pos rfl, if_neg Bool.false_ne_true, if_pos rfl, TextCursor.seekForward_eq hdeleted (by omega),
        Option.bind_some, TextCursor.slice_eq (by simp only; omega) (by simp only; omega)]
      simp only [Option.map_some, hnext']
      rw [Fragment.behind, Fragment.visibleLen, hv, if_neg Bool.false_ne_true, add_zero, ← hat]
  | false =>
    refine ⟨deleted, ?_, hpass (le_refl _) (Nat.le_add_right_of_le hdeleted)⟩
    rw [if_neg Bool.false_ne_true, if_neg Bool.false_ne_true]
    cases hv : f.visible with
    | true =>
      rw [if_pos rfl, TextCursor.seekForward_eq (by omega) (by omega)]
      rfl
    | false =>
      rw [if_neg Bool.false_ne_true, Fragment.behind, Fragment.visibleLen, hv, if_neg Bool.false_ne_true,
        add_zero, ← hat]

/-- **The turns of `rope_for_version`** copy what lies before the next fragment, and then what the version could see
of the fragments. -/
theorem ropeForVersionFrom_spec : ∀ {fs : List Fragment} {start : Nat × Nat} {rope : List UInt8}
    {visible deleted : TextCursor}, Reads byte start fs visible deleted →
    (∀ f ∈ fs, f.touchedSince since = false → f.wasVisible since undos = f.visible) →
      ((ropeForVersionFrom since undos (touchedFrom since start fs) rope visible deleted).bind fun r =>
          (r.2.upTo (start.1 + visibleLen fs)).map fun t => r.1 ++ t.1) =
        some (rope ++ ((visible.text.take start.1).drop visible.offset ++ oldTextOf byte since undos (cellsOf fs))) := by
  intro fs
  induction fs with
  | nil =>
    intro start rope visible deleted h _
    rw [touchedFrom, ropeForVersionFrom, Option.bind_some]
    rw [show start.1 + visibleLen [] = start.1 from rfl, TextCursor.upTo_eq h.visible_le h.visibleFits]
    simp [oldTextOf, bytesOf]
  | cons f fs ih =>
    intro start rope visible deleted h hsame
    have hrest : ∀ g ∈ fs, g.touchedSince since = false → g.wasVisible since undos = g.visible := fun g hg =>
      hsame g (mem_cons_of_mem _ hg)
    have htotal : start.1 + visibleLen (f :: fs) = (f.behind start).1 + visibleLen fs := by
      show start.1 + (f.visibleLen + visibleLen fs) = start.1 + f.visibleLen + visibleLen fs
      omega
    rw [htotal, cellsOf_cons, oldTextOf_append, touchedFrom]
    cases ht : f.touchedSince since with
    | false =>
      -- the text of the fragment waits to be copied with what comes before it
      have hpass := h.pass (Nat.le_add_right_of_le h.visible_le) (Nat.le_add_right_of_le h.deleted_le)
      have hgap : (visible.text.take (f.behind start).1).drop visible.offset =
          (visible.text.take start.1).drop visible.offset ++ oldTextOf byte since undos f.cells := by
        have hfit := h.visibleFits
        have hle := h.visible_le
        have hcells : (visible.text.drop start.1).take f.visibleLen = textOf byte true f.cells := by
          rw [← h.next.1, drop_take, Nat.add_sub_cancel_left]
        rw [oldTextOf_cells, hsame f (by simp) ht, ← textOf_cells byte true f, ← hcells, Fragment.behind,
          take_add, drop_append_of_le_length (by simp; omega)]
      have := @ih _ rope _ _ hpass hrest
      rw [hgap, append_assoc] at this
      exact this
    | true =>
      have hmoved : Reads byte start (f :: fs) { visible with offset := start.1 } deleted :=
        ⟨h.visibleRest, h.deletedRest, h.visibleFits, h.deletedFits, le_refl _, h.deleted_le⟩
      obtain ⟨deleted', hread, hstands⟩ := @readStop_spec byte since undos _ _ _ _ _ hmoved rfl
      rw [if_pos rfl, ropeForVersionFrom, TextCursor.upTo_eq h.visible_le h.visibleFits, Option.bind_some, hread,
        Option.bind_some]
      have := @ih _ (rope ++ (visible.text.take start.1).drop visible.offset ++
        oldTextOf byte since undos f.cells) _ _ hstands hrest
      have hcopied : (visible.text.take (f.behind start).1).drop (f.behind start).1 = [] :=
        drop_eq_nil_of_le (by simp)
      refine Eq.trans this ?_
      rw [hcopied, nil_append, append_assoc, append_assoc]

/-- **`rope_for_version`** gives what the version could see. -/
theorem BufferSnapshot.ropeForVersion_spec {s : BufferSnapshot} (hw : Wf byte s) (since : Global) :
    s.ropeForVersion since = some (oldTextOf byte since s.undoMap (cellsOf s.fragments)) := by
  have hreads : Reads byte (0, 0) s.fragments ⟨s.visibleText, 0⟩ ⟨s.deletedText, 0⟩ :=
    ⟨hw.visibleText, hw.deletedText, Nat.zero_le _, Nat.zero_le _, le_refl _, le_refl _⟩
  have := @ropeForVersionFrom_spec byte since _ _ _ [] _ _ hreads
    (fun f hf ht => hw.wasVisible_of_untouched hf ht)
  unfold BufferSnapshot.ropeForVersion
  simpa using this

end

end SpkEditor
