import SpkEditor.Text.Fragment

/-!
# Applying an undo

An undo changes counts in the undo map, and then only the fragments of the edits it
counts can change visibility. `fragmentIdsForEdits` finds those fragments through
the two indices: the slices of the edits first, and then, slice by slice, the
fragments inside them, with one cursor that only moves forward. `applyUndo` walks
through the fragments found, in document order.
-/

namespace SpkEditor

namespace BufferSnapshot

/-- The slices of one edit, as `iter_from` and `take_while` find them. -/
def slicesFor (s : BufferSnapshot) (editId : Lamport) : List InsertionSlice :=
  (s.insertionSlices.dropWhile fun x =>
    x.key < InsertionSlice.key ⟨editId, Lamport.MIN, ⟨0, 0⟩⟩).takeWhile fun x => x.editId = editId

/-- The order slices are visited in: by insertion, then from the left, longest first. -/
def sliceOrder (a b : InsertionSlice) : Prop :=
  a.insertionId < b.insertionId ∨ (a.insertionId = b.insertionId ∧
    (a.range.start < b.range.start ∨
      (a.range.start = b.range.start ∧ b.range.stop ≤ a.range.stop)))

instance : DecidableRel sliceOrder := fun _ _ => inferInstanceAs (Decidable (_ ∨ _))

structure InsertionCursor where
  start : Lamport × Nat
  rest : List InsertionFragment

/-- Pass the insertions filed before a key. -/
def InsertionCursor.seekForward (target : Lamport × Nat) :
    Lamport × Nat → List InsertionFragment → InsertionCursor
  | start, [] => ⟨start, []⟩
  | start, f :: rest =>
    if f.key < toLex target then seekForward target (f.timestamp, f.splitOffset) rest
    else ⟨start, f :: rest⟩

def InsertionCursor.collect (slice : InsertionSlice) :
    Lamport × Nat → List InsertionFragment → List Locator × InsertionCursor
  | start, [] => ([], ⟨start, []⟩)
  | start, f :: rest =>
    if f.timestamp ≠ slice.insertionId ∨ slice.range.stop ≤ f.splitOffset then
      ([], ⟨start, f :: rest⟩)
    else
      let r := collect slice (f.timestamp, f.splitOffset) rest
      (f.fragmentId :: r.1, r.2)

/-- Visit the slices in order. The cursor is sought only when the slice starts past the
last insertion it passed. -/
def visitSlices : List InsertionSlice → InsertionCursor → List Locator
  | [], _ => []
  | slice :: slices, c =>
    let c :=
      if slice.insertionId ≠ c.start.1 ∨ c.start.2 < slice.range.start then
        InsertionCursor.seekForward (slice.insertionId, slice.range.start) c.start c.rest
      else c
    let r := InsertionCursor.collect slice c.start c.rest
    r.1 ++ visitSlices slices r.2

/-- `fragment_ids_for_edits`. -/
def fragmentIdsForEdits (s : BufferSnapshot) (editIds : List Lamport) : List Locator :=
  let slices := (editIds.flatMap s.slicesFor).insertionSort sliceOrder
  let ids := visitSlices slices ⟨(Lamport.MIN, 0), s.insertions⟩
  ids.insertionSort (· ≤ ·)

/-- The local variables of `apply_undo`. The cursor carries the visible length passed. -/
structure UndoState where
  newRopes : RopeBuilder
  newFragments : List Fragment
  edits : Patch
  oldStart : Nat
  rest : List Fragment

namespace UndoState

/-- Reuse the fragments before `id` as they are. -/
def sliceTo (id : Locator) (st : UndoState) : UndoState :=
  let slice := st.rest.takeWhile fun f => f.id < id
  { st with
    newRopes := st.newRopes.append slice
    newFragments := st.newFragments ++ slice
    oldStart := st.oldStart + visibleLen slice
    rest := st.rest.dropWhile fun f => f.id < id }

/-- Recompute the visibility of the fragment under the cursor. -/
def refresh (undoMap : UndoMap) (timestamp : Lamport) (st : UndoState) : UndoState :=
  match st.rest with
  | [] => st
  | f :: rest =>
    let fragment :=
      { f with visible := f.isVisible undoMap, maxUndos := f.maxUndos.observe timestamp }
    let newStart := visibleLen st.newFragments
    let edits :=
      if f.visible && !fragment.visible then
        st.edits.push ⟨⟨st.oldStart, st.oldStart + fragment.len⟩, ⟨newStart, newStart⟩⟩
      else if !f.visible && fragment.visible then
        st.edits.push ⟨⟨st.oldStart, st.oldStart⟩, ⟨newStart, newStart + fragment.len⟩⟩
      else st.edits
    { newRopes := st.newRopes.pushFragment fragment f.visible
      newFragments := st.newFragments ++ [fragment]
      edits := edits
      oldStart := st.oldStart + f.visibleLen
      rest := rest }

/-- One fragment of the undo. -/
def step (undoMap : UndoMap) (timestamp : Lamport) (st : UndoState) (id : Locator) : UndoState :=
  (st.sliceTo id).refresh undoMap timestamp

end UndoState

/-- `apply_undo`: the new snapshot and the patch to publish. -/
def applyUndo (s : BufferSnapshot) (undo : UndoOperation) : BufferSnapshot × Patch :=
  let s := { s with undoMap := s.undoMap.insert undo }
  let st : UndoState := ⟨⟨s.visibleText, s.deletedText, [], []⟩, [], [], 0, s.fragments⟩
  let st := (s.fragmentIdsForEdits (undo.counts.map Prod.fst)).foldl
    (UndoState.step s.undoMap undo.timestamp) st
  let texts := (st.newRopes.append st.rest).finish
  ({ s with
    fragments := st.newFragments ++ st.rest
    visibleText := texts.1
    deletedText := texts.2 }, st.edits)

end BufferSnapshot

end SpkEditor
