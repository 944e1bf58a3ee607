import SpkEditor.Text.Wf

/-!
# The shared document

What a group of replicas edits together: every byte ever inserted, in one order that
no replica ever sees as a whole; which edits deleted which bytes; and every undo. A
replica holds the part of it that its version has observed. `Doc.apply` is how the
document grows when an operation is made, and `Doc.wasVisible` what a version saw.
-/

namespace SpkEditor

open List

/-- The edits of an operation as identities: each range with the bytes put there. -/
def idBlocks (T : Lamport) : Nat → List Range → List (List Char) → List (Splice.Edit CharId)
  | off, r :: rs, t :: ts =>
    ⟨r.start, r.stop, (List.range' off (byteLen t)).map fun o => (T, o)⟩ ::
      idBlocks T (off + byteLen t) rs ts
  | _, _, _ => []

namespace EditOperation

def blocks (op : EditOperation) : List (Splice.Edit CharId) :=
  idBlocks op.timestamp 0 op.ranges op.newText

/-- The author of the edit had this byte. -/
def seen (op : EditOperation) (x : CharId) : Bool := op.version.observed x.1

/-- A byte that an insertion passes over. -/
def above (op : EditOperation) (x : CharId) : Bool := op.timestamp < x.1

end EditOperation

/-- The document of a set of operations. -/
structure Doc where
  order : List CharId
  deletions : List (CharId × Lamport)
  undos : List UndoMapEntry

namespace Doc

def base (baseText : List Char) : Doc :=
  ⟨(List.range' 0 (byteLen (normalize baseText))).map fun o => (baseId, o), [], []⟩

/-- The bytes a version has observed. -/
def view (doc : Doc) (v : Global) : List CharId := doc.order.filter fun x => v.observed x.1

/-- Whether an edit was undone, as far as a version knew. -/
def undone (doc : Doc) (v : Global) (e : Lamport) : Bool :=
  UndoMap.maxCount (doc.undos.filter fun x => x.editId = e && v.observed x.undoId) % 2 == 1

/-- Whether a byte was visible at a version. -/
def wasVisible (doc : Doc) (v : Global) (x : CharId) : Bool :=
  (v.observed x.1 && !doc.undone v x.1) &&
    doc.deletions.all fun d => !decide (d.1 = x) || (!v.observed d.2 || doc.undone v d.2)

/-- A byte inside one of the ranges of an edit. -/
def inRange (doc : Doc) (op : EditOperation) (x : CharId) : Bool :=
  op.seen x && Splice.inRanges op.blocks ((doc.view op.version).idxOf x)

/-- The bytes an edit deletes: those in its ranges that its author could see. -/
def hits (doc : Doc) (op : EditOperation) : List CharId :=
  doc.order.filter fun x => doc.inRange op x && doc.wasVisible op.version x

/-- The document after one more operation. -/
def apply (doc : Doc) : Operation → Doc
  | .edit op =>
    { doc with
      order := Splice.splice op.seen op.above id 0 op.blocks doc.order
      deletions := doc.deletions ++ (doc.hits op).map fun x => (x, op.timestamp) }
  | .undo op => { doc with undos := doc.undos ++ UndoMap.entriesOf op }

/-- The document of a base text and the operations made on it, in the order they were
made. -/
def of (baseText : List Char) (sent : List Operation) : Doc := sent.foldl apply (base baseText)

end Doc

theorem blocksOf_map (T : Lamport) : ∀ (off : Nat) (rs : List Range) (ts : List (List Char)),
    (blocksOf T off rs ts).map (fun e => (⟨e.start, e.stop, e.text.map Cell.id⟩ : Splice.Edit _)) =
      idBlocks T off rs ts
  | _, [], _ => by simp [blocksOf, idBlocks]
  | _, _ :: _, [] => by simp [blocksOf, idBlocks]
  | off, r :: rs, t :: ts => by
      simp only [blocksOf, idBlocks, map_cons, List.map_map, blocksOf_map T _ rs ts]
      rfl

theorem idBlocks_text (T : Lamport) : ∀ (off : Nat) (rs : List Range) (ts : List (List Char)),
    ∀ e ∈ idBlocks T off rs ts, ∀ x ∈ e.text, x.1 = T
  | _, [], _ => by simp [idBlocks]
  | _, _ :: _, [] => by simp [idBlocks]
  | off, r :: rs, t :: ts => by
      intro e he x hx
      rcases List.mem_cons.mp he with rfl | he
      · obtain ⟨o, -, rfl⟩ := List.mem_map.mp hx
        rfl
      · exact idBlocks_text T _ rs ts e he x hx

theorem idBlocks_flatMap (T : Lamport) : ∀ (off : Nat) (rs : List Range) (ts : List (List Char)),
    rs.length = ts.length → (idBlocks T off rs ts).flatMap Splice.Edit.text =
      (List.range' off (byteLen ts.flatten)).map fun o => (T, o)
  | _, [], [], _ => by simp [idBlocks]
  | _, [], _ :: _, h => absurd h (by simp)
  | _, _ :: _, [], h => absurd h (by simp)
  | off, r :: rs, t :: ts, h => by
      rw [idBlocks, flatMap_cons, idBlocks_flatMap T _ rs ts (by simpa using h),
        flatten_cons, byteLen_append, ← range'_append_1, map_append]

theorem valid_idBlocks (T : Lamport) :
    ∀ (rs : List Range) (ts : List (List Char)) (off pos limit : Nat), rs.length = ts.length →
      ValidRanges pos rs limit → Splice.Valid pos (idBlocks T off rs ts) limit
  | [], [], _, _, _, _, h => h
  | [], _ :: _, _, _, _, h, _ => absurd h (by simp)
  | _ :: _, [], _, _, _, h, _ => absurd h (by simp)
  | r :: rs, t :: ts, off, pos, limit, hl, h =>
    ⟨h.1, h.2.1, valid_idBlocks T rs ts _ _ _ (by simpa using hl) h.2.2⟩

/-! ## What later operations leave alone -/

namespace Doc

variable {doc : Doc} {op : Operation} {v : Global}

section

variable (h : v.observed op.timestamp = false)
include h

/-- **A version does not notice an operation it has not observed.** -/
theorem view_apply : (doc.apply op).view v = doc.view v := by
  cases op with
  | edit op =>
    refine Splice.filter_splice _ _ _ (fun e he x hx => ?_)
    rw [idBlocks_text _ _ _ _ e he x hx]
    exact h
  | undo op => rfl

theorem undone_apply : (doc.apply op).undone v = doc.undone v := by
  funext e
  cases op with
  | edit op => rfl
  | undo op =>
    have : (UndoMap.entriesOf op).filter
        (fun x => decide (x.editId = e) && v.observed x.undoId) = [] := by
      rw [filter_eq_nil_iff]
      intro x hx
      rw [(mem_entriesOf.mp hx).1, show v.observed op.timestamp = false from h]
      simp
    simp only [undone, apply, filter_append, this, append_nil]

theorem wasVisible_apply : (doc.apply op).wasVisible v = doc.wasVisible v := by
  funext x
  unfold wasVisible
  rw [undone_apply h]
  cases op with
  | edit op =>
    have hnew : ((doc.hits op).map fun y => (y, op.timestamp)).all
        (fun d => !decide (d.1 = x) || (!v.observed d.2 || doc.undone v d.2)) = true := by
      rw [List.all_eq_true]
      intro d hd
      obtain ⟨y, -, rfl⟩ := List.mem_map.mp hd
      rw [show v.observed op.timestamp = false from h]
      simp
    simp only [apply, all_append, hnew, Bool.and_true]
  | undo op => rfl

end

theorem mem_order_apply {x : CharId} : x ∈ (doc.apply op).order ↔
      x ∈ doc.order ∨ ∃ e, op = .edit e ∧ x ∈ e.blocks.flatMap Splice.Edit.text := by
  cases op with
  | edit op =>
    simp only [apply, Splice.mem_splice, Operation.edit.injEq, exists_eq_left']
    exact or_comm
  | undo op => simp [apply]

end Doc

end SpkEditor
