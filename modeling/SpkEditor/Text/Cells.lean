import SpkEditor.Text.Fragment

/-!
# Cells

What a list of fragments says, byte by byte. A cell is one inserted byte and its
fate; `cellsOf` unrolls fragments into cells. However a replica has cut an insertion
into fragments, the cells are the same, so everything the replicas agree on is said
about cells.

The two texts of a snapshot are the visible and the other cells read off in order.
`RopeInv` is that statement in the middle of a rebuild, with the old texts partly
used and the new ones partly written.
-/

namespace SpkEditor

open List

/-- The identity of an inserted byte: its insertion, and where in it. -/
abbrev CharId := Lamport × Nat

/-- One inserted byte. -/
structure Cell where
  timestamp : Lamport
  offset : Nat
  visible : Bool
  deletions : List Lamport
  maxUndos : Global

namespace Cell

def id (c : Cell) : CharId := (c.timestamp, c.offset)

/-- A cell deleted by an edit. -/
def delete (timestamp : Lamport) (c : Cell) : Cell :=
  { c with visible := false, deletions := c.deletions ++ [timestamp] }

def inserted (timestamp : Lamport) (offset : Nat) : Cell :=
  ⟨timestamp, offset, true, [], Global.new⟩

def isVisible (c : Cell) (undos : UndoMap) : Bool :=
  !undos.isUndone c.timestamp && c.deletions.all fun d => undos.isUndone d

def wasVisible (c : Cell) (version : Global) (undos : UndoMap) : Bool :=
  (version.observed c.timestamp && !undos.wasUndone c.timestamp version) &&
    c.deletions.all fun d => !version.observed d || undos.wasUndone d version

section

variable (t : Lamport) (c : Cell)

@[simp] theorem delete_id : (c.delete t).id = c.id := rfl
@[simp] theorem delete_timestamp : (c.delete t).timestamp = c.timestamp :=
  rfl
@[simp] theorem delete_visible : (c.delete t).visible = false := rfl
@[simp] theorem delete_deletions :
    (c.delete t).deletions = c.deletions ++ [t] := rfl
@[simp] theorem delete_maxUndos : (c.delete t).maxUndos = c.maxUndos := rfl

end

end Cell

def Fragment.cellAt (f : Fragment) (offset : Nat) : Cell :=
  ⟨f.timestamp, offset, f.visible, f.deletions, f.maxUndos⟩

def Fragment.cells (f : Fragment) : List Cell :=
  (List.range' f.insertionOffset f.len).map f.cellAt

def cellsOf (fragments : List Fragment) : List Cell := fragments.flatMap Fragment.cells

/-! ## Unrolling -/

@[simp] theorem Fragment.length_cells (f : Fragment) : f.cells.length = f.len := by
  simp [cells]

@[simp] theorem cellsOf_nil : cellsOf [] = [] := rfl

@[simp] theorem cellsOf_cons (f : Fragment) (fs : List Fragment) :
    cellsOf (f :: fs) = f.cells ++ cellsOf fs := rfl

@[simp] theorem cellsOf_append (fs gs : List Fragment) :
    cellsOf (fs ++ gs) = cellsOf fs ++ cellsOf gs := flatMap_append

theorem mem_cells {f : Fragment} {c : Cell} : c ∈ f.cells ↔
    f.insertionOffset ≤ c.offset ∧ c.offset < f.insertionOffset + f.len ∧
      c = f.cellAt c.offset := by
  simp only [Fragment.cells, List.mem_map, mem_range'_1]
  constructor
  · rintro ⟨o, ⟨h1, h2⟩, rfl⟩; exact ⟨h1, h2, rfl⟩
  · rintro ⟨h1, h2, h3⟩; exact ⟨c.offset, ⟨h1, h2⟩, h3.symm⟩

theorem cells_uniform {f : Fragment} {c : Cell} (h : c ∈ f.cells) :
    c.timestamp = f.timestamp ∧ c.visible = f.visible ∧ c.deletions = f.deletions ∧
      c.maxUndos = f.maxUndos := by
  obtain ⟨-, -, h⟩ := mem_cells.mp h
  rw [h]
  exact ⟨rfl, rfl, rfl, rfl⟩

theorem mem_cellsOf {fs : List Fragment} {c : Cell} :
    c ∈ cellsOf fs ↔ ∃ f ∈ fs, c ∈ f.cells := by
  simp [cellsOf]

theorem cells_piece {f g : Fragment} {a : Nat} (ht : g.timestamp = f.timestamp)
    (hv : g.visible = f.visible) (hd : g.deletions = f.deletions) (hm : g.maxUndos = f.maxUndos)
    (ho : g.insertionOffset = f.insertionOffset + a) (hl : a + g.len ≤ f.len) :
    g.cells = (f.cells.drop a).take g.len := by
  have hat : g.cellAt = f.cellAt := by
    funext o; simp [Fragment.cellAt, ht, hv, hd, hm]
  unfold Fragment.cells
  rw [← map_drop, ← map_take, drop_range', take_range'_of_length_ge (by omega),
    hat, ho, Nat.mul_one]

theorem cells_piece_delete {f g : Fragment} {a : Nat} {t : Lamport}
    (ht : g.timestamp = f.timestamp) (hv : g.visible = false) (hd : g.deletions = f.deletions ++ [t])
    (hm : g.maxUndos = f.maxUndos) (ho : g.insertionOffset = f.insertionOffset + a)
    (hl : a + g.len ≤ f.len) :
    g.cells = ((f.cells.drop a).take g.len).map (Cell.delete t) := by
  have hat : g.cellAt = Cell.delete t ∘ f.cellAt := by
    funext o; simp [Fragment.cellAt, Cell.delete, ht, hv, hd, hm]
  unfold Fragment.cells
  rw [← map_drop, ← map_take, drop_range', take_range'_of_length_ge (by omega),
    hat, ho, Nat.mul_one, List.map_map]

section Texts

variable (byte : Lamport → Nat → UInt8)

/-- The bytes of the cells that are visible, or of those that are not. -/
def textOf (visible : Bool) (cells : List Cell) : List UInt8 :=
  (cells.filter fun c => c.visible == visible).map fun c => byte c.timestamp c.offset

@[simp] theorem textOf_nil (v : Bool) : textOf byte v [] = [] := rfl

@[simp] theorem textOf_append (v : Bool) (l m : List Cell) :
    textOf byte v (l ++ m) = textOf byte v l ++ textOf byte v m := by
  simp [textOf]

def bytesOf (cells : List Cell) : List UInt8 := cells.map fun c => byte c.timestamp c.offset

@[simp] theorem length_bytesOf (l : List Cell) : (bytesOf byte l).length = l.length := by
  simp [bytesOf]

theorem textOf_uniform {v w : Bool} {l : List Cell} (h : ∀ c ∈ l, c.visible = w) :
    textOf byte v l = if w = v then bytesOf byte l else [] := by
  unfold textOf bytesOf
  split
  · rename_i hwv
    rw [List.filter_eq_self.mpr (fun c hc => by simp [h c hc, hwv])]
  · rename_i hwv
    rw [List.filter_eq_nil_iff.mpr (fun c hc => by simp [h c hc, hwv])]
    rfl

theorem bytesOf_delete (t : Lamport) (l : List Cell) :
    bytesOf byte (l.map (Cell.delete t)) = bytesOf byte l := by
  simp [bytesOf, Cell.delete]

theorem length_textOf_cells (v : Bool) (f : Fragment) :
    (textOf byte v f.cells).length = if f.visible = v then f.len else 0 := by
  rw [textOf_uniform byte (fun c hc => (cells_uniform hc).2.1)]
  split <;> simp

theorem length_textOf_cellsOf (v : Bool) (fs : List Fragment) :
    (textOf byte v (cellsOf fs)).length = (fs.map fun f => if f.visible = v then f.len else 0).sum := by
  induction fs with
  | nil => rfl
  | cons f fs ih =>
    rw [cellsOf_cons, textOf_append, length_append, length_textOf_cells, ih]
    simp

theorem length_textOf_visible (fs : List Fragment) :
    (textOf byte true (cellsOf fs)).length = visibleLen fs :=
  length_textOf_cellsOf byte true fs

theorem length_textOf_deleted (fs : List Fragment) :
    (textOf byte false (cellsOf fs)).length = deletedLen fs := by
  rw [length_textOf_cellsOf, deletedLen]
  congr 1
  refine map_congr_left (fun f _ => ?_)
  cases hv : f.visible <;> simp [Fragment.deletedLen, hv]

/-- **Texts and cells in step**: the new texts are those of the cells written, the old
ones those of the cells left. -/
structure RopeInv (r : RopeBuilder) (written left : List Cell) : Prop where
  newVisible : r.newVisible = textOf byte true written
  newDeleted : r.newDeleted = textOf byte false written
  oldVisible : r.oldVisible = textOf byte true left
  oldDeleted : r.oldDeleted = textOf byte false left

variable {byte}

section

variable {r : RopeBuilder}

/-- Move a stretch of cells of one visibility, changing it or not. -/
theorem RopeInv.push {written old new left : List Cell} {was is : Bool}
    (h : RopeInv byte r written (old ++ left)) (hold : ∀ c ∈ old, c.visible = was)
    (hnew : ∀ c ∈ new, c.visible = is) (hb : bytesOf byte new = bytesOf byte old) :
    RopeInv byte (r.push old.length was is) (written ++ new) left := by
  have h1 := h.oldVisible
  have h2 := h.oldDeleted
  rw [textOf_append, textOf_uniform byte hold] at h1 h2
  cases was with
  | true =>
    simp only [if_true, Bool.true_eq_false, if_false, nil_append] at h1 h2
    have htake : r.oldVisible.take old.length = bytesOf byte old := by
      rw [h1, take_left' (by simp)]
    have hdrop : r.oldVisible.drop old.length = textOf byte true left := by
      rw [h1, drop_left' (by simp)]
    cases is <;> constructor <;> simp only [RopeBuilder.push, if_true, htake, hdrop, h2, h.newVisible,
      h.newDeleted, textOf_append, textOf_uniform byte hnew, hb, Bool.true_eq_false, Bool.false_eq_true,
      if_false, append_nil]
  | false =>
    simp only [if_true, Bool.false_eq_true, if_false, nil_append] at h1 h2
    have htake : r.oldDeleted.take old.length = bytesOf byte old := by
      rw [h2, take_left' (by simp)]
    have hdrop : r.oldDeleted.drop old.length = textOf byte false left := by
      rw [h2, drop_left' (by simp)]
    cases is <;> constructor <;> simp only [RopeBuilder.push, if_true, htake, hdrop, h1, h.newVisible,
      h.newDeleted, textOf_append, textOf_uniform byte hnew, hb, Bool.true_eq_false, Bool.false_eq_true,
      if_false, append_nil]

theorem RopeInv.append {written left : List Cell} {fs : List Fragment}
    (h : RopeInv byte r written (cellsOf fs ++ left)) :
    RopeInv byte (r.append fs) (written ++ cellsOf fs) left := by
  have h1 := h.oldVisible
  have h2 := h.oldDeleted
  rw [textOf_append] at h1 h2
  have hv := length_textOf_visible byte fs
  have hd := length_textOf_deleted byte fs
  constructor
  · simp only [RopeBuilder.append, RopeBuilder.push, if_true, Bool.false_eq_true, if_false]
    rw [h1, take_left' hv, h.newVisible, textOf_append]
  · simp only [RopeBuilder.append, RopeBuilder.push, if_true, Bool.false_eq_true, if_false]
    rw [h2, take_left' hd, h.newDeleted, textOf_append]
  · simp only [RopeBuilder.append, RopeBuilder.push, if_true, Bool.false_eq_true, if_false]
    rw [h1, drop_left' hv]
  · simp only [RopeBuilder.append, RopeBuilder.push, if_true, Bool.false_eq_true, if_false]
    rw [h2, drop_left' hd]

theorem RopeInv.pushStr {written new left : List Cell} {text : List Char}
    (h : RopeInv byte r written left) (hnew : ∀ c ∈ new, c.visible = true)
    (hb : bytesOf byte new = utf8 text) :
    RopeInv byte (r.pushStr text) (written ++ new) left := by
  constructor
  · simp only [RopeBuilder.pushStr, h.newVisible, textOf_append, textOf_uniform byte hnew, if_true,
      hb]
  · simp only [RopeBuilder.pushStr, h.newDeleted, textOf_append, textOf_uniform byte hnew,
      Bool.true_eq_false, if_false, append_nil]
  · exact h.oldVisible
  · exact h.oldDeleted

theorem RopeInv.finish {written : List Cell} (h : RopeInv byte r written []) :
    r.finish = (textOf byte true written, textOf byte false written) := by
  simp [RopeBuilder.finish, h.newVisible, h.newDeleted, h.oldVisible, h.oldDeleted]

end

end Texts

end SpkEditor
