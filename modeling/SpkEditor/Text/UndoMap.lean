import SpkEditor.Text.Operation

/-!
# The undo map

Every undo operation counts, for each edit it touches, how often that edit has been
undone or redone so far. The map keeps all those counts, keyed by edit and undo; an
edit is undone when the largest of its counts is odd. `wasUndone` asks the same
question of an earlier version: only the undos it had observed count.
-/

namespace SpkEditor

structure UndoMapEntry where
  editId : Lamport
  undoId : Lamport
  undoCount : Nat

/-- `UndoMapKey`, ordered by edit and then by undo. -/
def UndoMapEntry.key (e : UndoMapEntry) : Lamport ×ₗ Lamport := toLex (e.editId, e.undoId)

/-- Entries in key order. -/
abbrev UndoMap := List UndoMapEntry

namespace UndoMap

def entriesOf (undo : UndoOperation) : List UndoMapEntry :=
  undo.counts.map fun c => ⟨c.1, undo.timestamp, c.2⟩

/-- `UndoMap::insert`. -/
def insert (map : UndoMap) (undo : UndoOperation) : UndoMap :=
  KeyedList.upsert UndoMapEntry.key map (entriesOf undo)

/-- The entries a cursor visits: seek to the first entry of the edit, go on while the
entries are of that edit. -/
def entriesFor (map : UndoMap) (editId : Lamport) : List UndoMapEntry :=
  (map.dropWhile fun e => e.key < toLex (editId, Lamport.MIN)).takeWhile fun e =>
    e.editId = editId

/-- The largest count, zero if there is none. -/
def maxCount (entries : List UndoMapEntry) : Nat :=
  entries.foldl (fun count e => max count e.undoCount) 0

/-- `UndoMap::undo_count`. -/
def undoCount (map : UndoMap) (editId : Lamport) : Nat := maxCount (map.entriesFor editId)

/-- `UndoMap::is_undone`. -/
def isUndone (map : UndoMap) (editId : Lamport) : Bool := map.undoCount editId % 2 == 1

/-- `UndoMap::was_undone`. -/
def wasUndone (map : UndoMap) (editId : Lamport) (version : Global) : Bool :=
  maxCount ((map.entriesFor editId).filter fun e => version.observed e.undoId) % 2 == 1

/-! ## Reading the map -/

theorem mem_entriesFor {map : UndoMap} (h : KeyedList.Sorted UndoMapEntry.key map)
    {editId : Lamport} {e : UndoMapEntry} :
    e ∈ map.entriesFor editId ↔ e ∈ map ∧ e.editId = editId :=
  KeyedList.mem_group h fun x => Lamport.MIN_le x.undoId

theorem foldl_max (entries : List UndoMapEntry) (n : Nat) :
    entries.foldl (fun count e => max count e.undoCount) n = max n (maxCount entries) := by
  unfold maxCount
  induction entries generalizing n with
  | nil => simp
  | cons a entries ih =>
    simp only [List.foldl_cons, Nat.zero_max]
    rw [ih, ih a.undoCount]
    omega

theorem maxCount_cons (a : UndoMapEntry) (entries : List UndoMapEntry) :
    maxCount (a :: entries) = max a.undoCount (maxCount entries) := by
  have := foldl_max entries a.undoCount
  simpa [maxCount] using this

theorem maxCount_le_iff {entries : List UndoMapEntry} {n : Nat} :
    maxCount entries ≤ n ↔ ∀ e ∈ entries, e.undoCount ≤ n := by
  induction entries with
  | nil => simp [maxCount]
  | cons a entries ih => rw [maxCount_cons]; simp [ih]

theorem maxCount_congr {l m : List UndoMapEntry} (h : ∀ e, e ∈ l ↔ e ∈ m) :
    maxCount l = maxCount m := by
  refine Nat.le_antisymm ?_ ?_
  · exact maxCount_le_iff.mpr (fun e he => maxCount_le_iff.mp (Nat.le_refl _) e ((h e).mp he))
  · exact maxCount_le_iff.mpr (fun e he => maxCount_le_iff.mp (Nat.le_refl _) e ((h e).mpr he))

section

variable {map : UndoMap} (h : KeyedList.Sorted UndoMapEntry.key map) {editId : Lamport}
include h

theorem isUndone_of_none (hn : ∀ e ∈ map, e.editId ≠ editId) : map.isUndone editId = false := by
  have : map.entriesFor editId = [] := by
    rw [List.eq_nil_iff_forall_not_mem]
    intro e he
    obtain ⟨h1, h2⟩ := (mem_entriesFor h).mp he
    exact hn e h1 h2
  simp [isUndone, undoCount, this, maxCount]

theorem wasUndone_eq_isUndone {version : Global}
    (hv : ∀ e ∈ map, e.editId = editId → version.observed e.undoId = true) :
    map.wasUndone editId version = map.isUndone editId := by
  have : (map.entriesFor editId).filter (fun e => version.observed e.undoId) =
      map.entriesFor editId := by
    rw [List.filter_eq_self]
    intro e he
    obtain ⟨h1, h2⟩ := (mem_entriesFor h).mp he
    exact hv e h1 h2
  rw [wasUndone, this, isUndone, undoCount]

end

end UndoMap

end SpkEditor
