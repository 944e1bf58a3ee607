import SpkEditor.Git.PlannedActions
import Mathlib.Data.List.Nodup

/-!
# The rows of the interactive rebase

`git_ui/src/interactive_rebase.rs`: the rows of the todo list, and the editor for a message or a
command that may be open. The editor knows its row by position. Each row has an identity here,
which the source does not have, and the editor remembers that of the row it was opened for.

As long as nothing is moved or removed underneath it, the position is that of its row (`Inv`), so
that what is saved goes there.
-/

namespace SpkEditor.Rebase

open Cut List

structure TodoRow where
  sha : Text
  originalMessage : Text
  action : TodoAction := .pick
  messageOverride : Option Text := none
  shellCommand : Option Text := none
deriving DecidableEq

inductive EditingKind where
  | message
  | shellCmd

structure Row where
  id : Nat
  todo : TodoRow
deriving DecidableEq

structure EditingField where
  rowIndex : Nat
  kind : EditingKind
  /-- What the editor holds. -/
  text : Text
  /-- The row it was opened for. -/
  opened : Option Nat

structure View where
  rows : List Row
  editingField : Option EditingField
  /-- The identity of the next row. -/
  nextId : Nat

def swap (rows : List Row) (i j : Nat) : List Row :=
  match rows[i]?, rows[j]? with
  | some a, some b => (rows.set i b).set j a
  | _, _ => rows

/-- `original_by_sha`: of two rows of one sha, the map holds the later one. -/
def originalBySha (rows : List TodoRow) (sha : Text) : Option TodoRow :=
  (rows.filter (·.sha ≠ [])).reverse.find? (·.sha = sha)

/-- The rows that `apply_planned_actions` makes of the actions, as the loop has put them. -/
def plannedRows (rows : List TodoRow) (ordered : List PlannedAction) : List TodoRow :=
  ordered.filterMap fun action => (originalBySha rows action.sha).map fun row =>
    { row with action := action.action, messageOverride := action.newMessage.filter (trim · ≠ []) }

namespace View

variable (v : View)

def setAction (idx : Nat) (action : TodoAction) : View :=
  { v with rows := v.rows.modify idx fun row => { row with todo := { row.todo with action } } }

def moveUp (idx : Nat) : View :=
  if idx = 0 ∨ v.rows.length ≤ idx then v else { v with rows := swap v.rows idx (idx - 1) }

def moveDown (idx : Nat) : View :=
  if v.rows.length ≤ idx + 1 then v else { v with rows := swap v.rows idx (idx + 1) }

def removeRow (idx : Nat) : View :=
  if v.rows.length ≤ idx then v
  else { v with rows := v.rows.eraseIdx idx, editingField := v.editingField.filter (·.rowIndex ≠ idx) }

def insertExecRow : View :=
  let row : TodoRow := { sha := [], originalMessage := [], action := .exec, shellCommand := some [] }
  { v with rows := v.rows ++ [⟨v.nextId, row⟩], nextId := v.nextId + 1 }

def resetToPick : View :=
  let reset (row : TodoRow) : TodoRow :=
    if row.sha ≠ [] then { row with action := .pick, messageOverride := none, shellCommand := none }
    else row
  { v with rows := v.rows.map fun row => ⟨row.id, reset row.todo⟩ }

/-- It does not return if the loop does not end. -/
def applyPlannedActions (fuel : Nat) (actions : List PlannedAction) : Option View :=
  (reorder fuel (actions, 0)).map fun ordered =>
    let newRows := plannedRows (v.rows.map (·.todo)) ordered
    if newRows = [] then v
    else ⟨newRows.mapIdx fun i row => ⟨v.nextId + i, row⟩, none, v.nextId + newRows.length⟩

/-- An editor for the row at `idx`, with the text `initial` of this row. -/
def openEditor (kind : EditingKind) (initial : TodoRow → Text) (idx : Nat) : View :=
  let row := v.rows[idx]?
  let text := (row.map fun row => initial row.todo).getD []
  { v with editingField := some ⟨idx, kind, text, row.map (·.id)⟩ }

def openMessageEditor : Nat → View :=
  v.openEditor .message fun row => row.messageOverride.getD row.originalMessage

def openShellEditor : Nat → View := v.openEditor .shellCmd fun row => row.shellCommand.getD []

def saveEditingField : View :=
  match v.editingField with
  | none => v
  | some field =>
    { v with
      editingField := none
      rows := v.rows.modify field.rowIndex fun row =>
        match field.kind with
        | .message => ⟨row.id, { row.todo with messageOverride := some field.text }⟩
        | .shellCmd => ⟨row.id, { row.todo with shellCommand := some field.text }⟩ }

def cancelEditingField : View := { v with editingField := none }

end View

inductive RowOp where
  | openMessageEditor (idx : Nat)
  | openShellEditor (idx : Nat)
  /-- Something is typed. -/
  | type (text : Text)
  | save
  | cancel
  | moveUp (idx : Nat)
  | moveDown (idx : Nat)
  | removeRow (idx : Nat)
  | insertExecRow
  | setAction (idx : Nat) (action : TodoAction)
  | resetToPick
  | applyPlannedActions (fuel : Nat) (actions : List PlannedAction)

def View.step (v : View) : RowOp → Option View
  | .openMessageEditor idx => some (v.openMessageEditor idx)
  | .openShellEditor idx => some (v.openShellEditor idx)
  | .type text => some { v with editingField := v.editingField.map ({ · with text }) }
  | .save => some v.saveEditingField
  | .cancel => some v.cancelEditingField
  | .moveUp idx => some (v.moveUp idx)
  | .moveDown idx => some (v.moveDown idx)
  | .removeRow idx => some (v.removeRow idx)
  | .insertExecRow => some v.insertExecRow
  | .setAction idx action => some (v.setAction idx action)
  | .resetToPick => some v.resetToPick
  | .applyPlannedActions fuel actions => v.applyPlannedActions fuel actions

def View.run (v : View) (ops : List RowOp) : Option View := ops.foldlM View.step v

/-! ## What is to hold -/

def View.SavesOwn (v : View) : Prop :=
  ∀ field, v.editingField = some field → ∀ (k : Nat) (row : Row), v.rows[k]? = some row →
    field.opened ≠ some row.id → v.saveEditingField.rows[k]? = some row

/-- While an editor is open for the row at `field.rowIndex`, this row is not moved, no row before it
is removed, and if there is none there, none is inserted there. -/
def RowOp.Careful (v : View) (op : RowOp) : Prop :=
  ∀ field, v.editingField = some field →
    match op with
    | .moveUp idx =>
      0 < idx ∧ idx < v.rows.length → field.rowIndex ≠ idx ∧ field.rowIndex ≠ idx - 1
    | .moveDown idx => idx + 1 < v.rows.length → field.rowIndex ≠ idx ∧ field.rowIndex ≠ idx + 1
    | .removeRow idx => field.rowIndex < v.rows.length → field.rowIndex ≤ idx
    | .insertExecRow => field.rowIndex ≠ v.rows.length
    | _ => True

def CarefulRun : View → List RowOp → Prop
  | _, [] => True
  | v, op :: ops => op.Careful v ∧ ∀ v', v.step op = some v' → CarefulRun v' ops

def View.ids (v : View) : List Nat := v.rows.map (·.id)

/-- The identities are distinct, and the row of the open editor is the one it was opened for. -/
structure View.Inv (v : View) : Prop where
  nodup : v.ids.Nodup
  below : ∀ id ∈ v.ids, id < v.nextId
  own : ∀ field, v.editingField = some field → field.opened = v.ids[field.rowIndex]?

variable {v v' : View}

theorem View.Inv.savesOwn (h : v.Inv) : v.SavesOwn := by
  intro field hfield k row hrow hne
  have hown := h.own field hfield
  have hk : field.rowIndex ≠ k := fun heq => hne <| by
    rw [hown, heq, View.ids, getElem?_map, hrow]
    rfl
  unfold View.saveEditingField
  rw [hfield]
  simp only [getElem?_modify, hrow, hk, if_false]
  rfl

theorem View.Inv.of_ids (h : v.Inv) (hids : v'.ids = v.ids) (hnext : v'.nextId = v.nextId)
    (hfield : ∀ field', v'.editingField = some field' → field'.opened = v.ids[field'.rowIndex]?) :
    v'.Inv :=
  ⟨hids ▸ h.nodup, fun id hid => hnext ▸ h.below id (hids ▸ hid), fun f hf => hids ▸ hfield f hf⟩

theorem map_modify_of_eq {α β : Type} (l : List α) (i : Nat) (f : α → α) (g : α → β)
    (h : ∀ a, g (f a) = g a) : (l.modify i f).map g = l.map g := by
  refine ext_getElem? fun k => ?_
  rw [getElem?_map, getElem?_modify, getElem?_map]
  cases l[k]? with
  | none => rfl
  | some a =>
    by_cases hk : i = k
    · simp [hk, h]
    · simp [hk]

theorem getElem?_swap_ne (rows : List Row) {i j k : Nat} (hi : k ≠ i) (hj : k ≠ j) :
    (swap rows i j)[k]? = rows[k]? := by
  unfold swap
  split
  · rw [getElem?_set_ne hj.symm, getElem?_set_ne hi.symm]
  · rfl

theorem swap_perm (rows : List Row) (i j : Nat) : (swap rows i j).Perm rows := by
  unfold swap
  split
  next a b ha hb =>
    obtain ⟨hi, rfl⟩ := List.getElem?_eq_some_iff.mp ha
    obtain ⟨hj, rfl⟩ := List.getElem?_eq_some_iff.mp hb
    exact set_set_perm hi hj
  · exact Perm.refl _

theorem View.Inv.swap (h : v.Inv) {i j : Nat}
    (hne : ∀ field, v.editingField = some field → field.rowIndex ≠ i ∧ field.rowIndex ≠ j) :
    View.Inv { v with rows := Rebase.swap v.rows i j } := by
  have hperm : (View.ids { v with rows := Rebase.swap v.rows i j }).Perm v.ids :=
    (swap_perm v.rows i j).map _
  refine ⟨hperm.nodup_iff.mpr h.nodup, fun id hid => h.below id (hperm.mem_iff.mp hid),
    fun field hfield => ?_⟩
  obtain ⟨hi, hj⟩ := hne field hfield
  rw [h.own field hfield]
  unfold View.ids
  rw [getElem?_map, getElem?_map, getElem?_swap_ne v.rows hi hj]

theorem View.Inv.openEditor (h : v.Inv) (kind : EditingKind) (initial : TodoRow → Text)
    (idx : Nat) : (v.openEditor kind initial idx).Inv := by
  refine h.of_ids rfl rfl fun field hfield => ?_
  cases hfield
  exact (getElem?_map ..).symm

theorem View.Inv.removeRow (h : v.Inv) {idx : Nat} (hc : (RowOp.removeRow idx).Careful v) :
    (v.removeRow idx).Inv := by
  unfold View.removeRow
  by_cases hidx : v.rows.length ≤ idx
  · rw [if_pos hidx]
    exact h
  · rw [if_neg hidx]
    have hids : View.ids ⟨v.rows.eraseIdx idx, v.editingField.filter (·.rowIndex ≠ idx), v.nextId⟩ =
        v.ids.eraseIdx idx := (eraseIdx_map ..).symm
    refine ⟨hids ▸ h.nodup.sublist (eraseIdx_sublist ..),
      fun id hid => h.below id (mem_of_mem_eraseIdx (hids ▸ hid)), fun field hfield => ?_⟩
    obtain ⟨hfield, hne⟩ := Option.filter_eq_some_iff.mp hfield
    have hne : field.rowIndex ≠ idx := of_decide_eq_true hne
    rw [h.own field hfield]
    rw [hids]
    have hlen : v.ids.length = v.rows.length := length_map _
    by_cases hlt : field.rowIndex < v.rows.length
    · have := hc field hfield hlt
      rw [getElem?_eraseIdx_of_lt (by omega)]
    · rw [getElem?_eq_none (by omega), getElem?_eq_none]
      rw [length_eraseIdx_of_lt (by omega)]
      omega

theorem View.Inv.insertExecRow (h : v.Inv) (hc : RowOp.insertExecRow.Careful v) :
    v.insertExecRow.Inv := by
  have hids : v.insertExecRow.ids = v.ids ++ [v.nextId] := map_append
  refine ⟨?_, fun id hid => ?_, fun field hfield => ?_⟩
  · rw [hids, nodup_append]
    refine ⟨h.nodup, nodup_singleton _, fun a ha b hb => ?_⟩
    rw [mem_singleton.mp hb]
    exact (h.below a ha).ne
  · rcases mem_append.mp (hids ▸ hid) with hid | hid
    · exact Nat.lt_succ_of_lt (h.below id hid)
    · rw [mem_singleton.mp hid]
      exact Nat.lt_succ_self _
  · have hne : field.rowIndex ≠ v.ids.length := by
      rw [View.ids, length_map]
      exact hc field hfield
    rw [h.own field hfield, hids]
    rcases Nat.lt_or_gt_of_ne hne with hlt | hgt
    · rw [getElem?_append_left hlt]
    · rw [getElem?_eq_none hgt.le, getElem?_eq_none (by simpa using Nat.succ_le_of_lt hgt)]

theorem View.Inv.applyPlannedActions (h : v.Inv) {fuel : Nat} {actions : List PlannedAction}
    (hv' : v.applyPlannedActions fuel actions = some v') : v'.Inv := by
  obtain ⟨ordered, -, rfl⟩ := Option.map_eq_some_iff.mp hv'
  dsimp only
  split
  · exact h
  · have hids (rows : List TodoRow) :
        View.ids ⟨rows.mapIdx fun i row => ⟨v.nextId + i, row⟩, none, v.nextId + rows.length⟩ =
          range' v.nextId rows.length := by
      unfold View.ids
      exact ext_getElem (by simp) fun k _ _ => by simp
    refine ⟨hids _ ▸ nodup_range' .., fun id hid => ?_, nofun⟩
    rw [hids, mem_range'_1] at hid
    exact hid.2

theorem View.Inv.step {op : RowOp} (h : v.Inv) (hc : op.Careful v) (hstep : v.step op = some v') :
    v'.Inv := by
  cases op with
  | openMessageEditor idx =>
    cases hstep
    exact h.openEditor ..
  | openShellEditor idx =>
    cases hstep
    exact h.openEditor ..
  | type text =>
    cases hstep
    refine h.of_ids rfl rfl fun field' hfield => ?_
    obtain ⟨field, hopen, rfl⟩ := Option.map_eq_some_iff.mp hfield
    exact h.own field hopen
  | save =>
    cases hstep
    unfold View.saveEditingField
    split
    · exact h
    next field hfield =>
      refine h.of_ids (map_modify_of_eq _ _ _ _ fun row => ?_) rfl nofun
      cases field.kind <;> rfl
  | cancel =>
    cases hstep
    exact h.of_ids rfl rfl nofun
  | moveUp idx =>
    cases hstep
    unfold View.moveUp
    split
    · exact h
    next hin =>
      exact h.swap fun field hfield => hc field hfield (by omega)
  | moveDown idx =>
    cases hstep
    unfold View.moveDown
    split
    · exact h
    next hin =>
      exact h.swap fun field hfield => hc field hfield (by omega)
  | removeRow idx =>
    cases hstep
    exact h.removeRow hc
  | insertExecRow =>
    cases hstep
    exact h.insertExecRow hc
  | setAction idx action =>
    cases hstep
    exact h.of_ids (map_modify_of_eq _ _ _ _ fun _ => rfl) rfl h.own
  | resetToPick =>
    cases hstep
    exact h.of_ids (map_map ..) rfl h.own
  | applyPlannedActions fuel actions => exact h.applyPlannedActions hstep

theorem View.Inv.run {ops : List RowOp} (h : v.Inv) (hc : CarefulRun v ops)
    (hrun : v.run ops = some v') : v'.Inv := by
  induction ops generalizing v with
  | nil =>
    cases hrun
    exact h
  | cons op ops ih =>
    obtain ⟨v₁, hstep, hrun⟩ := Option.bind_eq_some_iff.mp hrun
    exact ih (h.step hc.1 hstep) (hc.2 v₁ hstep) hrun

/-- **An edited text goes to its own row**, if no row is moved or removed underneath the editor. -/
theorem saves_own_row {ops : List RowOp} (hdistinct : v.ids.Nodup)
    (hbelow : ∀ id ∈ v.ids, id < v.nextId) (hclosed : v.editingField = none)
    (hc : CarefulRun v ops) (hrun : v.run ops = some v') : v'.ids.Nodup ∧ v'.SavesOwn := by
  have hinv : v.Inv := ⟨hdistinct, hbelow, fun field hfield => by rw [hclosed] at hfield; cases hfield⟩
  have hinv' := hinv.run hc hrun
  exact ⟨hinv'.nodup, hinv'.savesOwn⟩

def twoRows : View := ⟨[⟨0, { sha := ['a'], originalMessage := ['A'] }⟩,
  ⟨1, { sha := ['b'], originalMessage := ['B'] }⟩], none, 2⟩

/-- A command is typed for the second row, and the first one is set to be dropped. -/
theorem saves_own_row_second : ∃ v, twoRows.run [.openShellEditor 1, .type ['x'],
    .setAction 0 .drop] = some v ∧ v.ids.Nodup ∧ v.SavesOwn := by
  have hc : CarefulRun twoRows [.openShellEditor 1, .type ['x'], .setAction 0 .drop] :=
    ⟨nofun, fun _ _ => ⟨fun _ _ => trivial, fun _ _ => ⟨fun _ _ => trivial, fun _ _ => trivial⟩⟩⟩
  exact ⟨_, rfl, saves_own_row (by decide) (by decide) rfl hc rfl⟩

/-- The message for the first row goes to the second one, which was moved up. -/
theorem saves_other_row : ∃ v, twoRows.run [.openMessageEditor 0, .type ['x'], .moveUp 1] = some v ∧
    ¬ v.SavesOwn := by
  refine ⟨_, rfl, fun h => ?_⟩
  have := h _ rfl 0 ⟨1, { sha := ['b'], originalMessage := ['B'] }⟩ (by decide) (by decide)
  revert this
  decide

end SpkEditor.Rebase
