import SpkEditor.Replica.Causality

/-!
# What an edit does

To the replica that makes it an edit replaces ranges of the text, all at once
(`replaceRanges`). Its operation does the same to every other replica at the same
version: the inserted bytes come to stand in the same order.

That an edit can be made at all needs one more invariant: while a transaction is open,
the undo stack has an entry for it (`History.Open`).
-/

namespace SpkEditor

open List Option

variable {h h' : History} {edits : List (Range × List Char)} {entry : Option HistoryEntry}
  {sent : List Operation} {op : Operation}

/-! ## Open transactions -/

namespace History

def Open (h : History) : Prop := 0 < h.transactionDepth → h.undoStack ≠ []

def SameStack (h h' : History) : Prop :=
  h'.transactionDepth = h.transactionDepth ∧ h'.undoStack = h.undoStack

theorem SameStack.trans {h'' : History} (h₁ : h.SameStack h') (h₂ : h'.SameStack h'') :
    h.SameStack h'' := ⟨h₂.1.trans h₁.1, h₂.2.trans h₁.2⟩

theorem Open.same (ho : h.Open) (hs : h.SameStack h') : h'.Open := by
  intro hdepth
  rw [hs.2]
  exact ho (by rw [← hs.1]; exact hdepth)

theorem Open.closed (hdepth : h.transactionDepth = 0) : h.Open := by
  intro hpos
  omega

theorem open_startTransaction {start : Global} {now : Nat} {clock clock' : Lamport}
    {id : Option Lamport} (ho : h.Open)
    (heq : h.startTransaction start now clock = some (h', clock', id)) :
    0 < h'.transactionDepth ∧ h'.Open := by
  unfold startTransaction at heq
  dsimp only at heq
  split at heq
  · split at heq
    · cases heq
    · simp only [Option.some.injEq, Prod.mk.injEq] at heq
      obtain ⟨rfl, -, -⟩ := heq
      exact ⟨Nat.succ_pos _, fun _ => cons_ne_nil _ _⟩
  · rename_i hdepth
    obtain ⟨rfl, -, -⟩ := heq
    exact ⟨Nat.succ_pos _, fun _ => ho (by omega)⟩

theorem open_groupTrailing (n : Nat) (hlt : h.undoStack ≠ [] → n < h.undoStack.length)
    (ho : h.Open) : (h.groupTrailing n).Open := by
  unfold groupTrailing
  cases hd : h.undoStack.drop n with
  | nil =>
    intro hdepth
    have hne := ho hdepth
    have hlt := hlt hne
    rw [drop_eq_nil_iff] at hd
    omega
  | cons last stack => exact fun _ => cons_ne_nil _ _

theorem groupCount_le (interval : Nat) : ∀ (entry : HistoryEntry) (stack : List HistoryEntry),
    groupCount interval entry stack ≤ stack.length
  | _, [] => le_refl _
  | entry, prev :: stack => by
      unfold groupCount
      split
      · exact Nat.succ_le_succ (groupCount_le interval prev stack)
      · exact Nat.zero_le _

theorem open_group (ho : h.Open) : h.group.Open := by
  unfold group
  split
  · rename_i hnil
    exact open_groupTrailing 0 (fun hne => absurd hnil hne) ho
  · rename_i entry stack hcons
    refine open_groupTrailing _ (fun _ => ?_) ho
    rw [hcons, length_cons]
    exact Nat.lt_succ_of_le (groupCount_le ..)

theorem countUntil_lt {t : Lamport} : ∀ {stack : List HistoryEntry} {n : Nat},
    countUntil t stack = some n → n < stack.length
  | [], _, h => absurd h (by simp [countUntil])
  | entry :: stack, n, h => by
      unfold countUntil at h
      split at h
      · cases h
        exact Nat.succ_pos _
      · split at h
        · cases h
        · obtain ⟨m, hm, rfl⟩ := Option.map_eq_some_iff.mp h
          exact Nat.succ_lt_succ (countUntil_lt hm)

theorem open_groupUntil (t : Lamport) (ho : h.Open) : (h.groupUntil t).Open := by
  unfold groupUntil
  split
  · exact ho
  · rename_i n hn
    exact open_groupTrailing n (fun _ => countUntil_lt hn) ho

theorem open_finalizeLastTransaction (ho : h.Open) : h.finalizeLastTransaction.Open := by
  unfold finalizeLastTransaction
  split
  · exact ho
  · exact fun _ => cons_ne_nil _ _

theorem open_endTransaction {now : Nat} (ho : h.Open)
    (heq : h.endTransaction now = some (h', entry)) : h'.Open := by
  unfold endTransaction at heq
  split at heq
  · cases heq
  dsimp only at heq
  split at heq
  · rename_i hdepth
    split at heq
    · cases heq
    · split at heq <;> obtain ⟨rfl, -⟩ := some_pair_inj heq <;>
        exact Open.closed hdepth
  · rename_i hne hdepth
    cases heq
    exact fun _ => ho (by omega)

theorem endTransaction_isSome (ho : h.Open) (hdepth : 0 < h.transactionDepth) (now : Nat) :
    (h.endTransaction now).isSome = true := by
  unfold endTransaction
  rw [if_neg (by omega)]
  dsimp only
  split
  · obtain ⟨entry, stack, hcons⟩ := exists_cons_of_ne_nil (ho hdepth)
    rw [hcons]
    dsimp only
    split <;> rfl
  · rfl

theorem open_pushUndo {t : Lamport} (ho : h.Open) (heq : h.pushUndo t = some h') :
    h'.Open ∧ h'.transactionDepth = h.transactionDepth := by
  unfold pushUndo at heq
  split at heq
  · cases heq
  split at heq
  · split at heq
    · cases heq
    · cases heq
      exact ⟨fun _ => cons_ne_nil _ _, rfl⟩
  · cases heq
    exact ⟨ho, rfl⟩

theorem pushUndo_isSome (ho : h.Open) (hdepth : 0 < h.transactionDepth) (t : Lamport) :
    (h.pushUndo t).isSome = true := by
  unfold pushUndo
  rw [if_neg (by omega)]
  split
  · obtain ⟨entry, stack, hcons⟩ := exists_cons_of_ne_nil (ho hdepth)
    rw [hcons]
    rfl
  · rfl

theorem popUndo_depth (heq : h.popUndo = some (h', entry)) : h'.transactionDepth = 0 := by
  unfold popUndo at heq
  split at heq
  · cases heq
  rename_i hdepth
  split at heq <;> obtain ⟨rfl, -⟩ := some_pair_inj heq <;> exact not_not.mp hdepth

theorem popRedo_depth (heq : h.popRedo = some (h', entry)) : h'.transactionDepth = 0 := by
  unfold popRedo at heq
  split at heq
  · cases heq
  rename_i hdepth
  split at heq <;> obtain ⟨rfl, -⟩ := some_pair_inj heq <;> exact not_not.mp hdepth

theorem removeFromUndo_depth {t : Lamport}
    (heq : h.removeFromUndo t = some (h', entry)) : h'.transactionDepth = 0 := by
  unfold removeFromUndo at heq
  split at heq
  · cases heq
  rename_i hdepth
  split at heq <;> obtain ⟨rfl, -⟩ := some_pair_inj heq <;> exact not_not.mp hdepth

section

variable {t : Lamport} {entries : List HistoryEntry}

theorem removeFromUndoUntil_depth (heq : h.removeFromUndoUntil t = some (h', entries)) : h'.transactionDepth = 0 := by
  unfold removeFromUndoUntil at heq
  split at heq
  · cases heq
  rename_i hdepth
  split at heq <;> obtain ⟨rfl, -⟩ := some_pair_inj heq <;> exact not_not.mp hdepth

theorem removeFromRedo_depth (heq : h.removeFromRedo t = some (h', entries)) : h'.transactionDepth = 0 := by
  unfold removeFromRedo at heq
  split at heq
  · cases heq
  rename_i hdepth
  split at heq <;> obtain ⟨rfl, -⟩ := some_pair_inj heq <;> exact not_not.mp hdepth

end

end History

section

variable {cfg : Profile} {b b' : Buffer}

theorem sameStack_applyOp (heq : b.applyOp cfg op = some b') : b.history.SameStack b'.history := by
  unfold Buffer.applyOp at heq
  split at heq
  · cases heq
    exact ⟨rfl, rfl⟩
  split at heq
  · split at heq
    · cases heq
    · cases heq
      exact ⟨rfl, rfl⟩
    · cases heq
      exact ⟨rfl, rfl⟩
  · cases heq
    exact ⟨rfl, rfl⟩

theorem sameStack_applyOrDefer {deferred deferred' : List Operation}
    (heq : b.applyOrDefer cfg op deferred = some (b', deferred')) :
    b.history.SameStack b'.history := by
  unfold Buffer.applyOrDefer at heq
  split at heq
  · obtain ⟨b₁, happly, rfl, -⟩ := map_eq_some_pair heq
    exact sameStack_applyOp happly
  · cases heq
    exact ⟨rfl, rfl⟩

theorem sameStack_receiveOps : ∀ {ops deferred deferred' : List Operation} {b : Buffer},
    Buffer.receiveOps cfg ops b deferred = some (b', deferred') → b.history.SameStack b'.history
  | [], _, _, _, heq => by
      cases heq
      exact ⟨rfl, rfl⟩
  | op :: ops, _, _, b, heq => by
      unfold Buffer.receiveOps at heq
      split at heq
      · cases heq
      · rename_i b₁ deferred₁ h₁
        have hpush : b.history.SameStack (b.history.push op) := ⟨rfl, rfl⟩
        exact hpush.trans ((sameStack_applyOrDefer h₁).trans (sameStack_receiveOps heq))

theorem sameStack_retryOps : ∀ {ops deferred deferred' : List Operation} {b : Buffer},
    Buffer.retryOps cfg ops b deferred = some (b', deferred') → b.history.SameStack b'.history
  | [], _, _, _, heq => by
      cases heq
      exact ⟨rfl, rfl⟩
  | op :: ops, _, _, b, heq => by
      unfold Buffer.retryOps at heq
      split at heq
      · cases heq
      · rename_i b₁ deferred₁ h₁
        exact (sameStack_applyOrDefer h₁).trans (sameStack_retryOps heq)

theorem sameStack_applyOps {ops : List Operation} (heq : b.applyOps cfg ops = some b') :
    b.history.SameStack b'.history := by
  unfold Buffer.applyOps at heq
  split at heq
  · cases heq
  rename_i b₁ deferred₁ h₁
  unfold Buffer.flushDeferredOps at heq
  split at heq
  · cases heq
  rename_i b₂ deferred₂ h₂
  cases heq
  have h₃ := sameStack_retryOps h₂
  exact (sameStack_receiveOps h₁).trans ⟨h₃.1, h₃.2⟩

theorem sameStack_undoOrRedo {transaction : Transaction}
    (heq : b.undoOrRedo transaction = some (b', op)) : b.history.SameStack b'.history := by
  obtain ⟨clock, undo, -, -, -, rfl⟩ := undoOrRedo_cases heq
  exact ⟨rfl, rfl⟩

theorem sameStack_undoOrRedoAll {b' : Buffer} : ∀ {entries : List HistoryEntry}
    {ops : List Operation} {b : Buffer},
    Buffer.undoOrRedoAll entries b = some (b', ops) → b.history.SameStack b'.history
  | [], _, _, heq => by
      cases heq
      exact ⟨rfl, rfl⟩
  | entry :: entries, _, b, heq => by
      unfold Buffer.undoOrRedoAll at heq
      split at heq
      · cases heq
      · rename_i b₁ op₁ h₁
        obtain ⟨⟨b₂, ops₂⟩, h₂, rfl, -⟩ := map_eq_some_pair heq
        exact (sameStack_undoOrRedo h₁).trans (sameStack_undoOrRedoAll h₂)

theorem open_actOn {r : Option (History × Option HistoryEntry)} {made : Option Operation}
    (hr : ∀ h entry, r = some (h, entry) → h.transactionDepth = 0)
    (heq : b.actOn r = some (b', made)) : b'.history.Open := by
  unfold Buffer.actOn at heq
  split at heq
  · cases heq
  · cases heq
    exact History.Open.closed (hr _ _ rfl)
  · split at heq
    · cases heq
    · rename_i b₁ op₁ h₁
      cases heq
      exact (History.Open.closed (hr _ _ rfl)).same (sameStack_undoOrRedo h₁)

theorem open_startTransactionAt {now : Nat} {id : Option Lamport} (ho : b.history.Open)
    (heq : b.startTransactionAt now = some (b', id)) :
    0 < b'.history.transactionDepth ∧ b'.history.Open := by
  unfold Buffer.startTransactionAt at heq
  split at heq
  · cases heq
  · rename_i history clock id' hstart
    cases heq
    exact History.open_startTransaction ho hstart

theorem open_endTransactionAt {now : Nat} (ho : b.history.Open)
    (heq : b.endTransactionAt now = some b') : b'.history.Open := by
  unfold Buffer.endTransactionAt at heq
  split at heq
  · cases heq
  · rename_i history hend
    cases heq
    exact History.open_endTransaction ho hend
  · rename_i history entry hend
    cases heq
    exact History.open_group (History.open_endTransaction ho hend)

theorem open_editInTransaction (ho : b.history.Open)
    (heq : b.editInTransaction cfg edits = some (b', op)) :
    b'.history.Open ∧ b'.history.transactionDepth = b.history.transactionDepth := by
  obtain ⟨clock, snapshot, patch, edit, history, -, -, hpush, -, rfl⟩ := editInTransaction_cases heq
  have hsame : b.history.SameStack (b.history.push (.edit edit)) := ⟨rfl, rfl⟩
  obtain ⟨hopen, hdepth⟩ := History.open_pushUndo (ho.same hsame) hpush
  exact ⟨hopen, hdepth⟩

/-- **No action leaves an open transaction without its entry.** -/
theorem open_act {a : Action} {ops : List Operation} (ho : b.history.Open)
    (heq : b.act cfg a = some (b', ops)) : b'.history.Open := by
  cases a with
  | edit edits startedAt endedAt =>
    obtain ⟨⟨b₁, op⟩, hedit, rfl, -⟩ := map_eq_some_pair heq
    unfold Buffer.edit at hedit
    split at hedit
    · cases hedit
    rename_i b₂ id hstart
    split at hedit
    · cases hedit
    rename_i b₃ op' hin
    obtain ⟨b₄, hend, rfl, -⟩ := map_eq_some_pair hedit
    exact open_endTransactionAt
      (open_editInTransaction (open_startTransactionAt ho hstart).2 hin).1 hend
  | startTransaction now =>
    obtain ⟨⟨b₁, id⟩, hstart, rfl, -⟩ := map_eq_some_pair heq
    exact (open_startTransactionAt ho hstart).2
  | endTransaction now =>
    obtain ⟨b₁, hend, rfl, -⟩ := map_eq_some_pair heq
    exact open_endTransactionAt ho hend
  | finalizeLastTransaction =>
    cases heq
    exact History.open_finalizeLastTransaction ho
  | groupUntilTransaction transactionId =>
    cases heq
    exact History.open_groupUntil transactionId ho
  | setGroupInterval interval =>
    cases heq
    exact ho
  | undo =>
    obtain ⟨⟨b₁, made⟩, hundo, rfl, -⟩ := map_eq_some_pair heq
    exact open_actOn (fun _ _ h => History.popUndo_depth h) hundo
  | redo =>
    obtain ⟨⟨b₁, made⟩, hredo, rfl, -⟩ := map_eq_some_pair heq
    exact open_actOn (fun _ _ h => History.popRedo_depth h) hredo
  | undoTransaction transactionId =>
    obtain ⟨⟨b₁, made⟩, hundo, rfl, -⟩ := map_eq_some_pair heq
    exact open_actOn (fun _ _ h => History.removeFromUndo_depth h) hundo
  | undoToTransaction transactionId =>
    replace heq : b.undoToTransaction transactionId = some (b', ops) := heq
    unfold Buffer.undoToTransaction at heq
    split at heq
    · cases heq
    · rename_i history entries hsplit
      have hclosed : history.Open := History.Open.closed (History.removeFromUndoUntil_depth hsplit)
      exact hclosed.same (sameStack_undoOrRedoAll heq)
  | redoToTransaction transactionId =>
    replace heq : b.redoToTransaction transactionId = some (b', ops) := heq
    unfold Buffer.redoToTransaction at heq
    split at heq
    · cases heq
    · rename_i history entries hsplit
      have hclosed : history.Open := History.Open.closed (History.removeFromRedo_depth hsplit)
      exact hclosed.same (sameStack_undoOrRedoAll heq)
  | applyOps received =>
    obtain ⟨b₁, happly, rfl, -⟩ := map_eq_some_pair heq
    exact ho.same (sameStack_applyOps happly)
  | subscribe =>
    cases heq
    exact ho
  | consume subscription =>
    cases heq
    exact ho

end

section

variable {baseText : List Char} {cfg : Profile} {remoteId : Nat} {w w' : World} {r : Nat}

theorem World.Reachable.open (h : World.Reachable cfg remoteId baseText w) (r : Nat) :
    (w.bufs r).history.Open := by
  obtain ⟨as, hrun⟩ := h
  refine hrun.keeps (I := fun w => ∀ r, (w.bufs r).history.Open) ?_ ?_ r
  · rintro x ⟨q, a⟩ y hx hs r
    by_cases hr : r = q
    · subst hr
      obtain ⟨-, b, ops, heq, rfl⟩ := hs
      rw [World.bufs_set]
      exact open_act (hx r) heq
    · rw [hs.other hr]
      exact hx r
  · intro r
    exact History.Open.closed rfl

/-! ## Making an edit -/

theorem startTransactionAt_spec {b : Buffer} (now : Nat)
    (hclock : b.lamportClock.value < Lamport.SEQ_MAX) :
    ∃ b' id, b.startTransactionAt now = some (b', id) ∧ b'.snapshot = b.snapshot ∧
      b'.lamportClock.value ≤ b.lamportClock.value + 1 := by
  unfold Buffer.startTransactionAt History.startTransaction Lamport.tick
  rw [if_pos hclock]
  by_cases hdepth : b.history.transactionDepth + 1 = 1
  · simp only [hdepth, if_true]
    exact ⟨_, _, rfl, rfl, le_refl _⟩
  · simp only [hdepth, if_false]
    exact ⟨_, _, rfl, rfl, Nat.le_succ _⟩

/-- **An edit can be made in every state the group can get into**, until the clock runs over. -/
theorem World.Reachable.edit_isSome (h : World.Reachable cfg remoteId baseText w) (hne : edits ≠ [])
    (hv : ValidRanges 0 (edits.map Prod.fst) (w.bufs r).text.length)
    (hb : ∀ e ∈ edits, isCharBoundary (w.bufs r).text e.1.start = true ∧
      isCharBoundary (w.bufs r).text e.1.stop = true)
    (hclock : (w.bufs r).lamportClock.value + 1 < Lamport.SEQ_MAX) (startedAt endedAt : Nat) :
    ((w.bufs r).edit cfg edits startedAt endedAt).isSome = true := by
  -- the transaction
  obtain ⟨b₁, id, hstart, hsnap, hle⟩ := startTransactionAt_spec startedAt
    (show (w.bufs r).lamportClock.value < Lamport.SEQ_MAX by omega)
  obtain ⟨hdepth, hopen⟩ := open_startTransactionAt (h.open r) hstart
  have hw₁ := (h.inv.startTransactionAt hstart).1
  have htext : b₁.text = (w.bufs r).text := by rw [Buffer.text, hsnap, Buffer.text]
  -- the edit
  have hinv := hw₁.replicas r
  rw [World.bufs_set] at hinv
  have hlocal := hw₁.applyLocalEdit_isSome (r := r) cfg hne
    (by rw [World.bufs_set]; exact hinv.started (.inl hdepth)) (by rw [World.bufs_set]; omega)
    (by rw [World.bufs_set, htext]; exact hv)
  rw [World.bufs_set] at hlocal
  obtain ⟨⟨b₂, op⟩, hedit⟩ : ∃ x, b₁.editInTransaction cfg edits = some x := by
    rw [← isSome_iff_exists]
    obtain ⟨⟨s, patch, edit⟩, hs⟩ := Option.isSome_iff_exists.mp hlocal
    have hsame : b₁.history.SameStack (b₁.history.push (.edit edit)) := ⟨rfl, rfl⟩
    obtain ⟨history, hpush⟩ := Option.isSome_iff_exists.mp
      (History.pushUndo_isSome (hopen.same hsame) (by rw [hsame.1]; exact hdepth) b₁.lamportClock)
    unfold Buffer.editInTransaction Lamport.tick
    rw [if_pos (show b₁.lamportClock.value < Lamport.SEQ_MAX by omega)]
    dsimp only
    rw [toOffset_ranges (by rw [← Buffer.text, htext]; exact hb), hs]
    dsimp only
    rw [hpush]
    rfl
  -- and its end
  obtain ⟨hopen₂, hdepth₂⟩ := open_editInTransaction hopen hedit
  have hend : (b₂.endTransactionAt endedAt).isSome = true := by
    obtain ⟨⟨history, entry⟩, hend⟩ := Option.isSome_iff_exists.mp
      (History.endTransaction_isSome hopen₂ (by rw [hdepth₂]; exact hdepth) endedAt)
    unfold Buffer.endTransactionAt
    rw [hend]
    cases entry <;> rfl
  unfold Buffer.edit
  rw [hstart]
  dsimp only
  rw [hedit]
  rw [isSome_map, hend]

theorem applyLocalEdit_version {s s' : BufferSnapshot}
    {T : Lamport} {patch : Patch} {edit : EditOperation}
    (h : s.applyLocalEdit cfg edits T = some (s', patch, edit)) : s'.version = s.version := by
  unfold BufferSnapshot.applyLocalEdit at h
  split at h
  · cases h
  dsimp only at h
  split at h
  · cases h
  split at h
  · cases h
  rename_i hfin
  obtain ⟨rfl, -, -⟩ := h
  unfold EditState.finish at hfin
  split at hfin
  · cases hfin
  · cases hfin
    rfl

/-- What the operation of an edit knows, and what the replica knows after it. -/
theorem edit_version {b b' : Buffer}
    {startedAt endedAt : Nat} (heq : b.edit cfg edits startedAt endedAt = some (b', op)) :
    op.version = b.snapshot.version ∧ b'.snapshot.version = b.snapshot.version.observe op.timestamp := by
  unfold Buffer.edit at heq
  split at heq
  · cases heq
  rename_i b₁ id hstart
  have hsnap : b₁.snapshot = b.snapshot := by
    unfold Buffer.startTransactionAt at hstart
    split at hstart
    · cases hstart
    · rw [← (some_pair_inj hstart).1]
  split at heq
  · cases heq
  rename_i b₂ op' hedit
  obtain ⟨b₃, hend, rfl, rfl⟩ := map_eq_some_pair heq
  obtain ⟨clock, snapshot, patch, edit, history, -, hlocal, -, rfl, rfl⟩ := editInTransaction_cases hedit
  obtain ⟨-, hts, hver, -⟩ := applyLocalEdit_op hlocal
  rw [(endTransactionAt_eq hend).1, ← hsnap]
  refine ⟨hver, ?_⟩
  show snapshot.version.observe _ = _
  rw [applyLocalEdit_version hlocal]
  exact congrArg _ hts.symm

/-! ## Applying it elsewhere -/

theorem applied_within {log : List Operation} {u u' v : Global}
    (hrun : Run (Applies sent) u log u') (hu : v.observedAll u = true)
    (hop : v.observed op.timestamp = true)
    (hlog : ∀ y ∈ log, y = op ∨ v.observedAll y.version = false) : v.observedAll u' = true := by
  induction hrun with
  | nil => exact hu
  | @cons u₁ u₂ u₃ y log hs _ ih =>
    obtain ⟨-, hready, -, rfl⟩ := hs
    refine ih ?_ (fun z hz => hlog z (mem_cons_of_mem _ hz))
    rcases hlog y (by simp) with rfl | hnot
    · exact @Global.observedAll_foldl [y.timestamp] v u₁ hu (by simpa using hop)
    · rw [Global.observedAll_trans hu hready] at hnot
      cases hnot

theorem exists_first_of_replica {l : List Operation}
    (hl : KeyedList.Sorted Operation.timestamp l) (hop : op ∈ l) :
    ∃ x ∈ l, x.replicaId = op.replicaId ∧
      ∀ y ∈ l, y.replicaId = op.replicaId → x.timestamp ≤ y.timestamp := by
  have hfound : (l.find? fun y => decide (y.replicaId = op.replicaId)).isSome = true :=
    List.find?_isSome.mpr ⟨op, hop, decide_eq_true rfl⟩
  obtain ⟨x, hx⟩ := Option.isSome_iff_exists.mp hfound
  obtain ⟨hxr, front, back, rfl, hfront⟩ := List.find?_eq_some_iff_append.mp hx
  refine ⟨x, by simp, of_decide_eq_true hxr, fun y hy hr => ?_⟩
  rcases List.mem_append.mp hy with hy | hy
  · have := hfront y hy
    simp [hr] at this
  · rcases List.mem_cons.mp hy with rfl | hy
    · exact le_refl _
    · have := (List.pairwise_append.mp hl).2.1
      exact le_of_lt ((List.pairwise_cons.mp this).1 y hy)

/-- **An operation can be applied where its author's version is known**: `apply_ops` does not
leave it waiting. -/
theorem Inbox.Called.observes {i j : Inbox}
    (hc : Causal sent) (hcalled : Inbox.Called baseText sent [op] i j) (hop : op ∈ sent)
    (hv : i.version.observedAll op.version = true) : j.version.observed op.timestamp = true := by
  have hgrow : j.version.observedAll op.version = true :=
    Global.observedAll_trans (Global.observedAll_of_observed hcalled.observed) hv
  rcases hcalled.accounted op (.inr (by simp)) with hobs | hwait
  · exact hobs
  -- the first operation of the replica that waits has been seen by this one, or is this one
  obtain ⟨x, hx, hxr, hlow⟩ := exists_first_of_replica hcalled.ok.sorted hwait
  have hnot := hcalled.waits x hx (fun y hy hr => hlow y hy (hr.trans hxr))
  have hxs := hcalled.ok.sent x hx
  have hready : j.version.observedAll x.version = true := by
    rcases (hlow op hwait rfl).eq_or_lt with heq | hlt
    · rw [hc.eq_of_timestamp hxs hop heq]
      exact hgrow
    · have hval : x.timestamp.value < op.timestamp.value := by
        rw [Lamport.lt_def] at hlt
        have : x.timestamp.replicaId = op.timestamp.replicaId := hxr
        omega
      have hsaw := hc.own op hop x hxs hxr.symm hval
      exact Global.observedAll_trans hgrow (hc.closed op hop x hxs hsaw)
  rw [hready] at hnot
  cases hnot

/-- The inserted bytes in document order. -/
def BufferSnapshot.order (s : BufferSnapshot) : List CharId := s.chars.map fun c => (c.1, c.2.1)

theorem ReplicaInv.order_eq {b : Buffer} (h : ReplicaInv baseText sent r b) :
    b.snapshot.order = (Doc.of baseText sent).view b.snapshot.version := by
  rw [BufferSnapshot.order, h.chars_eq, Doc.chars, List.map_map]
  exact List.map_id _

theorem Doc.filter_view {doc : Doc} {u v : Global} (h : u.observedAll v = true) :
    (doc.view u).filter (fun x => v.observed x.1) = doc.view v := by
  rw [Doc.view, Doc.view, List.filter_filter]
  refine filter_congr (fun x _ => ?_)
  cases hv : v.observed x.1 with
  | false => rfl
  | true => rw [Global.observed_of_observedAll h hv]; rfl

/-- The text at a version stays as it was, whatever is made later. -/
theorem textAt_stable {ops : List Operation} {v : Global}
    (hops : ∀ op ∈ ops, v.observed op.timestamp = false) :
    (Doc.of baseText (sent ++ ops)).textAt (byteOf baseText (sent ++ ops)) v =
      (Doc.of baseText sent).textAt (byteOf baseText sent) v := by
  obtain ⟨hview, hvis, htext⟩ := @doc_stable baseText sent v ops hops
  rw [Doc.textAt, Doc.textAt, hview, hvis]
  refine map_congr_left (fun x hx => ?_)
  have hobs : v.observed x.1 = true := by
    have := (List.mem_filter.mp hx).1
    exact (List.mem_filter.mp this).2
  rw [byteOf, byteOf, htext x.1 hobs]

/-- **The operation of an edit does to other replicas what the edit did to its own.** `w` is
a group some time after the edit, `b` the replica that made it right after it. -/
theorem applyOps_like_author {b : Buffer} {q : Nat}
    (hw : WorldInv baseText w) (hsent : ∃ ops, w.sent = sent ++ ops) (hc : Causal sent)
    (hb : ReplicaInv baseText sent r b) (hop : op ∈ sent)
    (hbv : b.snapshot.version = op.version.observe op.timestamp)
    (hv : (w.bufs q).snapshot.version = op.version) :
    ∃ b', (w.bufs q).applyOps cfg [op] = some b' ∧
      b'.snapshot.order.filter (fun x => b.snapshot.version.observed x.1) = b.snapshot.order ∧
      ((∀ x ∈ (w.bufs q).deferredOps, b.snapshot.version.observedAll x.version = false) →
        b'.snapshot.chars = b.snapshot.chars ∧ b'.text = b.text) := by
  obtain ⟨ops, hsent⟩ := hsent
  have hop' : op ∈ w.sent := by rw [hsent]; exact mem_append_left _ hop
  have hmem : ∀ x ∈ [op], x ∈ w.sent := by simpa using hop'
  have hq := hw.replicas q
  obtain ⟨b', heq, hb', -, hinbox⟩ := applyOps_spec cfg hw.causal hw.doc hmem hq
  have hcalled := Inbox.applyOps_called hw.causal hw.based (hq.inboxOk hw.doc []) hmem
  rw [← hinbox []] at hcalled
  -- what was made later the author has not seen
  have hlater : ∀ x ∈ ops, b.snapshot.version.observed x.timestamp = false := fun x hx =>
    not_observed_later hc (by rw [← hsent]; exact hw.causal) hx _ hb.mirrors.witnessed rfl
  obtain ⟨hview, hvis, -⟩ := @doc_stable baseText sent _ ops hlater
  have hold : (w.bufs q).snapshot.version.observedAll op.version = true := by
    rw [hv]; exact Global.observedAll_refl _
  have hobs : b'.snapshot.version.observed op.timestamp = true :=
    hcalled.observes hw.causal hop' hold
  have hgrow : b'.snapshot.version.observedAll b.snapshot.version = true := by
    rw [hbv]
    refine @Global.observedAll_foldl [op.timestamp] _ op.version ?_ (by simpa using hobs)
    rw [← hv]
    exact Global.observedAll_of_observed hcalled.observed
  refine ⟨b', heq, ?_, fun hwait => ?_⟩
  · rw [hb'.order_eq, Doc.filter_view hgrow, hb.order_eq, hsent, hview]
  · have hrun : Run (Applies w.sent) (w.bufs q).snapshot.version
        ([] ++ (w.bufs q).applyOpsLog cfg [op]) b'.snapshot.version := hcalled.run _ .nil
    have hle : b.snapshot.version.observedAll b'.snapshot.version = true := by
      refine applied_within hrun ?_ (by rw [hbv]; exact Global.observed_observe_self ..)
        (fun y hy => ?_)
      · rw [hv, hbv]
        exact Global.observedAll_observe _ (Global.observedAll_refl _)
      · rcases hcalled.log y hy with hy | hy | hy
        · exact absurd hy (not_mem_nil)
        · exact .inr (hwait y hy)
        · exact .inl (List.mem_singleton.mp hy)
    have hsame := Global.observedAll_antisymm hle hgrow
    rw [hb'.chars_eq, hb.chars_eq, hb'.text_eq, hb.text_eq, ← hsame, hsent, textAt_stable hlater,
      Doc.chars, Doc.chars, hview, hvis]
    exact ⟨rfl, rfl⟩

/-! ## Refinement -/

/-- **A local edit refines replacement**: in every state the group can get into, an edit of
ranges in order replaces them, all at once, by the normalized texts; and applied to any
replica at the version the edit was made at, its operation puts the inserted bytes in the
order they have at the author. If it makes nothing else ready that waits there, the two
replicas hold the same. -/
theorem local_edit_refines (hw : World.Reachable cfg remoteId baseText w) (r : Nat)
    {edits : List (Range × List Char)} (hne : edits ≠ [])
    (hv : ValidRanges 0 (edits.map Prod.fst) (w.bufs r).text.length)
    (hb : ∀ e ∈ edits, isCharBoundary (w.bufs r).text e.1.start = true ∧
      isCharBoundary (w.bufs r).text e.1.stop = true) (startedAt endedAt : Nat) :
    ((w.bufs r).lamportClock.value + 1 < Lamport.SEQ_MAX →
        ((w.bufs r).edit cfg edits startedAt endedAt).isSome = true) ∧
      ∀ b op, (w.bufs r).edit cfg edits startedAt endedAt = some (b, op) →
        b.text = replaceRanges (edits.map fun e => (e.1, utf8 (normalize e.2))) (w.bufs r).text ∧
        ∀ as w' q, Run (World.Step cfg) (w.set r b [op]) as w' →
          (w'.bufs q).snapshot.version = (w.bufs r).snapshot.version →
          ∃ b', (w'.bufs q).applyOps cfg [op] = some b' ∧
            b'.snapshot.order.filter (fun x => b.snapshot.version.observed x.1) = b.snapshot.order ∧
            ((∀ x ∈ (w'.bufs q).deferredOps, b.snapshot.version.observedAll x.version = false) →
              b'.snapshot.chars = b.snapshot.chars ∧ b'.text = b.text) := by
  refine ⟨fun hclock => hw.edit_isSome hne hv hb hclock startedAt endedAt, fun b op heq => ?_⟩
  obtain ⟨⟨hinv, -⟩, htext⟩ := hw.inv.edit hv hb heq
  refine ⟨htext, fun as w' q hrun hsame => ?_⟩
  obtain ⟨hver, hafter⟩ := edit_version heq
  have hown := hinv.replicas r
  rw [World.bufs_set] at hown
  exact applyOps_like_author (hrun.keeps (fun _ _ _ hi hs => hi.step hs) hinv) hrun.sent hinv.causal
    hown (by simp) (by rw [hver]; exact hafter) (by rw [hver]; exact hsame)

/-- A character and the place behind it, with a line ending to normalize. -/
def twoRanges : List (Range × List Char) := [(⟨0, 1⟩, ['\r', '\n']), (⟨1, 1⟩, ['z'])]

theorem local_edit_refines_exchanged :
    ∃ b op b', (exchanged.bufs 1).edit .test twoRanges 0 0 = some (b, op) ∧
      b.text = [10, 122, 120, 98] ∧ (exchanged.bufs 2).applyOps .test [op] = some b' ∧
      b'.snapshot.chars = b.snapshot.chars ∧ b'.text = b.text := by
  obtain ⟨hsome, hedit⟩ := @local_edit_refines _ _ _ _ reachable_exchanged 1 twoRanges (by decide)
    (by decide) (by decide) 0 0
  obtain ⟨⟨b, op⟩, heq⟩ := Option.isSome_iff_exists.mp (hsome (by decide))
  obtain ⟨htext, hother⟩ := hedit b op heq
  have htwo : (exchanged.set 1 b [op]).bufs 2 = exchanged.bufs 2 := by simp [World.set]
  obtain ⟨b', happly, -, hsame⟩ := hother [] _ 2 .nil (by rw [htwo]; decide)
  rw [htwo] at happly hsame
  have hnone : (exchanged.bufs 2).deferredOps = [] := by decide
  exact ⟨b, op, b', heq, htext.trans (by decide), happly, hsame (by rw [hnone]; simp)⟩

end

end SpkEditor
