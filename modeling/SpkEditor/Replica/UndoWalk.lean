import SpkEditor.Replica.Reachable

/-!
# Up and down the undo stack

`undo` and `redo` take an entry from one stack to the other and count each edit of its transaction
once more. So the parity of the counts together with the entries below stays what it was, and what
a buffer shows after any number of them depends on the height of its undo stack alone. What others
have written, and it has not deleted, it shows as before.
-/

namespace SpkEditor

open List

variable {baseText : List Char} {cfg : Profile} {remoteId r : Nat} {w w' w'' : World}
  {byte : Lamport → Nat → UInt8}

/-! ## What a walk keeps -/

/-- What an undo leaves alone in a fragment. -/
def Fragment.fixed (f : Fragment) : Lamport × Nat × Nat × List Lamport :=
  (f.timestamp, f.insertionOffset, f.len, f.deletions)

/-- How many entries of a stack have this edit. -/
def holding (stack : List HistoryEntry) (e : Lamport) : Nat :=
  stack.countP fun entry => decide (e ∈ entry.transaction.editIds)

/-- **What `undo` and `redo` keep.** -/
structure Walked (byte : Lamport → Nat → UInt8) (b b' : Buffer) : Prop where
  fragments : b'.snapshot.fragments.map Fragment.fixed = b.snapshot.fragments.map Fragment.fixed
  visibleText : b'.snapshot.visibleText = textOf byte true (cellsOf b'.snapshot.fragments)
  deletedText : b'.snapshot.deletedText = textOf byte false (cellsOf b'.snapshot.fragments)
  entries : b'.history.undoStack.reverse ++ b'.history.redoStack =
    b.history.undoStack.reverse ++ b.history.redoStack
  parity : ∀ e, (b'.snapshot.undoMap.undoCount e + holding b'.history.undoStack e) % 2 =
    (b.snapshot.undoMap.undoCount e + holding b.history.undoStack e) % 2

theorem Walked.trans {b₁ b₂ b₃ : Buffer} (h : Walked byte b₁ b₂) (h' : Walked byte b₂ b₃) :
    Walked byte b₁ b₃ :=
  ⟨h'.fragments.trans h.fragments, h'.visibleText, h'.deletedText, h'.entries.trans h.entries,
    fun e => (h'.parity e).trans (h.parity e)⟩

/-- **A step of the walk.** -/
theorem ReplicaInv.walked {sent : List Operation} {b b' : Buffer} {op : Operation} {history : History}
    {entry : HistoryEntry} (h : ReplicaInv baseText sent r b) (hb : Walked byte b b)
    (hstarted : b.history.Started)
    (hentries : history.undoStack.reverse ++ history.redoStack =
      b.history.undoStack.reverse ++ b.history.redoStack)
    (hparity : ∀ e, (holding history.undoStack e + if e ∈ entry.transaction.editIds then 1 else 0) % 2 =
      holding b.history.undoStack e % 2)
    (heq : { b with history := history }.undoOrRedo entry.transaction = some (b', op)) :
    Walked byte b b' := by
  obtain ⟨clock, undo, htick, -, hundo, rfl⟩ := undoOrRedo_cases heq
  have hfst : undo.counts.map Prod.fst = entry.transaction.editIds.dedup := by
    rw [hundo, List.map_map]
    exact List.map_id _
  have hdone := BufferSnapshot.applyUndo_spec h.wf.ids h.wf.filed h.wf.slicesSorted hb.visibleText hb.deletedText undo
  have hnew : ∀ e ∈ b.snapshot.undoMap, e.undoId ≠ undo.timestamp := by
    intro e he heq
    have hobs := (h.wf.undosObserved e he).1
    rw [heq, hundo] at hobs
    exact absurd hobs (by
      rw [h.not_observed (h.started hstarted) h.mirrors.witnessed]
      exact Bool.false_ne_true)
  refine ⟨?_, hdone.visibleText, hdone.deletedText, hentries, fun e => ?_⟩
  · dsimp only
    rw [hdone.fragments, List.map_map]
    refine map_congr_left fun f _ => ?_
    rw [Function.comp_apply]
    split <;> rfl
  · dsimp only
    rw [hdone.undoMap, undoCount_insert h.wf.undosSorted (by rw [hfst]; exact nodup_dedup _) hnew
      (congrArg UndoOperation.counts hundo) e]
    have hp := hparity e
    simp only [mem_dedup, History.push] at hp ⊢
    omega

theorem History.pop_cases {h h' : History} {entry : Option HistoryEntry}
    (heq : h.popUndo = some (h', entry) ∨ h.popRedo = some (h', entry)) :
    (h' = h ∧ entry = none) ∨ ∃ x, entry = some x ∧ h.Started ∧
      h'.undoStack.reverse ++ h'.redoStack = h.undoStack.reverse ++ h.redoStack ∧
      ∀ e, (holding h'.undoStack e + if e ∈ x.transaction.editIds then 1 else 0) % 2 =
        holding h.undoStack e % 2 := by
  rcases heq with heq | heq
  · unfold History.popUndo at heq
    split at heq
    · cases heq
    split at heq
    · cases heq
      exact .inl ⟨rfl, rfl⟩
    · rename_i x stack hstack
      cases heq
      exact .inr ⟨x, rfl, .inr (.inl (by simp [hstack])), by simp [hstack], fun e => by
        simp [hstack, holding, countP_cons]⟩
  · unfold History.popRedo at heq
    split at heq
    · cases heq
    split at heq
    · cases heq
      exact .inl ⟨rfl, rfl⟩
    · rename_i x stack hstack
      cases heq
      exact .inr ⟨x, rfl, .inr (.inr (by simp [hstack])), by simp [hstack], fun e => by
        simp [holding, countP_cons]
        omega⟩

theorem WorldInv.walked (hw : WorldInv baseText w) (hb : Walked byte (w.bufs r) (w.bufs r))
    {b' : Buffer} {a : Action} {ops : List Operation} (ha : a = .undo ∨ a = .redo)
    (heq : (w.bufs r).act cfg a = some (b', ops)) : Walked byte (w.bufs r) b' := by
  obtain ⟨res, op, hres, hact⟩ : ∃ res op, (res = (w.bufs r).history.popUndo ∨
      res = (w.bufs r).history.popRedo) ∧ (w.bufs r).actOn res = some (b', op) := by
    rcases ha with rfl | rfl
    · obtain ⟨⟨b₁, op⟩, hact, rfl, -⟩ := map_eq_some_pair heq
      exact ⟨_, op, .inl rfl, hact⟩
    · obtain ⟨⟨b₁, op⟩, hact, rfl, -⟩ := map_eq_some_pair heq
      exact ⟨_, op, .inr rfl, hact⟩
  unfold Buffer.actOn at hact
  split at hact
  · cases hact
  · rename_i history
    cases hact
    rcases History.pop_cases (hres.imp Eq.symm Eq.symm) with ⟨rfl, -⟩ | ⟨x, hx, -⟩
    · exact hb
    · cases hx
  · rename_i history entry
    split at hact
    · cases hact
    rename_i hundo
    cases hact
    rcases History.pop_cases (hres.imp Eq.symm Eq.symm) with ⟨-, hx⟩ | ⟨x, hx, hstarted, hentries, hparity⟩
    · cases hx
    · cases hx
      exact (hw.replicas r).walked hb hstarted hentries hparity hundo

/-! ## The whole walk -/

theorem Fragment.isVisible_fixed {f g : Fragment} {undos undos' : UndoMap} (hfix : f.fixed = g.fixed)
    (he : ∀ e, f.DependsOn e → undos.isUndone e = undos'.isUndone e) :
    f.isVisible undos = g.isVisible undos' := by
  simp only [Fragment.fixed, Prod.mk.injEq] at hfix
  obtain ⟨hts, -, -, hdel⟩ := hfix
  rw [isVisible_congr he, Fragment.isVisible, Fragment.isVisible, hts, hdel]

theorem textOf_fixed {undos undos' : UndoMap} (he : ∀ e, undos.isUndone e = undos'.isUndone e)
    {v : Bool} : ∀ {fs gs : List Fragment}, fs.map Fragment.fixed = gs.map Fragment.fixed →
      (∀ f ∈ fs, f.visible = f.isVisible undos) → (∀ g ∈ gs, g.visible = g.isVisible undos') →
      textOf byte v (cellsOf fs) = textOf byte v (cellsOf gs)
  | [], [], _, _, _ => rfl
  | f :: fs, g :: gs, hfix, hf, hg => by
    obtain ⟨hfg, hrest⟩ := List.cons.inj hfix
    have hvis : f.visible = g.visible := by
      rw [hf f mem_cons_self, hg g mem_cons_self]
      exact Fragment.isVisible_fixed hfg fun e _ => he e
    simp only [Fragment.fixed, Prod.mk.injEq] at hfg
    obtain ⟨hts, hoff, hlen, -⟩ := hfg
    have hbytes : bytesOf byte f.cells = bytesOf byte g.cells := by
      simp [bytesOf, Fragment.cells, Fragment.cellAt, hts, hoff, hlen, Function.comp_def]
    rw [cellsOf_cons, cellsOf_cons, textOf_append, textOf_append,
      textOf_uniform byte fun c hc => (cells_uniform hc).2.1,
      textOf_uniform byte fun c hc => (cells_uniform hc).2.1, hvis, hbytes,
      textOf_fixed he hrest (fun x hx => hf x (mem_cons_of_mem _ hx)) fun x hx => hg x (mem_cons_of_mem _ hx)]

theorem WorldInv.walk (hw : WorldInv baseText w) {as : List (Nat × Action)}
    (hrun : Run (World.Step cfg) w as w') (has : ∀ a ∈ as, a.1 = r → a.2 = .undo ∨ a.2 = .redo) :
    WorldInv baseText w' ∧ Walked (byteOf baseText w.sent) (w.bufs r) (w'.bufs r) := by
  have hwf := (hw.replicas r).wf
  refine hrun.invariant (P := fun x => Walked (byteOf baseText w.sent) (w.bufs r) (x.bufs r))
    (fun _ _ _ hx hs => hx.step hs) (fun x a y hx hwalk ha hs => ?_) hw
    ⟨rfl, hwf.visibleText, hwf.deletedText, rfl, fun _ => rfl⟩
  obtain ⟨q, a⟩ := a
  by_cases hq : q = r
  · subst hq
    obtain ⟨-, b, ops, hact, rfl⟩ := hs
    rw [World.bufs_set]
    exact hwalk.trans (hx.walked ⟨rfl, hwalk.visibleText, hwalk.deletedText, rfl, fun _ => rfl⟩
      (has _ ha rfl) hact)
  · rwa [hs.other (Ne.symm hq)]

/-- An edit, to be walked down and up again while the other replica makes one of its own. -/
def walked : World := World.after .test [(1, .edit [(⟨1, 1⟩, ['x'])] 0 0)] (World.init .test 7 ['a', 'b'])

theorem ReplicaInv.holding_eq_zero {sent : List Operation} {b : Buffer} (h : ReplicaInv baseText sent r b)
    {e : Lamport} (he : e.replicaId ≠ r) : holding b.history.undoStack e = 0 := by
  refine countP_eq_zero.mpr fun entry hentry hmem => he ?_
  obtain ⟨op, -, rfl, hop⟩ := h.edits e (History.mem_editIds.mpr ⟨entry, .inl hentry, of_decide_eq_true hmem⟩)
  exact hop

def undone : World := World.after .test [(1, .undo)] walked

end SpkEditor
