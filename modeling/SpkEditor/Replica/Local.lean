import SpkEditor.Replica.Inv
import Mathlib.Data.List.Dedup

/-!
# Making operations

A replica that makes an operation stamps it with its clock, which is ahead of every
version in the group (`fresh`). The document grows by it; no other replica notices;
and the replica itself applies it. For an edit the last part rests on the fact that
`apply_local_edit` and `apply_remote_edit` do the same thing to a replica that has
just made the edit (`local_eq_remote`).
-/

namespace SpkEditor

open List Option

variable {edits : List (Range × List Char)} {s : BufferSnapshot} {cfg : Profile}

section

variable {baseText : List Char} {sent : List Operation} {r : Nat} {b b' : Buffer} {w : World}
  {op : Operation}

theorem Doc.of_snoc (baseText : List Char) (sent : List Operation) (op : Operation) :
    Doc.of baseText (sent ++ [op]) = (Doc.of baseText sent).apply op := by
  simp [Doc.of]

theorem textOf_congr {byte byte' : Lamport → Nat → UInt8} {cells : List Cell}
    (h : ∀ c ∈ cells, byte c.timestamp = byte' c.timestamp) (v : Bool) :
    textOf byte v cells = textOf byte' v cells := by
  refine map_congr_left (fun c hc => ?_)
  rw [h c (List.mem_filter.mp hc).1]

theorem Wf.unseen (h : Wf (byteOf baseText sent) s)
    (hop : s.version.observed op.timestamp = false) : Wf (byteOf baseText (sent ++ [op])) s := by
  have hbyte : ∀ c ∈ cellsOf s.fragments,
      byteOf baseText sent c.timestamp = byteOf baseText (sent ++ [op]) c.timestamp := by
    intro c hc
    obtain ⟨f, hf, hcf⟩ := mem_cellsOf.mp hc
    have hne : c.timestamp ≠ op.timestamp := by
      intro heq
      have := h.observed f hf c.timestamp (.inl (cells_uniform hcf).1)
      rw [heq, hop] at this
      exact Bool.false_ne_true this
    funext i
    rw [byteOf, byteOf, contentOf_snoc hne]
  refine ⟨h.ids, h.good, h.len_pos, h.nodup, ?_, ?_, h.filed, h.slicesSorted, h.sliced, h.backed,
    h.visible, h.undosSorted, h.observed, h.undosObserved, h.maxUndos⟩
  · rw [h.visibleText]; exact textOf_congr hbyte true
  · rw [h.deletedText]; exact textOf_congr hbyte false

/-! ## New timestamps -/

theorem ReplicaInv.not_observed (h : ReplicaInv baseText sent r b) (hclock : 2 ≤ b.lamportClock.value)
    {v : Global} (hv : Witnessed sent v) : v.observed b.lamportClock = false := by
  by_contra hne
  have hle : b.lamportClock.value ≤ v.get b.lamportClock.replicaId := by
    simpa using Bool.of_not_eq_false hne
  rw [h.replica] at hle
  rcases hv r (by omega) with hb | ⟨op, hop, ht⟩
  · have : v.get r = 1 := congrArg Lamport.value hb
    omega
  · have hobs := h.own op hop (by simp only [Operation.replicaId, ht])
    rw [ht, Global.observed_iff] at hobs
    have := h.clock r
    dsimp only at hobs
    omega

theorem fresh (hw : WorldInv baseText w) (hclock : 2 ≤ (w.bufs r).lamportClock.value)
    (hmax : (w.bufs r).lamportClock.value < Lamport.SEQ_MAX)
    (ht : op.timestamp = (w.bufs r).lamportClock) (hv : op.version = (w.bufs r).snapshot.version) :
    Fresh w.sent op := by
  have h := hw.replicas r
  refine ⟨?_, ?_, by rw [ht]; exact hmax, by rw [hv]; exact h.mirrors.closed, ?_, ?_,
    by rw [hv]; exact h.mirrors.witnessed⟩
  · intro heq
    rw [ht] at heq
    have : (w.bufs r).lamportClock.value = 1 := congrArg Lamport.value heq
    omega
  · intro q
    rw [hv, ht]
    exact h.clock q
  · intro op' hop' hr
    rw [Operation.replicaId, Operation.replicaId, ht, h.replica] at hr
    have hobs := h.own op' hop' hr
    refine ⟨by rw [hv]; exact hobs, ?_⟩
    rw [Global.observed_iff] at hobs
    have := h.clock op'.timestamp.replicaId
    rw [ht]
    omega
  · intro op' hop'
    rw [ht]
    exact h.not_observed hclock (hw.causal.witnessed op' hop')

theorem ReplicaInv.unseen (h : ReplicaInv baseText sent r b) (hf : Fresh sent op)
    (hop : b.snapshot.version.observed op.timestamp = false) (hr : op.replicaId ≠ r) :
    ReplicaInv baseText (sent ++ [op]) r b := by
  refine ⟨h.wf.unseen hop, by rw [Doc.of_snoc]; exact h.mirrors.unseen hf hop, h.replica, h.clock,
    h.started, ?_, fun x hx => mem_append_left _ (h.deferred x hx), h.queued, h.based, ?_⟩
  · intro x hx hxr
    rcases List.mem_append.mp hx with hx | hx
    · exact h.own x hx hxr
    · rw [List.mem_singleton.mp hx] at hxr
      exact absurd hxr hr
  · intro e he
    obtain ⟨x, hx, h1, h2⟩ := h.edits e he
    exact ⟨x, mem_append_left _ hx, h1, h2⟩

/-- **The group after an operation**, given what it does to the replica that made it. -/
theorem WorldInv.made (hw : WorldInv baseText w) (hf : Fresh w.sent op)
    (hclock : 2 ≤ (w.bufs r).lamportClock.value) (ht : op.timestamp = (w.bufs r).lamportClock)
    (hv : op.version = (w.bufs r).snapshot.version)
    (hdoc : DocInv baseText (w.sent ++ [op]) (Doc.of baseText (w.sent ++ [op])))
    (hb : ReplicaInv baseText (w.sent ++ [op]) r b') : WorldInv baseText (w.set r b' [op]) := by
  refine ⟨hw.causal.snoc hf, fun x hx => ?_, hdoc, fun q => ?_⟩
  · rcases List.mem_append.mp hx with hx | hx
    · exact hw.based x hx
    · rw [List.mem_singleton.mp hx, hv]
      exact (hw.replicas r).based
  by_cases hq : q = r
  · subst hq
    simpa [World.set] using hb
  · have : (w.set r b' [op]).bufs q = w.bufs q := by simp [World.set, hq]
    rw [this]
    refine (hw.replicas q).unseen hf ?_ ?_
    · rw [ht]
      exact (hw.replicas r).not_observed hclock (hw.replicas q).mirrors.witnessed
    · rw [Operation.replicaId, ht, (hw.replicas r).replica]
      exact Ne.symm hq

theorem WorldInv.quiet (hw : WorldInv baseText w) (hb : ReplicaInv baseText w.sent r b') :
    WorldInv baseText (w.set r b' []) := by
  refine ⟨by simpa [World.set] using hw.causal, by simpa [World.set] using hw.based,
    by simpa [World.set] using hw.doc, fun q => ?_⟩
  by_cases hq : q = r
  · subst hq
    simpa [World.set] using hb
  · simpa [World.set, hq] using hw.replicas q

theorem clock_observe {v : Global} {c c' : Lamport} (h : ∀ q, v.get q < c.value)
    (hc : c'.value = c.value + 1) (q : Nat) : (v.observe c).get q < c'.value := by
  have := h q
  rw [Global.get_observe]
  split <;> omega

/-! ## Edits -/

theorem toOffset_of_boundary {offset : Nat}
    (h : isCharBoundary s.visibleText offset = true) : s.toOffset offset = offset := by
  rw [BufferSnapshot.toOffset, if_pos h]

theorem applyLocalEdit_op {s' : BufferSnapshot} {T : Lamport} {patch : Patch} {edit : EditOperation}
    (h : s.applyLocalEdit cfg edits T = some (s', patch, edit)) :
    edits ≠ [] ∧ edit.timestamp = T ∧ edit.version = s.version ∧
      edit.newText = edits.map fun e => normalize e.2 := by
  unfold BufferSnapshot.applyLocalEdit at h
  split at h
  · cases h
  dsimp only at h
  split at h
  · cases h
  split at h
  · cases h
  obtain ⟨-, -, rfl⟩ := h
  exact ⟨by simp, rfl, rfl, by simp⟩

/-- **To the replica that makes it, an edit does what it does to any other**: everything has
been seen, nothing is newer, and what is visible is what the author could see. -/
theorem local_eq_remote {byte : Lamport → Nat → UInt8} {doc : Doc} {T : Lamport}
    (hw : Wf byte s) (hm : Mirrors doc sent s) (hT : ∀ t, s.version.observed t = true → t < T)
    (es : List (Splice.Edit Cell)) :
    Splice.splice (fun _ => true) (fun _ => false) (hitLocal T) 0 es (cellsOf s.fragments) =
      Splice.splice (seenBy s.version) (aboveEdit T) (hitRemote s.version s.undoMap T) 0 es
        (cellsOf s.fragments) := by
  have hobs : ∀ c ∈ cellsOf s.fragments, s.version.observed c.timestamp = true := by
    intro c hc
    obtain ⟨f, hf, hcf⟩ := mem_cellsOf.mp hc
    exact hw.observed f hf c.timestamp (.inl (cells_uniform hcf).1)
  refine Splice.splice_congr _ _ _ (fun c hc => (hobs c hc).symm) (fun c hc => ?_) (fun c hc => ?_)
  · exact (decide_eq_false (not_lt_of_gt (hT _ (hobs c hc)))).symm
  · rw [hitLocal, hitRemote, hm.visible hw hc,
      hm.wasVisible hw.undosSorted (Global.observedAll_refl _) hc]

theorem editInTransaction_cases (h : b.editInTransaction cfg edits = some (b', op)) :
    ∃ clock snapshot patch edit history, b.lamportClock.tick = some (b.lamportClock, clock) ∧
      b.snapshot.applyLocalEdit cfg (edits.map fun e =>
        (⟨b.snapshot.toOffset e.1.start, b.snapshot.toOffset e.1.stop⟩, e.2)) b.lamportClock =
          some (snapshot, patch, edit) ∧
      (b.history.push (.edit edit)).pushUndo b.lamportClock = some history ∧ op = .edit edit ∧
      b' = { b.publish patch with
        snapshot := { snapshot with version := snapshot.version.observe b.lamportClock }
        history := history
        lamportClock := clock } := by
  unfold Buffer.editInTransaction at h
  split at h
  · cases h
  rename_i T clock htick
  obtain rfl := (Lamport.tick_eq_some htick).1
  dsimp only at h
  split at h
  · cases h
  rename_i snapshot patch edit hlocal
  split at h
  · cases h
  rename_i history hpush
  cases h
  exact ⟨clock, snapshot, patch, edit, history, htick, hlocal, hpush, rfl, rfl⟩

theorem pushUndo_spec {h h' : History} {T : Lamport} (heq : h.pushUndo T = some h') :
    0 < h.transactionDepth ∧ ∀ e ∈ h'.editIds, e ∈ h.editIds ∨ e = T := by
  unfold History.pushUndo at heq
  split at heq
  · cases heq
  rename_i hdepth
  refine ⟨Nat.pos_of_ne_zero hdepth, fun e he => ?_⟩
  split at heq
  · split at heq
    · cases heq
    · rename_i entry stack hstack
      cases heq
      obtain ⟨x, hx, hex⟩ := History.mem_editIds.mp he
      rw [History.mem_editIds]
      rw [mem_cons] at hx
      rcases hx with (rfl | hx) | hx
      · rcases List.mem_append.mp hex with hex | hex
        · exact .inl ⟨entry, .inl (by rw [hstack]; simp), hex⟩
        · exact .inr (List.mem_singleton.mp hex)
      · exact .inl ⟨x, .inl (by rw [hstack]; simp [hx]), hex⟩
      · exact .inl ⟨x, .inr hx, hex⟩
  · cases heq
    exact .inl he

theorem toOffset_ranges (h : ∀ e ∈ edits, isCharBoundary s.visibleText e.1.start = true ∧
      isCharBoundary s.visibleText e.1.stop = true) :
    edits.map (fun e => ((⟨s.toOffset e.1.start, s.toOffset e.1.stop⟩ : Range), e.2)) = edits := by
  conv_rhs => rw [← List.map_id edits]
  refine map_congr_left (fun e he => ?_)
  rw [toOffset_of_boundary (h e he).1, toOffset_of_boundary (h e he).2]
  rfl

/-- **A local edit can be made** as soon as the clock is ahead of the base text. Its ranges do
not matter for how its text is filed, so the operation may be one without any. -/
theorem WorldInv.applyLocalEdit_isSome (hw : WorldInv baseText w) (cfg : Profile) (hne : edits ≠ [])
    (hclock : 2 ≤ (w.bufs r).lamportClock.value)
    (hmax : (w.bufs r).lamportClock.value < Lamport.SEQ_MAX)
    (hv : ValidRanges 0 (edits.map Prod.fst) (w.bufs r).text.length) :
    ((w.bufs r).snapshot.applyLocalEdit cfg edits (w.bufs r).lamportClock).isSome = true := by
  have h := hw.replicas r
  obtain ⟨edit, hedit⟩ : ∃ e : EditOperation, e = ⟨(w.bufs r).lamportClock,
    (w.bufs r).snapshot.version, [], edits.map fun e => normalize e.2⟩ := ⟨_, rfl⟩
  have hfresh : Fresh w.sent (.edit edit) :=
    fresh hw hclock hmax (by rw [hedit]; rfl) (by rw [hedit]; rfl)
  have hT : (w.bufs r).snapshot.version.observed (w.bufs r).lamportClock = false :=
    h.not_observed hclock h.mirrors.witnessed
  have hwf : Wf (byteOf baseText (w.sent ++ [.edit edit])) (w.bufs r).snapshot :=
    h.wf.unseen (by rw [hedit]; exact hT)
  have hbyte := @byteOf_edit _ baseText (hw.causal.snoc hfresh) edit (by simp)
  have hts : edit.timestamp = (w.bufs r).lamportClock := by rw [hedit]
  have htext : edit.newText = edits.map fun e => normalize e.2 := by rw [hedit]
  rw [htext, ← flatMap_def, hts] at hbyte
  obtain ⟨s', patch, ranges, newInsertions, slices, hrun, -⟩ :=
    applyLocalEdit_spec (hwf.editCtx hT) cfg hne hv hbyte
  rw [hrun]
  rfl

/-- **Making an edit keeps the invariant of the group**, and what subscribers know; the
ranges of the text have been replaced. -/
theorem WorldInv.edited (hw : WorldInv baseText w)
    (hv : ValidRanges 0 (edits.map Prod.fst) (w.bufs r).text.length)
    (hb : ∀ e ∈ edits, isCharBoundary (w.bufs r).text e.1.start = true ∧
      isCharBoundary (w.bufs r).text e.1.stop = true)
    (heq : (w.bufs r).editInTransaction cfg edits = some (b', op)) :
    (WorldInv baseText (w.set r b' [op]) ∧ Follows (w.bufs r) b') ∧
      b'.text = replaceRanges (edits.map fun e => (e.1, utf8 (normalize e.2))) (w.bufs r).text := by
  have h := hw.replicas r
  obtain ⟨b, hbuf⟩ : ∃ b, b = w.bufs r := ⟨_, rfl⟩
  rw [← hbuf] at h hv hb heq ⊢
  obtain ⟨clock, snapshot, patch, edit, history, htick, hlocal, hpush, rfl, rfl⟩ :=
    editInTransaction_cases heq
  obtain ⟨hdepth, hids⟩ := pushUndo_spec hpush
  obtain ⟨-, hmax, hval, hrep⟩ := Lamport.tick_eq_some htick
  have hclock : 2 ≤ b.lamportClock.value := h.started (.inl hdepth)
  rw [toOffset_ranges hb] at hlocal
  obtain ⟨hne, hts, hver, htext⟩ := applyLocalEdit_op hlocal
  have hfresh : Fresh w.sent (.edit edit) :=
    fresh hw (r := r) (by rw [← hbuf]; exact hclock) (by rw [← hbuf]; exact hmax)
      (by rw [← hbuf]; exact hts) (by rw [← hbuf]; exact hver)
  have hT : b.snapshot.version.observed b.lamportClock = false :=
    h.not_observed hclock h.mirrors.witnessed
  have hTop : b.snapshot.version.observed (Operation.edit edit).timestamp = false := by
    rw [show (Operation.edit edit).timestamp = b.lamportClock from hts]; exact hT
  have hc := hw.causal.snoc hfresh
  have hmem : Operation.edit edit ∈ w.sent ++ [.edit edit] := by simp
  have hwf := h.wf.unseen hTop
  have hmir := h.mirrors.unseen hfresh hTop
  -- what the loop did
  obtain ⟨s', patch', ranges, newInsertions, slices, hrun, hdone, hlen, hvalid, htext', hcells⟩ :=
    applyLocalEdit_spec (hwf.editCtx hT) cfg hne hv (by
      have := @byteOf_edit _ baseText hc _ hmem
      rw [htext, hts, ← flatMap_def] at this
      exact this)
  have hsame := some.inj (hrun.symm.trans hlocal)
  simp only [Prod.mk.injEq] at hsame
  obtain ⟨rfl, rfl, rfl⟩ := hsame
  have hlen' : ranges.length = (edits.map fun e => normalize e.2).length := by
    rw [hlen, length_map]
  have hrne : ranges ≠ [] := by
    intro hnil
    rw [hnil] at hlen
    exact hne (eq_nil_of_length_eq_zero hlen.symm)
  have hlt : ∀ t, b.snapshot.version.observed t = true → t < b.lamportClock :=
    fun t ht => hfresh.lt_of_observed ht
  rw [local_eq_remote hwf hmir hlt] at hcells
  -- the document
  have hdoc := hw.doc.snoc_edit hfresh hlen' hrne (by
    have := congrArg List.length h.mirrors.ids
    rw [length_map] at this
    rw [← this]
    exact hvalid)
  have hmir' := hmir.applyEdit hwf hdoc hc hmem (Global.observedAll_refl _) hTop hdone.undoMap hcells
  have hnd : ((cellsOf s'.fragments).map Cell.id).Nodup := by
    rw [show (cellsOf s'.fragments).map Cell.id = _ from hmir'.ids]
    exact hdoc.nodup.filter _
  have hwf' := hwf.edit hT hdone hnd
  rw [← Doc.of_snoc] at hdoc hmir'
  refine ⟨⟨hw.made hfresh (by rw [← hbuf]; exact hclock) (by rw [← hbuf]; rfl) (by rw [← hbuf]; rfl)
    hdoc ?_, ?_⟩, htext'⟩
  · refine ⟨by rw [hdone.version]; exact hwf', by rw [hdone.version]; exact hmir', hrep.trans h.replica,
      ?_, ?_, ?_, fun x hx => mem_append_left _ (h.deferred x hx), h.queued, ?_, ?_⟩
    · dsimp only
      rw [hdone.version]
      exact clock_observe h.clock hval
    · intro _
      dsimp only
      omega
    · intro x hx hxr
      rw [hdone.version]
      rcases List.mem_append.mp hx with hx | hx
      · exact Global.observed_observe_of (h.own x hx hxr)
      · rw [List.mem_singleton.mp hx]
        exact Global.observed_observe_self ..
    · dsimp only
      rw [hdone.version]
      exact h.based.observe (by omega) hfresh.not_base
    · intro e he
      rcases hids e he with he | rfl
      · obtain ⟨x, hx, h1, h2⟩ := h.edits e he
        exact ⟨x, mem_append_left _ hx, h1, h2⟩
      · exact ⟨_, hmem, rfl, h.replica⟩
  · refine Follows.of_publish rfl hdone.patch ?_ hdone.remoteId
    rw [hdone.version]
    exact Global.observedAll_observe _ (Global.observedAll_refl _)

theorem undoOrRedo_cases {transaction : Transaction}
    (h : b.undoOrRedo transaction = some (b', op)) :
    ∃ clock undo, b.lamportClock.tick = some (b.lamportClock, clock) ∧ op = .undo undo ∧
      undo = ⟨b.lamportClock, b.snapshot.version, transaction.editIds.dedup.map
        fun e => (e, b.snapshot.undoMap.undoCount e + 1)⟩ ∧
      b' = { b.publish (b.snapshot.applyUndo undo).2 with
        snapshot := { (b.snapshot.applyUndo undo).1 with
          version := b.snapshot.version.observe b.lamportClock }
        lamportClock := clock
        history := b.history.push (.undo undo) } := by
  unfold Buffer.undoOrRedo Buffer.undoOperations at h
  cases htick : b.lamportClock.tick with
  | none => simp [htick] at h
  | some r =>
    obtain ⟨T, clock⟩ := r
    obtain rfl := (Lamport.tick_eq_some htick).1
    simp only [htick, Option.some.injEq, Prod.mk.injEq] at h
    obtain ⟨rfl, rfl⟩ := h
    exact ⟨clock, _, rfl, rfl, rfl, rfl⟩

/-- **Making an undo keeps the invariant of the group**, and what subscribers know. -/
theorem WorldInv.undone (hw : WorldInv baseText w) {transaction : Transaction}
    (hclock : 2 ≤ (w.bufs r).lamportClock.value)
    (hids : ∀ e ∈ transaction.editIds, ∃ op, Operation.edit op ∈ w.sent ∧ op.timestamp = e ∧
      op.timestamp.replicaId = r)
    (heq : (w.bufs r).undoOrRedo transaction = some (b', op)) :
    WorldInv baseText (w.set r b' [op]) ∧ Follows (w.bufs r) b' := by
  have h := hw.replicas r
  obtain ⟨b, hbuf⟩ : ∃ b, b = w.bufs r := ⟨_, rfl⟩
  obtain ⟨clock, undo, htick, rfl, hundo, rfl⟩ := undoOrRedo_cases heq
  rw [← hbuf] at h hclock htick hundo ⊢
  obtain ⟨-, hmax, hval, hrep⟩ := Lamport.tick_eq_some htick
  have hts : undo.timestamp = b.lamportClock := by rw [hundo]
  have hver : undo.version = b.snapshot.version := by rw [hundo]
  have hfst : undo.counts.map Prod.fst = transaction.editIds.dedup := by
    rw [hundo, List.map_map]
    exact List.map_id _
  have hfresh : Fresh w.sent (.undo undo) :=
    fresh hw (r := r) (by rw [← hbuf]; exact hclock) (by rw [← hbuf]; exact hmax)
      (by rw [← hbuf]; exact hts) (by rw [← hbuf]; exact hver)
  have hT : b.snapshot.version.observed undo.timestamp = false := by
    rw [hts]; exact h.not_observed hclock h.mirrors.witnessed
  have hc := hw.causal.snoc hfresh
  have hmem : Operation.undo undo ∈ w.sent ++ [.undo undo] := by simp
  have hwf := h.wf.unseen (show b.snapshot.version.observed (Operation.undo undo).timestamp = false from hT)
  have hmir := h.mirrors.unseen hfresh hT
  have hknown : undo.Known b.snapshot.version := by
    refine ⟨by rw [hfst]; exact nodup_dedup _, ?_, ?_⟩ <;> intro e he <;>
      rw [hfst, mem_dedup] at he <;> obtain ⟨x, hx, rfl, hxr⟩ := hids e he
    · exact h.own _ hx hxr
    · exact hw.causal.not_base _ hx
  have hdoc := hw.doc.snoc_undo hfresh (by rw [hver]; exact hknown)
  have hdone := BufferSnapshot.applyUndo_spec hwf.ids hwf.filed hwf.slicesSorted hwf.visibleText
    hwf.deletedText undo
  have hmir' := hmir.applyUndo hwf hdoc hc hmem (by rw [hver]; exact Global.observedAll_refl _) hT hdone
  have hwf' := hwf.undo hT hknown hdone
  rw [hts] at hmir' hwf'
  rw [← Doc.of_snoc] at hdoc hmir'
  refine ⟨hw.made hfresh (by rw [← hbuf]; exact hclock) (by rw [← hbuf]; exact hts)
    (by rw [← hbuf]; exact hver) hdoc ?_, ?_⟩
  · refine ⟨hwf', hmir', hrep.trans h.replica, clock_observe h.clock hval, fun _ => ?_, ?_,
      fun x hx => mem_append_left _ (h.deferred x hx), h.queued,
      h.based.observe (by omega) (by rw [← hts]; exact hfresh.not_base), ?_⟩
    · dsimp only
      omega
    · intro x hx hxr
      rcases List.mem_append.mp hx with hx | hx
      · exact Global.observed_observe_of (h.own x hx hxr)
      · rw [List.mem_singleton.mp hx, show (Operation.undo undo).timestamp = _ from hts]
        exact Global.observed_observe_self ..
    · intro e he
      obtain ⟨x, hx, h1, h2⟩ := h.edits e he
      exact ⟨x, mem_append_left _ hx, h1, h2⟩
  · exact Follows.of_publish rfl hdone.patch
      (Global.observedAll_observe _ (Global.observedAll_refl _)) hdone.remoteId

/-! ## Steps after steps -/

section

variable (w : World) (r : Nat) (b : Buffer) (ops : List Operation)

@[simp] theorem World.bufs_set :
    (w.set r b ops).bufs r = b := by simp [World.set]

@[simp] theorem World.sent_set :
    (w.set r b ops).sent = w.sent ++ ops := rfl

end

@[simp] theorem World.set_set (w : World) (r : Nat) (b b' : Buffer) (ops ops' : List Operation) :
    (w.set r b ops).set r b' ops' = w.set r b' (ops ++ ops') := by
  simp [World.set]

theorem WorldInv.next {ops ops' : List Operation}
    (h : WorldInv baseText (w.set r b ops) ∧ Follows (w.bufs r) b)
    (h' : WorldInv baseText ((w.set r b ops).set r b' ops') ∧
      Follows ((w.set r b ops).bufs r) b') :
    WorldInv baseText (w.set r b' (ops ++ ops')) ∧ Follows (w.bufs r) b' := by
  rw [World.set_set, World.bufs_set] at h'
  exact ⟨h'.1, h.2.trans h'.2⟩

theorem WorldInv.remembered (hw : WorldInv baseText w) {history : History}
    (hh : (w.bufs r).history.NoMore history) :
    WorldInv baseText (w.set r { w.bufs r with history := history } []) ∧
      Follows (w.bufs r) { w.bufs r with history := history } :=
  ⟨hw.quiet ((hw.replicas r).of_history rfl rfl rfl hh), Follows.of_eq rfl rfl⟩

theorem WorldInv.startTransactionAt (hw : WorldInv baseText w) {now : Nat} {id : Option Lamport}
    (heq : (w.bufs r).startTransactionAt now = some (b', id)) :
    WorldInv baseText (w.set r b' []) ∧ Follows (w.bufs r) b' := by
  have h := hw.replicas r
  unfold Buffer.startTransactionAt History.startTransaction at heq
  dsimp only at heq
  split at heq
  · cases heq
  rename_i history clock id' hstart
  cases heq
  refine ⟨hw.quiet ?_, Follows.of_eq rfl rfl⟩
  split at hstart
  · split at hstart
    · cases hstart
    rename_i T clock' htick
    obtain ⟨rfl, rfl, -⟩ := hstart
    obtain ⟨rfl, -, hval, hrep⟩ := Lamport.tick_eq_some htick
    refine ⟨h.wf, h.mirrors, hrep.trans h.replica, ?_, ?_, h.own, h.deferred, h.queued, h.based, ?_⟩
    · intro q
      have := h.clock q
      dsimp only
      omega
    · intro _
      have := h.clock 0
      dsimp only
      omega
    · intro e he
      exact h.edits e he
  · rename_i hdepth
    obtain ⟨rfl, rfl, -⟩ := hstart
    exact ⟨h.wf, h.mirrors, h.replica, h.clock, fun _ => h.started (.inl (by omega)), h.own,
      h.deferred, h.queued, h.based, h.edits⟩

theorem endTransactionAt_eq {now : Nat} (heq : b.endTransactionAt now = some b') :
    b'.snapshot = b.snapshot ∧ b'.lamportClock = b.lamportClock := by
  unfold Buffer.endTransactionAt at heq
  split at heq
  · cases heq
  · cases heq
    exact ⟨rfl, rfl⟩
  · cases heq
    exact ⟨rfl, rfl⟩

theorem WorldInv.endTransactionAt (hw : WorldInv baseText w) {now : Nat}
    (heq : (w.bufs r).endTransactionAt now = some b') :
    WorldInv baseText (w.set r b' []) ∧ Follows (w.bufs r) b' := by
  unfold Buffer.endTransactionAt at heq
  split at heq
  · cases heq
  · rename_i history hend
    cases heq
    exact hw.remembered (History.noMore_endTransaction hend)
  · rename_i history entry hend
    cases heq
    exact hw.remembered ((History.noMore_endTransaction hend).trans (History.noMore_group _))

theorem WorldInv.edit (hw : WorldInv baseText w) {startedAt endedAt : Nat}
    (hv : ValidRanges 0 (edits.map Prod.fst) (w.bufs r).text.length)
    (hb : ∀ e ∈ edits, isCharBoundary (w.bufs r).text e.1.start = true ∧
      isCharBoundary (w.bufs r).text e.1.stop = true)
    (heq : (w.bufs r).edit cfg edits startedAt endedAt = some (b', op)) :
    (WorldInv baseText (w.set r b' [op]) ∧ Follows (w.bufs r) b') ∧
      b'.text = replaceRanges (edits.map fun e => (e.1, utf8 (normalize e.2))) (w.bufs r).text := by
  unfold Buffer.edit at heq
  split at heq
  · cases heq
  rename_i b₁ id hstart
  split at heq
  · cases heq
  rename_i b₂ op' hedit
  obtain ⟨b₃, hend, rfl, rfl⟩ := map_eq_some_pair heq
  have h₁ := hw.startTransactionAt hstart
  have htext : b₁.text = (w.bufs r).text := by
    unfold Buffer.startTransactionAt at hstart
    split at hstart
    · cases hstart
    · rw [← (some_pair_inj hstart).1]
      rfl
  obtain ⟨hedited, hreplaced⟩ := h₁.1.edited (r := r)
    (by rw [World.bufs_set, htext]; exact hv) (by rw [World.bufs_set, htext]; exact hb)
    (by rw [World.bufs_set]; exact hedit)
  rw [World.bufs_set, htext] at hreplaced
  have h₂ := WorldInv.next h₁ hedited
  refine ⟨WorldInv.next h₂ (h₂.1.endTransactionAt (r := r) (by rw [World.bufs_set]; exact hend)), ?_⟩
  rw [← hreplaced, Buffer.text, (endTransactionAt_eq hend).1, Buffer.text]

theorem WorldInv.undoneAll {entries : List HistoryEntry} {ops : List Operation}
    (hw : WorldInv baseText w) (hids : ∀ x ∈ entries, ∀ e ∈ x.transaction.editIds, ∃ op,
      Operation.edit op ∈ w.sent ∧ op.timestamp = e ∧ op.timestamp.replicaId = r)
    (hclock : entries ≠ [] → 2 ≤ (w.bufs r).lamportClock.value)
    (heq : Buffer.undoOrRedoAll entries (w.bufs r) = some (b', ops)) :
    WorldInv baseText (w.set r b' ops) ∧ Follows (w.bufs r) b' := by
  induction entries generalizing w ops with
  | nil =>
    cases heq
    exact ⟨hw.quiet (hw.replicas r), Follows.refl _⟩
  | cons x entries ih =>
    unfold Buffer.undoOrRedoAll at heq
    split at heq
    · cases heq
    rename_i b₁ op hundo
    obtain ⟨⟨b₂, ops'⟩, hall, rfl, rfl⟩ := map_eq_some_pair heq
    have h₁ := hw.undone (hclock (by simp)) (hids x (by simp)) hundo
    refine WorldInv.next h₁ (ih h₁.1 (fun y hy e he => ?_) (fun _ => ?_)
      (by rw [World.bufs_set]; exact hall))
    · obtain ⟨o, ho, h2⟩ := hids y (mem_cons_of_mem _ hy) e he
      exact ⟨o, mem_append_left _ ho, h2⟩
    · obtain ⟨clock, undo, htick, -, -, rfl⟩ := undoOrRedo_cases hundo
      have := (Lamport.tick_eq_some htick).2.2.1
      have := hclock (by simp)
      rw [World.bufs_set]
      dsimp only
      omega

theorem WorldInv.takes (hw : WorldInv baseText w) {history : History} {entries : List HistoryEntry}
    {ops : List Operation} (ht : (w.bufs r).history.Takes history entries)
    (heq : Buffer.undoOrRedoAll entries { w.bufs r with history := history } = some (b', ops)) :
    WorldInv baseText (w.set r b' ops) ∧ Follows (w.bufs r) b' := by
  have h := hw.replicas r
  have h₁ := hw.remembered ht.noMore
  refine WorldInv.next h₁ (h₁.1.undoneAll (r := r) (fun x hx e he => ?_) (fun hne => ?_)
    (by rw [World.bufs_set]; exact heq))
  · rw [World.sent_set, append_nil]
    exact h.edits e (History.mem_editIds.mpr ⟨x, ht.mem x hx, he⟩)
  · rw [World.bufs_set]
    refine h.started ?_
    obtain ⟨x, hx⟩ := exists_mem_of_ne_nil _ hne
    rcases ht.mem x hx with hx | hx
    · exact .inr (.inl (ne_nil_of_mem hx))
    · exact .inr (.inr (ne_nil_of_mem hx))

theorem WorldInv.actOn (hw : WorldInv baseText w) {res : Option (History × Option HistoryEntry)}
    {made : Option Operation}
    (ht : ∀ history entry, res = some (history, entry) →
      (w.bufs r).history.Takes history entry.toList)
    (heq : (w.bufs r).actOn res = some (b', made)) :
    WorldInv baseText (w.set r b' made.toList) ∧ Follows (w.bufs r) b' := by
  unfold Buffer.actOn at heq
  split at heq
  · cases heq
  · rename_i history
    cases heq
    exact hw.remembered (ht history none rfl).noMore
  · rename_i history entry
    split at heq
    · cases heq
    rename_i b₁ op' hundo
    cases heq
    refine hw.takes (ht history (some entry) rfl) ?_
    simp only [toList_some, Buffer.undoOrRedoAll, hundo, map_some]

end

end SpkEditor
