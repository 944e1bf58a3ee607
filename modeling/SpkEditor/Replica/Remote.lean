import SpkEditor.Replica.Delivery
import SpkEditor.Replica.Local

/-!
# Receiving operations

`apply_op` on an operation whose author's version has been observed succeeds, and keeps
the invariant of the replica (`applyOp_spec`). The loops of `apply_ops` and
`flush_deferred_ops` therefore always succeed, and decide what an `Inbox` decides
(`applyOps_spec`).
-/

namespace SpkEditor

open List

namespace Buffer

/-- The operation itself, if `apply_op` is called on it and does not ignore it. -/
def appliedBy (b : Buffer) (op : Operation) : List Operation :=
  if b.canApplyOp op && !b.snapshot.version.observed op.timestamp then [op] else []

/-- What the loop of `apply_ops` applies. -/
def receiveLog (cfg : Profile) : List Operation → Buffer → List Operation
  | [], _ => []
  | op :: ops, b =>
    let b := { b with history := b.history.push op }
    b.appliedBy op ++ match b.applyOrDefer cfg op [] with
      | none => []
      | some (b, _) => receiveLog cfg ops b

/-- What the loop of `flush_deferred_ops` applies. -/
def retryLog (cfg : Profile) : List Operation → Buffer → List Operation
  | [], _ => []
  | op :: ops, b =>
    b.appliedBy op ++ match b.applyOrDefer cfg op [] with
      | none => []
      | some (b, _) => retryLog cfg ops b

/-- The operations that `apply_ops` applies, in order. -/
def applyOpsLog (cfg : Profile) (b : Buffer) (ops : List Operation) : List Operation :=
  receiveLog cfg ops b ++ match receiveOps cfg ops b [] with
    | none => []
    | some (b, deferred) =>
      retryLog cfg (b.deferredOps.insert deferred)
        { b with deferredReplicas := [], deferredOps := [] }

/-- One call of `apply_ops` after another. -/
def deliver (cfg : Profile) : List (List Operation) → Buffer → Option Buffer
  | [], b => some b
  | ops :: batches, b =>
    match b.applyOps cfg ops with
    | none => none
    | some b => deliver cfg batches b

/-- The operations that these calls apply, in order. -/
def deliverLog (cfg : Profile) : List (List Operation) → Buffer → List Operation
  | [], _ => []
  | ops :: batches, b =>
    b.applyOpsLog cfg ops ++ match b.applyOps cfg ops with
      | none => []
      | some b => deliverLog cfg batches b

/-- What a buffer decides by. -/
def inbox (b : Buffer) (deferred log : List Operation) : Inbox :=
  ⟨b.snapshot.version, b.deferredReplicas, deferred, log⟩

end Buffer

section

variable {baseText : List Char} {sent : List Operation} {r : Nat} {b : Buffer} {op : Operation}
  {w : World}

/-! ## One operation -/

theorem clock_observe_remote {v : Global} {c t : Lamport} (h : ∀ q, v.get q < c.value) (q : Nat) :
    (v.observe t).get q < (c.observe t).value := by
  have := h q
  rw [Global.get_observe, Lamport.observe_value]
  split <;> omega

theorem ReplicaInv.observe (h : ReplicaInv baseText sent r b) (hc : Causal sent) (hop : op ∈ sent)
    {s : BufferSnapshot} (subscriptions : List Patch) (hver : s.version = b.snapshot.version)
    (hwf : Wf (byteOf baseText sent) { s with version := b.snapshot.version.observe op.timestamp })
    (hmir : Mirrors (Doc.of baseText sent) sent
      { s with version := b.snapshot.version.observe op.timestamp }) :
    ReplicaInv baseText sent r
      ({ b with snapshot := s, subscriptions := subscriptions }.observe op.timestamp) := by
  have hpos : 0 < op.timestamp.value := lt_of_le_of_lt (Nat.zero_le _) (hc.clock op hop 0)
  unfold Buffer.observe
  rw [hver]
  refine ⟨hwf, hmir, h.replica, clock_observe_remote h.clock, fun hs => ?_,
    fun x hx hxr => Global.observed_observe_of (h.own x hx hxr), h.deferred, h.queued,
    h.based.observe hpos (hc.not_base op hop), h.edits⟩
  have := h.started hs
  rw [Lamport.observe_value]
  omega

section

variable (cfg : Profile) (h : ReplicaInv baseText sent r b) (hc : Causal sent)
  (hdoc : DocInv baseText sent (Doc.of baseText sent)) (hop : op ∈ sent)
include h hc hdoc hop

/-- **`apply_op` on an operation whose author's version has been observed.** -/
theorem applyOp_spec (hv : b.snapshot.version.observedAll op.version = true) :
    ∃ b', b.applyOp cfg op = some b' ∧ ReplicaInv baseText sent r b' ∧ Follows b b' ∧
      b'.snapshot.version = b.snapshot.version.observe op.timestamp ∧
      b'.deferredOps = b.deferredOps ∧ b'.deferredReplicas = b.deferredReplicas := by
  cases hT : b.snapshot.version.observed op.timestamp with
  | true =>
    refine ⟨b, ?_, h, Follows.refl b, (Global.observe_of_observed hT).symm, rfl, rfl⟩
    exact if_pos hT
  | false =>
    have hseen : b.snapshot.version.observedAll b.snapshot.version = true :=
      Global.observedAll_refl _
    cases op with
    | edit edit =>
      obtain ⟨T, version, ranges, texts⟩ := edit
      have hholds := hdoc.holds _ hop
      obtain ⟨s', patch, newInsertions, slices, hrun, hdone, hcells⟩ :=
        applyRemoteEdit_spec (h.wf.editCtx hT) cfg (fun t ht => hc.lt_of_observed hop ht)
          hholds.ranges hholds.length
          (by rw [h.mirrors.countP_seen hv]; exact hholds.valid) (byteOf_edit hc hop)
      have hmir := h.mirrors.applyEdit h.wf hdoc hc hop hv hT hdone.undoMap hcells
      have hnd : ((cellsOf s'.fragments).map Cell.id).Nodup := by
        rw [show (cellsOf s'.fragments).map Cell.id = _ from hmir.ids]
        exact hdoc.nodup.filter _
      have hwf := h.wf.edit hT hdone hnd
      refine ⟨_, ?_, h.observe hc hop (b.publish patch).subscriptions hdone.version hwf hmir, ?_, ?_,
        rfl, rfl⟩
      · unfold Buffer.applyOp
        rw [if_neg (by rw [hT]; exact Bool.false_ne_true)]
        dsimp only
        rw [show b.snapshot.applyRemoteEdit cfg ⟨T, version, ranges, texts⟩ = _ from hrun]
        rfl
      · refine Follows.of_publish rfl hdone.patch ?_ hdone.remoteId
        show (s'.version.observe T).observedAll _ = true
        rw [hdone.version]
        exact Global.observedAll_observe _ hseen
      · show s'.version.observe T = _
        rw [hdone.version]
        rfl
    | undo undo =>
      have hdone := BufferSnapshot.applyUndo_spec h.wf.ids h.wf.filed h.wf.slicesSorted
        h.wf.visibleText h.wf.deletedText undo
      have hknown := hdoc.known undo hop
      have hwf := h.wf.undo hT ⟨hknown.nodup,
        fun e he => Global.observed_of_observedAll hv (hknown.observed e he),
        hknown.not_base⟩ hdone
      have hmir := h.mirrors.applyUndo h.wf hdoc hc hop hv hT hdone
      refine ⟨_, ?_, h.observe hc hop (b.publish (b.snapshot.applyUndo undo).2).subscriptions
        hdone.version hwf hmir, ?_, ?_, rfl, rfl⟩
      · unfold Buffer.applyOp
        rw [if_neg (by rw [hT]; exact Bool.false_ne_true)]
        rfl
      · refine Follows.of_publish rfl hdone.patch ?_ hdone.remoteId
        show ((b.snapshot.applyUndo undo).1.version.observe _).observedAll _ = true
        exact Global.observedAll_observe _ hseen
      · show (b.snapshot.applyUndo undo).1.version.observe _ = _
        rw [hdone.version]

theorem applyOrDefer_spec (deferred : List Operation) :
    ∃ b', b.applyOrDefer cfg op deferred =
        some (b', ((b.inbox deferred []).take op).deferred) ∧
      ReplicaInv baseText sent r b' ∧ Follows b b' ∧ b'.deferredOps = b.deferredOps ∧
      ∀ log, b'.inbox ((b.inbox deferred []).take op).deferred (log ++ b.appliedBy op) =
        (b.inbox deferred log).take op := by
  have hready : ∀ log, (b.inbox deferred log).ready op = b.canApplyOp op := fun _ => rfl
  unfold Buffer.applyOrDefer
  cases hcan : b.canApplyOp op with
  | true =>
    have hv : b.snapshot.version.observedAll op.version = true := (Bool.and_eq_true_iff.mp hcan).2
    obtain ⟨b', heq, hinv, hfol, hver, hdef, hrep⟩ := applyOp_spec cfg h hc hdoc hop hv
    refine ⟨b', ?_, hinv, hfol, hdef, fun log => ?_⟩
    · rw [if_pos rfl, heq, Inbox.take_ready ((hready []).trans hcan)]
      rfl
    · rw [Inbox.take_ready ((hready []).trans hcan), Inbox.take_ready ((hready log).trans hcan)]
      have hlog : log ++ b.appliedBy op =
          if b.snapshot.version.observed op.timestamp then log else log ++ [op] := by
        rw [Buffer.appliedBy, hcan, Bool.true_and]
        cases b.snapshot.version.observed op.timestamp <;> simp
      show (⟨b'.snapshot.version, b'.deferredReplicas, deferred, log ++ b.appliedBy op⟩ : Inbox) =
        ⟨b.snapshot.version.observe op.timestamp, b.deferredReplicas, deferred,
          if b.snapshot.version.observed op.timestamp then log else log ++ [op]⟩
      rw [hver, hrep, hlog]
  | false =>
    refine ⟨{ b with deferredReplicas := op.replicaId :: b.deferredReplicas }, ?_,
      ⟨h.wf, h.mirrors, h.replica, h.clock, h.started, h.own, h.deferred, h.queued, h.based,
        h.edits⟩, Follows.of_eq rfl rfl, rfl, fun log => ?_⟩
    · rw [if_neg Bool.false_ne_true, Inbox.take_not_ready ((hready []).trans hcan)]
      rfl
    · rw [Inbox.take_not_ready ((hready []).trans hcan),
        Inbox.take_not_ready ((hready log).trans hcan)]
      simp [Buffer.inbox, Buffer.appliedBy, hcan]

end

theorem applyOrDefer_fst (cfg : Profile) (b : Buffer) (op : Operation) (d d' : List Operation) :
    (b.applyOrDefer cfg op d).map Prod.fst = (b.applyOrDefer cfg op d').map Prod.fst := by
  unfold Buffer.applyOrDefer
  split
  · simp [Option.map_map, Function.comp_def]
  · rfl

theorem ReplicaInv.push (h : ReplicaInv baseText sent r b) (op : Operation) :
    ReplicaInv baseText sent r { b with history := b.history.push op } :=
  h.of_history rfl rfl rfl ⟨fun _ he => he, fun hs => hs⟩

section

variable (cfg : Profile) (hc : Causal sent) (hdoc : DocInv baseText sent (Doc.of baseText sent))
  {ops : List Operation} (hops : ∀ op ∈ ops, op ∈ sent) (h : ReplicaInv baseText sent r b)
include hc hdoc hops h

theorem receiveOps_spec (deferred : List Operation) :
    ∃ b' deferred', Buffer.receiveOps cfg ops b deferred = some (b', deferred') ∧
      ReplicaInv baseText sent r b' ∧ Follows b b' ∧ b'.deferredOps = b.deferredOps ∧
      ∀ log, b'.inbox deferred' (log ++ Buffer.receiveLog cfg ops b) =
        (b.inbox deferred log).takeAll ops := by
  induction ops generalizing b deferred with
  | nil =>
    exact ⟨b, deferred, rfl, h, Follows.refl b, rfl, fun log => by
      simp [Buffer.receiveLog, Inbox.takeAll]⟩
  | cons op ops ih =>
    obtain ⟨b₀, hb₀⟩ : ∃ x, x = { b with history := b.history.push op } := ⟨_, rfl⟩
    have h₀ : ReplicaInv baseText sent r b₀ := by rw [hb₀]; exact h.push op
    obtain ⟨b₁, heq, h₁, hf₁, hd₁, hi₁⟩ := applyOrDefer_spec cfg h₀ hc hdoc (hops op (by simp))
      deferred
    obtain ⟨b₂, deferred₂, heq₂, h₂, hf₂, hd₂, hi₂⟩ := ih
      (fun x hx => hops x (mem_cons_of_mem _ hx)) h₁ ((b₀.inbox deferred []).take op).deferred
    have hf₀ : Follows b b₀ := Follows.of_eq (by rw [hb₀]) (by rw [hb₀])
    refine ⟨b₂, deferred₂, ?_, h₂, hf₀.trans (hf₁.trans hf₂), hd₂.trans (hd₁.trans (by rw [hb₀])),
      fun log => ?_⟩
    · rw [Buffer.receiveOps, ← hb₀, heq]
      exact heq₂
    · have hlog : Buffer.receiveLog cfg (op :: ops) b =
          b₀.appliedBy op ++ Buffer.receiveLog cfg ops b₁ := by
        have hfst := applyOrDefer_fst cfg b₀ op [] deferred
        rw [heq, Option.map_some] at hfst
        obtain ⟨⟨b₁', d'⟩, hr, hfst⟩ := Option.map_eq_some_iff.mp hfst
        obtain rfl : b₁' = b₁ := hfst
        rw [Buffer.receiveLog, ← hb₀, hr]
      have hsame : b.inbox deferred log = b₀.inbox deferred log := by rw [hb₀]; rfl
      rw [hlog, ← append_assoc, hi₂, hi₁, hsame]
      rfl

theorem retryOps_spec (deferred : List Operation) :
    ∃ b' deferred', Buffer.retryOps cfg ops b deferred = some (b', deferred') ∧
      ReplicaInv baseText sent r b' ∧ Follows b b' ∧ b'.deferredOps = b.deferredOps ∧
      ∀ log, b'.inbox deferred' (log ++ Buffer.retryLog cfg ops b) =
        (b.inbox deferred log).takeAll ops := by
  induction ops generalizing b deferred with
  | nil =>
    exact ⟨b, deferred, rfl, h, Follows.refl b, rfl, fun log => by
      simp [Buffer.retryLog, Inbox.takeAll]⟩
  | cons op ops ih =>
    obtain ⟨b₁, heq, h₁, hf₁, hd₁, hi₁⟩ := applyOrDefer_spec cfg h hc hdoc (hops op (by simp))
      deferred
    obtain ⟨b₂, deferred₂, heq₂, h₂, hf₂, hd₂, hi₂⟩ := ih
      (fun x hx => hops x (mem_cons_of_mem _ hx)) h₁ ((b.inbox deferred []).take op).deferred
    refine ⟨b₂, deferred₂, ?_, h₂, hf₁.trans hf₂, hd₂.trans hd₁, fun log => ?_⟩
    · rw [Buffer.retryOps, heq]
      exact heq₂
    · have hlog : Buffer.retryLog cfg (op :: ops) b =
          b.appliedBy op ++ Buffer.retryLog cfg ops b₁ := by
        have hfst := applyOrDefer_fst cfg b op [] deferred
        rw [heq, Option.map_some] at hfst
        obtain ⟨⟨b₁', d'⟩, hr, hfst⟩ := Option.map_eq_some_iff.mp hfst
        obtain rfl : b₁' = b₁ := hfst
        rw [Buffer.retryLog, hr]
      rw [hlog, ← append_assoc, hi₂, hi₁]
      rfl

/-- **`apply_ops` succeeds**, keeps the invariant of the replica, and decides what its inbox
decides. -/
theorem applyOps_spec :
    ∃ b', b.applyOps cfg ops = some b' ∧ ReplicaInv baseText sent r b' ∧ Follows b b' ∧
      ∀ log, b'.inbox b'.deferredOps (log ++ b.applyOpsLog cfg ops) =
        (b.inbox b.deferredOps log).applyOps ops := by
  have hinj : ∀ x ∈ sent, ∀ y ∈ sent, x.timestamp = y.timestamp → x = y :=
    fun x hx y hy => hc.eq_of_timestamp hx hy
  obtain ⟨b₁, d₁, heq₁, h₁, hf₁, hd₁, hi₁⟩ := receiveOps_spec cfg hc hdoc hops h []
  -- what the first loop puts off comes from the batch
  have hsub₁ : ∀ x ∈ d₁, x ∈ sent := by
    intro x hx
    have : d₁ = ((b.inbox [] []).takeAll ops).deferred := congrArg Inbox.deferred (hi₁ [])
    rw [this] at hx
    rcases ((b.inbox [] []).takeAll_spec ops).1 x hx with hx | hx
    · exact absurd hx (not_mem_nil)
    · exact hops x hx
  obtain ⟨hq₁, hm₁⟩ := OperationQueue.insert_spec hinj h₁.queued h₁.deferred hsub₁
  have hqueue : ∀ x ∈ OperationQueue.insert b₁.deferredOps d₁, x ∈ sent := fun x hx =>
    ((hm₁ x).mp hx).elim (h₁.deferred x) (hsub₁ x)
  obtain ⟨b₂, hb₂⟩ : ∃ x : Buffer, x = { b₁ with deferredReplicas := [], deferredOps := [] } :=
    ⟨_, rfl⟩
  have h₂ : ReplicaInv baseText sent r b₂ := by
    rw [hb₂]
    exact ⟨h₁.wf, h₁.mirrors, h₁.replica, h₁.clock, h₁.started, h₁.own, by simp, List.Pairwise.nil,
      h₁.based, h₁.edits⟩
  have hf₂ : Follows b₁ b₂ := Follows.of_eq (by rw [hb₂]) (by rw [hb₂])
  obtain ⟨b₃, d₃, heq₃, h₃, hf₃, hd₃, hi₃⟩ := retryOps_spec cfg hc hdoc hqueue h₂ []
  have hempty : b₃.deferredOps = [] := by rw [hd₃, hb₂]
  have hsub₃ : ∀ x ∈ d₃, x ∈ sent := by
    intro x hx
    have : d₃ = ((b₂.inbox [] []).takeAll (OperationQueue.insert b₁.deferredOps d₁)).deferred :=
      congrArg Inbox.deferred (hi₃ [])
    rw [this] at hx
    rcases ((b₂.inbox [] []).takeAll_spec _).1 x hx with hx | hx
    · exact absurd hx (not_mem_nil)
    · exact hqueue x hx
  obtain ⟨hq₃, hm₃⟩ := OperationQueue.insert_spec hinj h₃.queued h₃.deferred hsub₃
  refine ⟨{ b₃ with deferredOps := OperationQueue.insert b₃.deferredOps d₃ }, ?_, ?_, ?_, ?_⟩
  · rw [Buffer.applyOps, heq₁]
    dsimp only
    rw [Buffer.flushDeferredOps]
    rw [show ({ b₁ with deferredReplicas := [], deferredOps := [] } : Buffer) = b₂ from hb₂.symm, heq₃]
  · exact ⟨h₃.wf, h₃.mirrors, h₃.replica, h₃.clock, h₃.started, h₃.own,
      fun x hx => ((hm₃ x).mp hx).elim (h₃.deferred x) (hsub₃ x), hq₃, h₃.based, h₃.edits⟩
  · exact hf₁.trans (hf₂.trans (hf₃.trans (Follows.of_eq rfl rfl)))
  · intro log
    have hlog : b.applyOpsLog cfg ops = Buffer.receiveLog cfg ops b ++
        Buffer.retryLog cfg (OperationQueue.insert b₁.deferredOps d₁) b₂ := by
      rw [Buffer.applyOpsLog, heq₁, hb₂]
    have hj := hi₁ log
    have hk := hi₃ (log ++ Buffer.receiveLog cfg ops b)
    have hd : d₁ = ((b.inbox [] log).takeAll ops).deferred := congrArg Inbox.deferred hj
    unfold Inbox.applyOps
    rw [hlog, ← append_assoc, hempty]
    have hstart : ({ b.inbox b.deferredOps log with deferred := [] } : Inbox) = b.inbox [] log := rfl
    have hmid : ({ (b.inbox [] log).takeAll ops with blocked := [], deferred := [] } : Inbox) =
        b₂.inbox [] (log ++ Buffer.receiveLog cfg ops b) := by rw [← hj, hb₂]; rfl
    dsimp only
    rw [hstart, hmid, ← hd, show (b.inbox b.deferredOps log).deferred = b.deferredOps from rfl, ← hd₁,
      ← hk]
    rfl

end

end

end SpkEditor
