import SpkEditor.Replica.Convergence

/-!
# Operations arrive in any order

A replica that is handed operations in any order, in batches of any kind and any number
of times applies each of them once, after what its author had seen, and holds back no
operation that it could apply. Once nothing is missing, nothing is held back.
-/

namespace SpkEditor

open List

/-- Everything that the authors of some operations had seen is among them, or has been
observed already. -/
def CausallyClosed (sent : List Operation) (v : Global) (ops : List Operation) : Prop :=
  ∀ op ∈ ops, ∀ x ∈ sent, op.version.observed x.timestamp = true →
    v.observed x.timestamp = true ∨ x ∈ ops

/-- **What calls of `apply_ops` with one batch after another do** to a buffer, where `log` is
what they apply. Operations that were held back before count as delivered. -/
structure Delivered (sent : List Operation) (batches : List (List Operation)) (b b' : Buffer)
    (log : List Operation) : Prop where
  /-- The first operation held back of a replica cannot be applied. -/
  waits : batches ≠ [] → ∀ op ∈ b'.deferredOps,
    (∀ x ∈ b'.deferredOps, x.replicaId = op.replicaId → op.timestamp ≤ x.timestamp) →
    { b' with deferredReplicas := [] }.canApplyOp op = false
  /-- Nothing is applied before what its author had seen. -/
  ordered : ∀ pre op post, log = pre ++ op :: post → ∀ x ∈ sent,
    op.version.observed x.timestamp = true →
    b.snapshot.version.observed x.timestamp = true ∨ x ∈ pre
  /-- Nothing is applied twice, and nothing that had been applied before. -/
  once : log.Nodup ∧ ∀ op ∈ log, b.snapshot.version.observed op.timestamp = false
  applied : ∀ op ∈ log, op ∈ batches.flatten ++ b.deferredOps
  /-- When nothing is missing, everything is applied. -/
  complete : batches ≠ [] →
    CausallyClosed sent b.snapshot.version (batches.flatten ++ b.deferredOps) →
    b'.deferredOps = [] ∧
      b'.snapshot.version = ((batches.flatten ++ b.deferredOps).map Operation.timestamp).foldl
        Global.observe b.snapshot.version ∧
      ∀ op ∈ batches.flatten ++ b.deferredOps,
        log.count op = if b.snapshot.version.observed op.timestamp then 0 else 1

theorem Global.observedAll_foldl {ts : List Lamport} {u v : Global} (hv : u.observedAll v = true)
    (ht : ∀ t ∈ ts, u.observed t = true) : u.observedAll (ts.foldl Global.observe v) = true := by
  induction ts generalizing v with
  | nil => exact hv
  | cons t ts ih =>
    refine ih (Global.observedAll_iff.mpr (fun q => ?_)) (fun x hx => ht x (mem_cons_of_mem _ hx))
    have hq := Global.observedAll_iff.mp hv q
    have hu := Global.observed_iff.mp (ht t (by simp))
    rw [Global.get_observe]
    split
    · rename_i heq
      rw [heq] at hq ⊢
      exact Nat.max_le.mpr ⟨hq, hu⟩
    · exact hq

theorem Global.observed_foldl {ts : List Lamport} {v : Global} :
    (∀ t, v.observed t = true → (ts.foldl Global.observe v).observed t = true) ∧
      ∀ t ∈ ts, (ts.foldl Global.observe v).observed t = true := by
  induction ts generalizing v with
  | nil => exact ⟨fun _ h => h, by simp⟩
  | cons u ts ih =>
    obtain ⟨h1, h2⟩ := @ih (v.observe u)
    refine ⟨fun t ht => h1 t (Global.observed_observe_of ht), fun t ht => ?_⟩
    rcases List.mem_cons.mp ht with rfl | ht
    · exact h1 _ (Global.observed_observe_self ..)
    · exact h2 t ht

theorem Global.observedAll_of_observed {u v : Global}
    (h : ∀ t, v.observed t = true → u.observed t = true) : u.observedAll v = true :=
  Global.observedAll_iff.mpr (fun q => Global.observed_iff.mp
    (h ⟨v.get q, q⟩ (Global.observed_iff.mpr (Nat.le_refl _))))

theorem Global.observedAll_antisymm {u v : Global} (h : u.observedAll v = true)
    (h' : v.observedAll u = true) : u = v :=
  Global.ext_get (fun q => Nat.le_antisymm (Global.observedAll_iff.mp h' q)
    (Global.observedAll_iff.mp h q))

section

variable {baseText : List Char} {cfg : Profile} {remoteId r : Nat} {w : World}
  {sent : List Operation} {b : Buffer}

section

variable (h : ReplicaInv baseText sent r b) (hdoc : DocInv baseText sent (Doc.of baseText sent))
include h hdoc

theorem ReplicaInv.observed_base (hne : normalize baseText ≠ []) :
    b.snapshot.version.observed baseId = true := by
  have hmem : (baseId, 0) ∈ (Doc.base baseText).order := by
    have := byteLen_pos hne
    simp only [Doc.base, List.mem_map, mem_range'_1]
    exact ⟨0, ⟨Nat.le_refl _, by omega⟩, rfl⟩
  rw [← hdoc.baseOrder] at hmem
  exact h.mirrors.base _ (List.mem_filter.mp hmem).1 rfl

theorem ReplicaInv.inboxOk (log : List Operation) :
    (b.inbox b.deferredOps log).Ok baseText sent :=
  ⟨h.queued, h.deferred, h.observed_base hdoc⟩

end

/-- Calls of `apply_ops` succeed, and decide what the inbox decides. -/
theorem deliver_spec (cfg : Profile) (hc : Causal sent) (hdoc : DocInv baseText sent (Doc.of baseText sent))
    {batches : List (List Operation)} (hb : ∀ ops ∈ batches, ∀ op ∈ ops, op ∈ sent)
    (h : ReplicaInv baseText sent r b) :
    ∃ b', Buffer.deliver cfg batches b = some b' ∧
      ∀ log, b'.inbox b'.deferredOps (log ++ Buffer.deliverLog cfg batches b) =
        batches.foldl Inbox.applyOps (b.inbox b.deferredOps log) := by
  induction batches generalizing b with
  | nil => exact ⟨b, rfl, fun log => by simp [Buffer.deliverLog]⟩
  | cons ops batches ih =>
    obtain ⟨b₁, heq₁, h₁, -, hi₁⟩ := applyOps_spec cfg hc hdoc (hb ops (by simp)) h
    obtain ⟨b₂, heq₂, hi₂⟩ := ih (fun x hx => hb x (mem_cons_of_mem _ hx)) h₁
    refine ⟨b₂, ?_, fun log => ?_⟩
    · rw [Buffer.deliver, heq₁]
      exact heq₂
    · rw [Buffer.deliverLog, heq₁]
      rw [← append_assoc, hi₂, hi₁]
      rfl

/-- **Causal delivery.** Operations of a group are delivered to one of its replicas, in
any order, in any batches, with any repetitions. -/
theorem causal_delivery (hw : World.Reachable cfg remoteId baseText w) (r : Nat)
    {batches : List (List Operation)} (hb : ∀ ops ∈ batches, ∀ op ∈ ops, op ∈ w.sent) :
    ∃ b', Buffer.deliver cfg batches (w.bufs r) = some b' ∧
      Delivered w.sent batches (w.bufs r) b' (Buffer.deliverLog cfg batches (w.bufs r)) := by
  have h := hw.inv.replicas r
  have hc := hw.inv.causal
  obtain ⟨b, hbuf⟩ : ∃ b, b = w.bufs r := ⟨_, rfl⟩
  rw [← hbuf] at h ⊢
  obtain ⟨b', heq, hinbox⟩ := deliver_spec cfg hc hw.inv.doc hb h
  refine ⟨b', heq, ?_⟩
  obtain ⟨log, hlog⟩ : ∃ l, l = Buffer.deliverLog cfg batches b := ⟨_, rfl⟩
  have hend := hinbox []
  rw [nil_append, ← hlog] at hend
  rw [← hlog]
  -- without a call nothing happens
  by_cases hne : batches = []
  · subst hne
    have hnil : log = [] := hlog
    rw [hnil]
    refine ⟨fun hx => absurd rfl hx, ?_, by simp, by simp, fun hx => absurd rfl hx⟩
    intro pre op post hcut
    simp at hcut
  have hcalled := Inbox.applyAll_called hc hw.inv.based (h.inboxOk hw.inv.doc []) hne hb
  rw [← hend] at hcalled
  have hrun : Run (Applies w.sent) b.snapshot.version log b'.snapshot.version :=
    hcalled.run _ .nil
  obtain ⟨hnodup, hnew⟩ := nodup_applied hrun
  have hall : ∀ op, op ∈ batches.flatten ++ b.deferredOps ↔
      op ∈ b.deferredOps ∨ op ∈ batches.flatten := fun op => by
    rw [mem_append]; exact or_comm
  have hsent : ∀ op ∈ batches.flatten ++ b.deferredOps, op ∈ w.sent := by
    intro op hop
    rcases List.mem_append.mp hop with hop | hop
    · obtain ⟨ops, hops, hin⟩ := List.mem_flatten.mp hop
      exact hb ops hops op hin
    · exact h.deferred op hop
  have happlied : ∀ op ∈ log, op ∈ batches.flatten ++ b.deferredOps := by
    intro op hop
    exact (hall op).mpr ((hcalled.log op hop).resolve_left (not_mem_nil))
  refine ⟨fun _ op hop hlow => ?_, fun pre op post hcut x hx hsaw =>
    applied_before hc hrun hcut hx hsaw, ⟨List.Nodup.of_map _ hnodup, hnew⟩, happlied,
    fun _ hclosed => ?_⟩
  · have : b'.snapshot.version.observedAll op.version = false := hcalled.waits op hop hlow
    rw [Buffer.canApplyOp]
    rw [this, Bool.and_false]
  · have hdone : b'.deferredOps = [] := by
      refine hcalled.closed (fun op hop x hx hsaw => ?_)
      exact (hclosed op ((hall op).mpr hop) x hx hsaw).imp id (hall x).mp
    have hobs : ∀ op ∈ batches.flatten ++ b.deferredOps,
        b'.snapshot.version.observed op.timestamp = true := by
      intro op hop
      refine (hcalled.accounted op ((hall op).mp hop)).resolve_right (fun hin => ?_)
      have hin' : op ∈ b'.deferredOps := hin
      rw [hdone] at hin'
      exact absurd hin' (not_mem_nil)
    refine ⟨hdone, ?_, fun op hop => ?_⟩
    · refine Global.observedAll_antisymm ?_ ?_
      · refine Global.observedAll_foldl ?_ (fun t ht => ?_)
        · exact Global.observedAll_of_observed hcalled.observed
        · obtain ⟨op, hop, rfl⟩ := List.mem_map.mp ht
          exact hobs op hop
      · rw [version_applied hrun]
        refine Global.observedAll_foldl ?_ (fun t ht => ?_)
        · exact Global.observedAll_of_observed Global.observed_foldl.1
        · obtain ⟨op, hop, rfl⟩ := List.mem_map.mp ht
          exact Global.observed_foldl.2 _ (List.mem_map_of_mem (happlied op hop))
    · split
      · rename_i hold
        rw [count_eq_zero]
        intro hin
        rw [hnew op hin] at hold
        exact Bool.false_ne_true hold
      · rename_i hold
        rw [count_eq_one_of_mem (List.Nodup.of_map _ hnodup)]
        have := (observed_applied hc (Or.inr ⟨op, hsent op hop, rfl⟩) hrun).mp (hobs op hop)
        obtain ⟨y, hy, hts⟩ := List.mem_map.mp (this.resolve_left hold)
        rw [← hc.eq_of_timestamp (mem_applied hrun y hy) (hsent op hop) hts]
        exact hy

/-- Replica 1 makes two edits; replica 2 gets the second one first, and twice. -/
def twoEdits : World :=
  World.after .test [(1, .edit [(⟨1, 1⟩, ['x'])] 0 0), (1, .edit [(⟨0, 1⟩, ['y'])] 9 9)]
    (World.init .test 7 ['a', 'b'])

def firstEdit : Operation := .edit ⟨⟨3, 1⟩, Global.new.observe ⟨1, 0⟩, [⟨1, 1⟩], [['x']]⟩

def secondEdit : Operation :=
  .edit ⟨⟨5, 1⟩, (Global.new.observe ⟨1, 0⟩).observe ⟨3, 1⟩, [⟨0, 1⟩], [['y']]⟩

theorem causal_delivery_twoEdits :
    ∃ b', Buffer.deliver .test [[secondEdit], [firstEdit, secondEdit]] (twoEdits.bufs 2) = some b' ∧
      b'.deferredOps = [] := by
  have hreach : World.Reachable .test 7 ['a', 'b'] twoEdits := ⟨_, World.run_after (by decide)⟩
  obtain ⟨b', heq, hdone⟩ := causal_delivery hreach 2
    (show ∀ ops ∈ [[secondEdit], [firstEdit, secondEdit]], ∀ op ∈ ops, op ∈ twoEdits.sent by decide)
  exact ⟨b', heq, (hdone.complete (by decide) (by unfold CausallyClosed; decide)).1⟩

/-! ## Happens before -/

/-- The author of the second operation had applied the first one. -/
def Operation.AppliedBefore (sent : List Operation) (op' op : Operation) : Prop :=
  op' ∈ sent ∧ op ∈ sent ∧ op.version.observed op'.timestamp = true

end

end SpkEditor
