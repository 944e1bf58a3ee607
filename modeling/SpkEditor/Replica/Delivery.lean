import SpkEditor.Replica.Inv

/-!
# Causal delivery

What `apply_ops` and `flush_deferred_ops` decide, without what applying an operation
does: an `Inbox` is a version, the replicas that are blocked, what has been put off and
what has been applied. Going once through a queue in timestamp order is enough, because
everything an operation waits for has a smaller timestamp than the operation, and no
later operation of the same replica is applied without it (`settled_takeAll`,
`takeAll_closed`).
-/

namespace SpkEditor

open List

variable {op : Operation}

/-! ## What is applied -/

/-- Applying an operation: it is new, and what its author had seen has been observed. -/
def Applies (sent : List Operation) (v : Global) (op : Operation) (v' : Global) : Prop :=
  op ∈ sent ∧ v.observedAll op.version = true ∧ v.observed op.timestamp = false ∧
    v' = v.observe op.timestamp

section

variable {sent log : List Operation} {v v' : Global}

theorem observed_applied (hc : Causal sent) {t : Lamport}
    (ht : (t = baseId ∧ v.observed baseId = true) ∨ ∃ op ∈ sent, op.timestamp = t)
    (h : Run (Applies sent) v log v') :
    v'.observed t = true ↔ v.observed t = true ∨ t ∈ log.map Operation.timestamp := by
  induction h with
  | nil => simp
  | cons hs _ ih =>
    obtain ⟨hop, hv, -, rfl⟩ := hs
    rw [ih (ht.imp (fun hb => ⟨hb.1, Global.observed_observe_of hb.2⟩) id),
      observed_observe_iff hc hop hv ht, map_cons, mem_cons, or_assoc]

section

variable (h : Run (Applies sent) v log v')
include h

theorem version_applied : v' = (log.map Operation.timestamp).foldl Global.observe v := by
  induction h with
  | nil => rfl
  | cons hs _ ih =>
    obtain ⟨-, -, -, rfl⟩ := hs
    exact ih

theorem mem_applied : ∀ op ∈ log, op ∈ sent := by
  induction h with
  | nil => simp
  | cons hs _ ih =>
    intro op hop
    rcases List.mem_cons.mp hop with rfl | hop
    · exact hs.1
    · exact ih op hop

/-- **Nothing is applied twice**, nor what had been observed before. -/
theorem nodup_applied :
    (log.map Operation.timestamp).Nodup ∧ ∀ op ∈ log, v.observed op.timestamp = false := by
  induction h with
  | nil => simp
  | @cons v u v' op log hs hrun ih =>
    obtain ⟨hop, hv, hnew, rfl⟩ := hs
    have hself := Global.observed_observe_self v op.timestamp
    refine ⟨List.nodup_cons.mpr ⟨fun hin => ?_, ih.1⟩, fun x hx => ?_⟩
    · obtain ⟨y, hy, heq⟩ := List.mem_map.mp hin
      have := ih.2 y hy
      rw [heq, hself] at this
      exact Bool.false_ne_true this.symm
    · rcases List.mem_cons.mp hx with rfl | hx
      · exact hnew
      · by_contra hne
        have := ih.2 x hx
        rw [Global.observed_observe_of (Bool.of_not_eq_false hne)] at this
        exact Bool.false_ne_true this.symm

end

/-- **Nothing is applied before what its author had seen.** -/
theorem applied_before (hc : Causal sent) (h : Run (Applies sent) v log v')
    {pre post : List Operation} {x : Operation} (hlog : log = pre ++ op :: post) (hx : x ∈ sent)
    (hsaw : op.version.observed x.timestamp = true) : v.observed x.timestamp = true ∨ x ∈ pre := by
  rw [hlog] at h
  obtain ⟨u, hpre, hpost⟩ := h.split
  cases hpost with
  | cons hs _ =>
    obtain ⟨-, hv, -, -⟩ := hs
    have := (observed_applied hc (.inr ⟨x, hx, rfl⟩) hpre).mp
      (Global.observed_of_observedAll hv hsaw)
    refine this.imp id (fun hin => ?_)
    obtain ⟨y, hy, heq⟩ := List.mem_map.mp hin
    rw [← hc.eq_of_timestamp (mem_applied hpre y hy) hx heq]
    exact hy

end

/-! ## Inboxes -/

/-- A version, the replicas blocked, the operations put off and those applied. -/
structure Inbox where
  version : Global
  blocked : List Nat
  deferred : List Operation
  log : List Operation

namespace Inbox

/-- `can_apply_op`. -/
def ready (i : Inbox) (op : Operation) : Bool :=
  !i.blocked.contains op.replicaId && i.version.observedAll op.version

/-- Apply an operation that is ready, or put it off and block its replica. -/
def take (i : Inbox) (op : Operation) : Inbox :=
  if i.ready op then
    { i with
      version := i.version.observe op.timestamp
      log := if i.version.observed op.timestamp then i.log else i.log ++ [op] }
  else { i with blocked := op.replicaId :: i.blocked, deferred := i.deferred ++ [op] }

def takeAll (i : Inbox) (ops : List Operation) : Inbox := ops.foldl take i

theorem take_ready {i : Inbox} (h : i.ready op = true) : i.take op = { i with
      version := i.version.observe op.timestamp
      log := if i.version.observed op.timestamp then i.log else i.log ++ [op] } := if_pos h

theorem take_not_ready {i : Inbox} (h : i.ready op = false) : i.take op = { i with
      blocked := op.replicaId :: i.blocked
      deferred := i.deferred ++ [op] } := if_neg (by rw [h]; exact Bool.false_ne_true)

end Inbox

theorem Global.observe_of_observed {v : Global} {t : Lamport} (h : v.observed t = true) :
    v.observe t = v := by
  refine Global.ext_get (fun q => ?_)
  rw [Global.get_observe]
  split
  · rename_i hq
    rw [Global.observed_iff] at h
    rw [hq]
    exact max_eq_left h
  · rfl

section

variable {baseText : List Char} {sent ops : List Operation} {i : Inbox} {v : Global}

theorem Inbox.run_take (h : Run (Applies sent) v i.log i.version)
    (hop : op ∈ sent) : Run (Applies sent) v (i.take op).log (i.take op).version := by
  cases hr : i.ready op with
  | false => rw [take_not_ready hr]; exact h
  | true =>
    rw [take_ready hr]
    have hv : i.version.observedAll op.version = true := (Bool.and_eq_true_iff.mp hr).2
    cases hobs : i.version.observed op.timestamp with
    | true => rw [Global.observe_of_observed hobs, if_pos rfl]; exact h
    | false =>
      exact h.snoc ⟨hop, hv, hobs, rfl⟩

theorem Inbox.run_takeAll (h : Run (Applies sent) v i.log i.version) (hops : ∀ op ∈ ops, op ∈ sent) :
    Run (Applies sent) v (i.takeAll ops).log (i.takeAll ops).version := by
  induction ops generalizing i with
  | nil => exact h
  | cons op ops ih =>
    exact ih (run_take h (hops op (by simp))) (fun x hx => hops x (mem_cons_of_mem _ hx))

/-- **Nothing is lost**: what an inbox takes has been observed or is put off. -/
theorem Inbox.take_spec (i : Inbox) (op : Operation) :
    (∀ x, x ∈ (i.take op).deferred → x ∈ i.deferred ∨ x = op) ∧
      (∀ x ∈ i.deferred, x ∈ (i.take op).deferred) ∧
      (∀ t, i.version.observed t = true → (i.take op).version.observed t = true) ∧
      ((i.take op).version.observed op.timestamp = true ∨ op ∈ (i.take op).deferred) := by
  cases hr : i.ready op with
  | false =>
    rw [take_not_ready hr]
    refine ⟨fun x hx => ?_, fun _ hx => mem_append_left _ hx, fun _ ht => ht, .inr (by simp)⟩
    exact (List.mem_append.mp hx).imp id List.mem_singleton.mp
  | true =>
    rw [take_ready hr]
    exact ⟨fun _ hx => .inl hx, fun _ hx => hx, fun _ ht => Global.observed_observe_of ht,
      .inl (Global.observed_observe_self ..)⟩

theorem Inbox.takeAll_spec (i : Inbox) (ops : List Operation) :
    (∀ x, x ∈ (i.takeAll ops).deferred → x ∈ i.deferred ∨ x ∈ ops) ∧
      (∀ x ∈ i.deferred, x ∈ (i.takeAll ops).deferred) ∧
      (∀ t, i.version.observed t = true → (i.takeAll ops).version.observed t = true) ∧
      ∀ op ∈ ops, (i.takeAll ops).version.observed op.timestamp = true ∨
        op ∈ (i.takeAll ops).deferred := by
  induction ops generalizing i with
  | nil => simp [takeAll]
  | cons op ops ih =>
    obtain ⟨h1, h2, h3, h4⟩ := i.take_spec op
    obtain ⟨k1, k2, k3, k4⟩ := ih (i.take op)
    refine ⟨fun x hx => ?_, fun x hx => k2 x (h2 x hx), fun t ht => k3 t (h3 t ht), fun x hx => ?_⟩
    · rw [mem_cons]
      rcases k1 x hx with hx | hx
      · exact (h1 x hx).imp id .inl
      · exact .inr (.inr hx)
    · rcases List.mem_cons.mp hx with rfl | hx
      · exact h4.imp (k3 _) (k2 _)
      · exact k4 x hx

theorem Inbox.mem_log_takeAll {x : Operation} (h : x ∈ (i.takeAll ops).log) : x ∈ i.log ∨ x ∈ ops := by
  induction ops generalizing i with
  | nil => exact .inl h
  | cons op ops ih =>
    rw [mem_cons]
    rcases ih h with h | h
    · cases hr : i.ready op with
      | false =>
        rw [take_not_ready hr] at h
        exact .inl h
      | true =>
        rw [take_ready hr] at h
        split at h
        · exact .inl h
        · exact (List.mem_append.mp h).imp id (fun h => .inl (List.mem_singleton.mp h))
    · exact .inr (.inr h)

/-! ## One pass is enough -/

theorem missing_of_not_observedAll (hw : Witnessed sent v) (hb : Based baseText v) {u : Global}
    (hbase : normalize baseText ≠ [] → u.observed baseId = true) (h : u.observedAll v = false) :
    ∃ x ∈ sent, v.observed x.timestamp = true ∧ u.observed x.timestamp = false := by
  obtain ⟨q, hq⟩ : ∃ q, u.get q < v.get q := by
    by_contra hne
    rw [Global.observedAll_iff.mpr (fun q => Nat.le_of_not_lt (fun hlt => hne ⟨q, hlt⟩))] at h
    exact Bool.false_ne_true h.symm
  rcases hw q (by omega) with hid | ⟨x, hx, ht⟩
  · have h1 : v.get q = 1 := congrArg Lamport.value hid
    have h0 : q = 0 := congrArg Lamport.replicaId hid
    rw [h0] at h1 hq
    have := hbase (hb h1)
    rw [Global.observed_iff] at this
    have h2 : baseId.value = 1 := rfl
    have h3 : baseId.replicaId = 0 := rfl
    rw [h2, h3] at this
    omega
  · refine ⟨x, hx, by rw [ht, Global.observed_iff], ?_⟩
    rw [ht, ← Bool.not_eq_true, Global.observed_iff]
    dsimp only
    omega

/-- The first operation put off of each replica waits for something that none of the
operations to come will bring. -/
structure Inbox.Settled (sent : List Operation) (i : Inbox) (rest : List Operation) : Prop where
  blocked : ∀ op ∈ i.deferred, op.replicaId ∈ i.blocked
  unblocked : ∀ q ∈ i.blocked, ∃ op ∈ i.deferred, op.replicaId = q
  before : ∀ op ∈ i.deferred, ∀ x ∈ rest, op.timestamp < x.timestamp
  waits : ∀ op ∈ i.deferred,
    (∀ x ∈ i.deferred, x.replicaId = op.replicaId → op.timestamp ≤ x.timestamp) →
    ∃ x ∈ sent, op.version.observed x.timestamp = true ∧ i.version.observed x.timestamp = false ∧
      ∀ y ∈ rest, x.timestamp < y.timestamp

theorem not_observed_observe (hc : Causal sent) {x : Operation} (hop : op ∈ sent) (hx : x ∈ sent)
    (hv : v.observedAll op.version = true) (hlt : x.timestamp < op.timestamp)
    (h : v.observed x.timestamp = false) : (v.observe op.timestamp).observed x.timestamp = false := by
  by_contra hne
  rcases (observed_observe_iff hc hop hv (.inr ⟨x, hx, rfl⟩)).mp (Bool.of_not_eq_false hne)
    with hobs | heq
  · rw [h] at hobs
    exact Bool.false_ne_true hobs
  · exact absurd heq (ne_of_lt hlt)

section

variable (hc : Causal sent) (hbased : ∀ op ∈ sent, Based baseText op.version)
  (hbase : normalize baseText ≠ [] → i.version.observed baseId = true)
include hc hbased hbase

theorem Inbox.Settled.take (hop : op ∈ sent) (hsort : ∀ x ∈ ops, op.timestamp < x.timestamp)
    (h : i.Settled sent (op :: ops)) : (i.take op).Settled sent ops := by
  cases hr : i.ready op with
  | true =>
    rw [take_ready hr]
    have hv : i.version.observedAll op.version = true := (Bool.and_eq_true_iff.mp hr).2
    refine ⟨h.blocked, h.unblocked, fun y hy x hx => h.before y hy x (mem_cons_of_mem _ hx),
      fun y hy hlow => ?_⟩
    obtain ⟨x, hx, h1, h2, h3⟩ := h.waits y hy hlow
    exact ⟨x, hx, h1, not_observed_observe hc hop hx hv (h3 op (by simp)) h2,
      fun z hz => h3 z (mem_cons_of_mem _ hz)⟩
  | false =>
    rw [take_not_ready hr]
    refine ⟨?_, ?_, ?_, ?_⟩
    · intro y hy
      rcases List.mem_append.mp hy with hy | hy
      · exact mem_cons_of_mem _ (h.blocked y hy)
      · rw [List.mem_singleton.mp hy]; exact mem_cons_self ..
    · intro q hq
      rcases List.mem_cons.mp hq with rfl | hq
      · exact ⟨op, by simp, rfl⟩
      · obtain ⟨y, hy, heq⟩ := h.unblocked q hq
        exact ⟨y, mem_append_left _ hy, heq⟩
    · intro y hy x hx
      rcases List.mem_append.mp hy with hy | hy
      · exact h.before y hy x (mem_cons_of_mem _ hx)
      · rw [List.mem_singleton.mp hy]; exact hsort x hx
    · intro y hy hlow
      rcases List.mem_append.mp hy with hy | hy
      · obtain ⟨x, hx, h1, h2, h3⟩ := h.waits y hy (fun z hz => hlow z (mem_append_left _ hz))
        exact ⟨x, hx, h1, h2, fun z hz => h3 z (mem_cons_of_mem _ hz)⟩
      · -- the first of its replica: it was not blocked, so it lacks something
        rw [List.mem_singleton.mp hy] at hlow ⊢
        have hfree : op.replicaId ∉ i.blocked := by
          intro hin
          obtain ⟨z, hz, heq⟩ := h.unblocked _ hin
          exact absurd (hlow z (mem_append_left _ hz) heq)
            (not_le_of_gt (h.before z hz op (by simp)))
        have hv : i.version.observedAll op.version = false := by
          rw [Inbox.ready, contains_eq_mem, decide_eq_false hfree, Bool.not_false,
            Bool.true_and] at hr
          exact hr
        obtain ⟨x, hx, h1, h2⟩ :=
          missing_of_not_observedAll (hc.witnessed op hop) (hbased op hop) hbase hv
        exact ⟨x, hx, h1, h2, fun z hz => lt_trans (hc.lt_of_observed hop h1) (hsort z hz)⟩

/-- **After one pass in timestamp order nothing that was put off can be applied.** -/
theorem Inbox.settled_takeAll (hops : ∀ op ∈ ops, op ∈ sent) (hsort : KeyedList.Sorted Operation.timestamp ops)
    (h : i.Settled sent ops) : (i.takeAll ops).Settled sent [] := by
  induction ops generalizing i with
  | nil => exact h
  | cons op ops ih =>
    obtain ⟨hlt, hsort⟩ := List.pairwise_cons.mp hsort
    refine ih (fun hne => (i.take_spec op).2.2.1 _ (hbase hne))
      (fun x hx => hops x (mem_cons_of_mem _ hx)) hsort ?_
    exact h.take hc hbased hbase (hops op (by simp)) hlt

end

theorem Inbox.Settled.not_ready (h : i.Settled sent []) (hop : op ∈ i.deferred)
    (hlow : ∀ x ∈ i.deferred, x.replicaId = op.replicaId → op.timestamp ≤ x.timestamp) :
    i.version.observedAll op.version = false := by
  obtain ⟨x, -, h1, h2, -⟩ := h.waits op hop hlow
  by_contra hne
  rw [Global.observed_of_observedAll (Bool.of_not_eq_false hne) h1] at h2
  exact Bool.false_ne_true h2.symm

/-- **One pass applies everything that nothing is missing for.** -/
theorem Inbox.takeAll_closed (hc : Causal sent) (hbased : ∀ op ∈ sent, Based baseText op.version)
    (hbase : normalize baseText ≠ [] → i.version.observed baseId = true)
    (hops : ∀ op ∈ ops, op ∈ sent) (hsort : KeyedList.Sorted Operation.timestamp ops)
    (hfree : i.blocked = []) (hclosed : ∀ op ∈ ops, ∀ x ∈ sent,
      op.version.observed x.timestamp = true → i.version.observed x.timestamp = true ∨ x ∈ ops) :
    (i.takeAll ops).deferred = i.deferred := by
  induction ops generalizing i with
  | nil => rfl
  | cons op ops ih =>
    obtain ⟨hlt, hsort⟩ := List.pairwise_cons.mp hsort
    have hop : op ∈ sent := hops op (by simp)
    -- what it waits for is smaller, so it has been observed
    have hv : i.version.observedAll op.version = true := by
      by_contra hne
      obtain ⟨x, hx, h1, h2⟩ := missing_of_not_observedAll (hc.witnessed op hop) (hbased op hop)
        hbase (Bool.eq_false_of_not_eq_true hne)
      have hxop := hc.lt_of_observed hop h1
      rcases hclosed op (by simp) x hx h1 with hobs | hin
      · rw [h2] at hobs
        exact Bool.false_ne_true hobs
      · rcases List.mem_cons.mp hin with rfl | hin
        · exact absurd hxop (lt_irrefl _)
        · exact absurd hxop (not_lt_of_gt (hlt x hin))
    have hr : i.ready op = true := by rw [Inbox.ready, hfree, hv]; rfl
    have hstep := take_ready hr
    have hdef : (i.take op).deferred = i.deferred := by rw [hstep]
    refine (ih (fun hne => (i.take_spec op).2.2.1 _ (hbase hne))
      (fun x hx => hops x (mem_cons_of_mem _ hx)) hsort (by rw [hstep]; exact hfree)
      (fun y hy x hx h1 => ?_)).trans hdef
    rcases hclosed y (mem_cons_of_mem _ hy) x hx h1 with hobs | hin
    · exact .inl ((i.take_spec op).2.2.1 _ hobs)
    · rcases List.mem_cons.mp hin with rfl | hin
      · rw [hstep]
        exact .inl (Global.observed_observe_self ..)
      · exact .inr hin

end

section Queue

variable {sent queue ops : List Operation}

theorem OperationQueue.dedupFrom_spec (hinj : ∀ x ∈ sent, ∀ y ∈ sent,
      x.timestamp = y.timestamp → x = y) :
    ∀ (ops : List Operation) (a : Operation), (∀ x ∈ a :: ops, x ∈ sent) →
      (a :: ops).Pairwise (fun x y => x.timestamp ≤ y.timestamp) →
      KeyedList.Sorted Operation.timestamp (dedupFrom a ops) ∧
        ∀ x, x ∈ dedupFrom a ops ↔ x ∈ a :: ops
  | [], a, _, _ => by simp [dedupFrom, KeyedList.Sorted]
  | b :: ops, a, hsent, hsort => by
      obtain ⟨hab, htail⟩ := List.pairwise_cons.mp hsort
      have hskip : ∀ x ∈ a :: ops, x ∈ sent := fun x hx => hsent x (by
        rcases List.mem_cons.mp hx with rfl | hx
        · simp
        · simp [hx])
      unfold dedupFrom
      split
      · rename_i heq
        have hba : a = b := hinj a (hsent a (by simp)) b (hsent b (by simp)) heq
        obtain ⟨h1, h2⟩ := dedupFrom_spec hinj ops a hskip (by rw [hba]; exact htail)
        refine ⟨h1, fun x => ?_⟩
        rw [h2, hba]
        simp
      · rename_i hne
        obtain ⟨h1, h2⟩ := dedupFrom_spec hinj ops b (fun x hx => hsent x (mem_cons_of_mem _ hx))
          htail
        refine ⟨List.pairwise_cons.mpr ⟨fun x hx => ?_, h1⟩, fun x => ?_⟩
        · have hbx : b.timestamp ≤ x.timestamp := by
            rcases List.mem_cons.mp ((h2 x).mp hx) with rfl | hx
            · exact le_refl _
            · exact (List.pairwise_cons.mp htail).1 x hx
          exact lt_of_lt_of_le (lt_of_le_of_ne (hab b (by simp)) hne) hbx
        · rw [mem_cons, h2]
          simp

/-- **The queue files every operation once, in timestamp order.** -/
theorem OperationQueue.insert_spec (hinj : ∀ x ∈ sent, ∀ y ∈ sent, x.timestamp = y.timestamp → x = y)
    (hq : KeyedList.Sorted Operation.timestamp queue) (hqs : ∀ op ∈ queue, op ∈ sent)
    (hops : ∀ op ∈ ops, op ∈ sent) :
    KeyedList.Sorted Operation.timestamp (OperationQueue.insert queue ops) ∧
      ∀ x, x ∈ OperationQueue.insert queue ops ↔ x ∈ queue ∨ x ∈ ops := by
  have hsorted : (KeyedList.sortByKey Operation.timestamp ops).Pairwise
      (fun a b => a.timestamp ≤ b.timestamp) := KeyedList.sortByKey_pairwise ops
  have hmem : ∀ x, x ∈ KeyedList.sortByKey Operation.timestamp ops ↔ x ∈ ops :=
    fun x => KeyedList.mem_sortByKey
  obtain ⟨hd, hdm⟩ : KeyedList.Sorted Operation.timestamp
      (dedup (KeyedList.sortByKey Operation.timestamp ops)) ∧
      ∀ x, x ∈ dedup (KeyedList.sortByKey Operation.timestamp ops) ↔ x ∈ ops := by
    cases hcase : KeyedList.sortByKey Operation.timestamp ops with
    | nil =>
      rw [hcase] at hmem
      exact ⟨List.Pairwise.nil, hmem⟩
    | cons a l =>
      rw [hcase] at hmem hsorted
      obtain ⟨h1, h2⟩ := dedupFrom_spec hinj l a (fun x hx => hops x ((hmem x).mp hx)) hsorted
      exact ⟨h1, fun x => (h2 x).trans (hmem x)⟩
  have hnd : ((dedup (KeyedList.sortByKey Operation.timestamp ops)).map
      Operation.timestamp).Nodup := List.pairwise_map.mpr (hd.imp fun h => ne_of_lt h)
  refine ⟨KeyedList.upsert_sorted hq hnd, fun x => ?_⟩
  rw [OperationQueue.insert, KeyedList.mem_upsert hq hnd, hdm]
  constructor
  · intro hx
    rcases hx with hx | ⟨hx, -⟩
    · exact .inr hx
    · exact .inl hx
  · intro hx
    by_cases hin : x ∈ ops
    · exact .inl hin
    · refine .inr ⟨hx.resolve_right hin, fun hkey => hin ?_⟩
      obtain ⟨y, hy, heq⟩ := List.mem_map.mp hkey
      have hy' := (hdm y).mp hy
      rw [← hinj y (hops y hy') x (hqs x (hx.resolve_right hin)) heq]
      exact hy'

end Queue

/-! ## Calls of `apply_ops` -/

/-- `apply_ops`, where `deferred` is the queue. -/
def Inbox.applyOps (i : Inbox) (ops : List Operation) : Inbox :=
  let j := { i with deferred := [] }.takeAll ops
  let k := { j with blocked := [], deferred := [] }.takeAll
    (OperationQueue.insert i.deferred j.deferred)
  { k with deferred := OperationQueue.insert [] k.deferred }

/-- Nothing that is put off could be applied: not even the first operation of a replica. -/
def Inbox.Waits (i : Inbox) : Prop :=
  ∀ op ∈ i.deferred, (∀ x ∈ i.deferred, x.replicaId = op.replicaId → op.timestamp ≤ x.timestamp) →
    i.version.observedAll op.version = false

/-- What holds of an inbox between calls. -/
structure Inbox.Ok (baseText : List Char) (sent : List Operation) (i : Inbox) : Prop where
  sorted : KeyedList.Sorted Operation.timestamp i.deferred
  sent : ∀ op ∈ i.deferred, op ∈ sent
  base : normalize baseText ≠ [] → i.version.observed baseId = true

/-- What a call of `apply_ops` does to an inbox. -/
structure Inbox.Called (baseText : List Char) (sent ops : List Operation) (i j : Inbox) : Prop where
  ok : j.Ok baseText sent
  waits : j.Waits
  run : ∀ v, Run (Applies sent) v i.log i.version → Run (Applies sent) v j.log j.version
  log : ∀ x ∈ j.log, x ∈ i.log ∨ x ∈ i.deferred ∨ x ∈ ops
  deferred : ∀ x ∈ j.deferred, x ∈ i.deferred ∨ x ∈ ops
  observed : ∀ t, i.version.observed t = true → j.version.observed t = true
  accounted : ∀ x, x ∈ i.deferred ∨ x ∈ ops → j.version.observed x.timestamp = true ∨ x ∈ j.deferred
  closed : (∀ op, op ∈ i.deferred ∨ op ∈ ops → ∀ x ∈ sent, op.version.observed x.timestamp = true →
        i.version.observed x.timestamp = true ∨ x ∈ i.deferred ∨ x ∈ ops) → j.deferred = []

section

variable {baseText : List Char} {sent ops : List Operation} {i : Inbox}

section

variable (hc : Causal sent) (hbased : ∀ op ∈ sent, Based baseText op.version)
include hc hbased

/-- **A call of `apply_ops`.** -/
theorem Inbox.applyOps_called (hi : i.Ok baseText sent) (hops : ∀ op ∈ ops, op ∈ sent) :
    Inbox.Called baseText sent ops i (i.applyOps ops) := by
  have hinj : ∀ x ∈ sent, ∀ y ∈ sent, x.timestamp = y.timestamp → x = y :=
    fun x hx y hy => hc.eq_of_timestamp hx hy
  obtain ⟨j, hj⟩ : ∃ j, j = { i with deferred := [] }.takeAll ops := ⟨_, rfl⟩
  obtain ⟨jd, -, jobs, jacc⟩ := { i with deferred := [] }.takeAll_spec ops
  rw [← hj] at jd jobs jacc
  have hjd : ∀ x ∈ j.deferred, x ∈ ops := fun x hx =>
    (jd x hx).resolve_left (not_mem_nil)
  obtain ⟨queue, hqueue⟩ : ∃ q, q = OperationQueue.insert i.deferred j.deferred := ⟨_, rfl⟩
  obtain ⟨qsorted, qmem⟩ := OperationQueue.insert_spec hinj hi.sorted hi.sent
    (fun x hx => hops x (hjd x hx))
  rw [← hqueue] at qsorted qmem
  have qsent : ∀ op ∈ queue, op ∈ sent := fun x hx =>
    ((qmem x).mp hx).elim (hi.sent x) (fun hx => hops x (hjd x hx))
  obtain ⟨k, hk⟩ : ∃ k, k = { j with blocked := [], deferred := [] }.takeAll queue := ⟨_, rfl⟩
  obtain ⟨kd, -, kobs, kacc⟩ := { j with blocked := [], deferred := [] }.takeAll_spec queue
  rw [← hk] at kd kobs kacc
  have hkd : ∀ x ∈ k.deferred, x ∈ queue := fun x hx =>
    (kd x hx).resolve_left (not_mem_nil)
  obtain ⟨dsorted, dmem⟩ := @OperationQueue.insert_spec sent [] _ hinj List.Pairwise.nil
    (by simp) (fun x hx => qsent x (hkd x hx))
  have dmem' : ∀ x, x ∈ OperationQueue.insert [] k.deferred ↔ x ∈ k.deferred := fun x => by
    rw [dmem]; simp
  have heq : i.applyOps ops = { k with deferred := OperationQueue.insert [] k.deferred } := by
    rw [hk, hqueue, hj]; rfl
  have jbase : normalize baseText ≠ [] → j.version.observed baseId = true :=
    fun hne => jobs _ (hi.base hne)
  rw [heq]
  refine ⟨⟨dsorted, fun x hx => qsent x (hkd x ((dmem' x).mp hx)), fun hne => kobs _ (jbase hne)⟩,
    ?_, ?_, ?_, ?_, fun t ht => kobs t (jobs t ht), ?_, ?_⟩
  · -- the queue is gone through in timestamp order, with nothing blocked
    have hsettled : k.Settled sent [] := by
      rw [hk]
      refine settled_takeAll hc hbased jbase qsent qsorted ⟨?_, ?_, ?_, ?_⟩ <;> simp
    intro op hop hlow
    refine hsettled.not_ready ((dmem' op).mp hop) (fun x hx => hlow x ((dmem' x).mpr hx))
  · intro v hrun
    have h1 : Run (Applies sent) v j.log j.version := by rw [hj]; exact run_takeAll hrun hops
    rw [hk]
    exact run_takeAll h1 qsent
  · intro x hx
    rw [show ({ k with deferred := OperationQueue.insert [] k.deferred } : Inbox).log = k.log from rfl,
      hk] at hx
    rcases mem_log_takeAll hx with hx | hx
    · rw [show ({ j with blocked := [], deferred := [] } : Inbox).log = j.log from rfl, hj] at hx
      exact (mem_log_takeAll hx).imp id .inr
    · exact .inr (((qmem x).mp hx).imp id (hjd x))
  · intro x hx
    exact ((qmem x).mp (hkd x ((dmem' x).mp hx))).imp id (hjd x)
  · intro x hx
    have hin : j.version.observed x.timestamp = true ∨ x ∈ queue := by
      rcases hx with hx | hx
      · exact .inr ((qmem x).mpr (.inl hx))
      · exact (jacc x hx).imp id (fun hd => (qmem x).mpr (.inr hd))
    rcases hin with hobs | hin
    · exact .inl (kobs _ hobs)
    · exact (kacc x hin).imp id (dmem' x).mpr
  · intro hclosed
    have hnil : k.deferred = [] := by
      rw [hk]
      refine takeAll_closed hc hbased jbase qsent qsorted rfl (fun op hop x hx hsaw => ?_)
      have hop' : op ∈ i.deferred ∨ op ∈ ops := ((qmem op).mp hop).imp id (hjd op)
      rcases hclosed op hop' x hx hsaw with hobs | hin | hin
      · exact .inl (jobs _ hobs)
      · exact .inr ((qmem x).mpr (.inl hin))
      · exact (jacc x hin).imp id (fun hd => (qmem x).mpr (.inr hd))
    rw [eq_nil_iff_forall_not_mem]
    intro x hx
    have := (dmem' x).mp hx
    rw [hnil] at this
    exact absurd this (not_mem_nil)

/-- **Calls after calls.** What holds after the last one follows from what each does; only
the last part needs that there is one. -/
theorem Inbox.applyAll_called {batches : List (List Operation)} (hi : i.Ok baseText sent) (hne : batches ≠ [])
    (hb : ∀ ops ∈ batches, ∀ op ∈ ops, op ∈ sent) :
    Inbox.Called baseText sent batches.flatten i (batches.foldl applyOps i) := by
  induction batches generalizing i with
  | nil => exact absurd rfl hne
  | cons ops batches ih =>
    have h₁ := applyOps_called hc hbased hi (hb ops (by simp))
    by_cases hlast : batches = []
    · subst hlast
      simpa using h₁
    have h₂ := ih h₁.ok hlast (fun x hx => hb x (mem_cons_of_mem _ hx))
    rw [foldl_cons, flatten_cons]
    refine ⟨h₂.ok, h₂.waits, fun v hv => h₂.run v (h₁.run v hv), ?_, ?_,
      fun t ht => h₂.observed t (h₁.observed t ht), ?_, ?_⟩
    · intro x hx
      rw [mem_append]
      rcases h₂.log x hx with hx | hx | hx
      · exact (h₁.log x hx).imp id (fun hx => hx.imp id .inl)
      · exact .inr ((h₁.deferred x hx).imp id .inl)
      · exact .inr (.inr (.inr hx))
    · intro x hx
      rw [mem_append]
      rcases h₂.deferred x hx with hx | hx
      · exact (h₁.deferred x hx).imp id .inl
      · exact .inr (.inr hx)
    · intro x hx
      rw [mem_append] at hx
      have hin : x ∈ batches.flatten ∨ (x ∈ i.deferred ∨ x ∈ ops) := by tauto
      rcases hin with hin | hin
      · exact h₂.accounted x (.inr hin)
      · rcases h₁.accounted x hin with hobs | hd
        · exact .inl (h₂.observed _ hobs)
        · exact h₂.accounted x (.inl hd)
    · intro hclosed
      refine h₂.closed (fun op hop x hx hsaw => ?_)
      have hop' : op ∈ i.deferred ∨ op ∈ ops ++ batches.flatten := by
        rw [mem_append]
        rcases hop with hop | hop
        · exact (h₁.deferred op hop).imp id .inl
        · exact .inr (.inr hop)
      rcases hclosed op hop' x hx hsaw with hobs | hin | hin
      · exact .inl (h₁.observed _ hobs)
      · exact (h₁.accounted x (.inl hin)).imp id .inl
      · rcases List.mem_append.mp hin with hin | hin
        · exact (h₁.accounted x (.inr hin)).imp id .inl
        · exact .inr (.inr hin)

end

end

end SpkEditor
