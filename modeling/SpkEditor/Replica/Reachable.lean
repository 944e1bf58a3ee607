import SpkEditor.Replica.Remote

/-!
# Reachable states

Every action keeps the invariant of the group (`WorldInv.act`), so it holds in every
state the group can get into, whatever its replicas do and in whatever order operations
arrive.
-/

namespace SpkEditor

open List Option

section

variable {baseText : List Char} {cfg : Profile} {remoteId r : Nat} {w w' : World} {b' : Buffer}

/-- **What an action keeps**: the invariant of the group and, unless a subscriber reads its
patch, what subscribers know. -/
theorem WorldInv.act (hw : WorldInv baseText w) {a : Action} {ops : List Operation}
    (hallow : a.Allowed w r) (heq : (w.bufs r).act cfg a = some (b', ops)) :
    WorldInv baseText (w.set r b' ops) ∧ ((∀ i, a ≠ .consume i) → Follows (w.bufs r) b') := by
  have hboth : ∀ {b : Buffer} {os : List Operation},
      WorldInv baseText (w.set r b os) ∧ Follows (w.bufs r) b →
      WorldInv baseText (w.set r b os) ∧ ((∀ i, a ≠ .consume i) → Follows (w.bufs r) b) :=
    fun h => ⟨h.1, fun _ => h.2⟩
  cases a with
  | edit edits startedAt endedAt =>
    obtain ⟨⟨b, op⟩, hedit, rfl, rfl⟩ := map_eq_some_pair heq
    exact hboth (hw.edit hallow.1 hallow.2 hedit).1
  | startTransaction now =>
    obtain ⟨⟨b, id⟩, hstart, rfl, rfl⟩ := map_eq_some_pair heq
    exact hboth (hw.startTransactionAt hstart)
  | endTransaction now =>
    obtain ⟨b, hend, rfl, rfl⟩ := map_eq_some_pair heq
    exact hboth (hw.endTransactionAt hend)
  | finalizeLastTransaction =>
    cases heq
    exact hboth (hw.remembered (History.noMore_finalizeLastTransaction _))
  | groupUntilTransaction transactionId =>
    cases heq
    exact hboth (hw.remembered (History.noMore_groupUntil _ transactionId))
  | setGroupInterval interval =>
    cases heq
    exact hboth (hw.remembered ⟨fun _ he => he, fun hs => hs⟩)
  | undo =>
    obtain ⟨⟨b, made⟩, hundo, rfl, rfl⟩ := map_eq_some_pair heq
    exact hboth (hw.actOn (fun _ _ h => History.takes_popUndo h) hundo)
  | redo =>
    obtain ⟨⟨b, made⟩, hredo, rfl, rfl⟩ := map_eq_some_pair heq
    exact hboth (hw.actOn (fun _ _ h => History.takes_popRedo h) hredo)
  | undoTransaction transactionId =>
    obtain ⟨⟨b, made⟩, hundo, rfl, rfl⟩ := map_eq_some_pair heq
    exact hboth (hw.actOn (fun _ _ h => History.takes_removeFromUndo h) hundo)
  | undoToTransaction transactionId =>
    replace heq : (w.bufs r).undoToTransaction transactionId = some (b', ops) := heq
    unfold Buffer.undoToTransaction at heq
    split at heq
    · cases heq
    · rename_i history entries hsplit
      exact hboth (hw.takes (History.takes_removeFromUndoUntil hsplit) heq)
  | redoToTransaction transactionId =>
    replace heq : (w.bufs r).redoToTransaction transactionId = some (b', ops) := heq
    unfold Buffer.redoToTransaction at heq
    split at heq
    · cases heq
    · rename_i history entries hsplit
      exact hboth (hw.takes (History.takes_removeFromRedo hsplit) heq)
  | applyOps received =>
    obtain ⟨b, happly, rfl, rfl⟩ := map_eq_some_pair heq
    obtain ⟨b₁, heq₁, hinv, hfol, -⟩ := applyOps_spec cfg hw.causal hw.doc hallow (hw.replicas r)
    obtain rfl := some.inj (heq₁.symm.trans happly)
    exact hboth ⟨hw.quiet hinv, hfol⟩
  | subscribe =>
    cases heq
    refine hboth ⟨hw.quiet ((hw.replicas r).of_history rfl rfl rfl (History.NoMore.refl _)),
      fun i p hp => ⟨p, ?_, fun _ h => h⟩, Global.observedAll_refl _, rfl⟩
    have hlt : i < (w.bufs r).subscriptions.length := by
      rw [List.getElem?_eq_some_iff] at hp
      exact hp.1
    rw [Buffer.subscribe, List.getElem?_append_left hlt]
    exact hp
  | consume subscription =>
    cases heq
    exact ⟨hw.quiet ((hw.replicas r).of_history rfl rfl rfl (History.NoMore.refl _)),
      fun hne => absurd rfl (hne subscription)⟩

theorem WorldInv.step {a : Nat × Action} (hw : WorldInv baseText w) (hs : World.Step cfg w a w') :
    WorldInv baseText w' := by
  obtain ⟨hallow, b, ops, heq, rfl⟩ := hs
  exact (hw.act hallow heq).1

/-- **The invariant holds in every state the group can get into.** -/
theorem World.Reachable.inv (h : World.Reachable cfg remoteId baseText w) : WorldInv baseText w := by
  obtain ⟨as, hrun⟩ := h
  exact hrun.keeps (fun _ _ _ hw hs => hw.step hs) (WorldInv.init cfg remoteId baseText)

theorem World.Reachable.run (h : World.Reachable cfg remoteId baseText w) {as : List (Nat × Action)}
    (hrun : Run (World.Step cfg) w as w') : World.Reachable cfg remoteId baseText w' := by
  obtain ⟨as₀, hrun₀⟩ := h
  exact ⟨as₀ ++ as, hrun₀.append hrun⟩

theorem World.Step.other {q : Nat} {a : Action} (hs : World.Step cfg w (q, a) w') (hr : r ≠ q) :
    w'.bufs r = w.bufs r := by
  obtain ⟨-, b, ops, -, rfl⟩ := hs
  simp [World.set, hr]

/-- **Versions only grow**, and a buffer keeps its name. -/
theorem World.Step.version {a : Nat × Action} (hw : WorldInv baseText w)
    (hs : World.Step cfg w a w') (r : Nat) :
    (w'.bufs r).snapshot.version.observedAll (w.bufs r).snapshot.version = true ∧
      (w'.bufs r).snapshot.remoteId = (w.bufs r).snapshot.remoteId := by
  obtain ⟨q, a⟩ := a
  by_cases hr : r = q
  · subst hr
    obtain ⟨hallow, b, ops, heq, rfl⟩ := hs
    rw [World.bufs_set]
    have hfol := (hw.act hallow heq).2
    cases a with
    | consume i =>
      cases heq
      exact ⟨Global.observedAll_refl _, rfl⟩
    | _ => exact ⟨(hfol (by simp)).version, (hfol (by simp)).remoteId⟩
  · rw [hs.other hr]
    exact ⟨Global.observedAll_refl _, rfl⟩

theorem Run.version {as : List (Nat × Action)} (hw : WorldInv baseText w)
    (hrun : Run (World.Step cfg) w as w') (r : Nat) :
    (w'.bufs r).snapshot.version.observedAll (w.bufs r).snapshot.version = true ∧
      (w'.bufs r).snapshot.remoteId = (w.bufs r).snapshot.remoteId := by
  induction hrun with
  | nil => exact ⟨Global.observedAll_refl _, rfl⟩
  | cons hs _ ih =>
    obtain ⟨h1, h2⟩ := hs.version hw r
    obtain ⟨h3, h4⟩ := ih (hw.step hs)
    exact ⟨Global.observedAll_trans h3 h1, h4.trans h2⟩

theorem World.Reachable.named (h : World.Reachable cfg remoteId baseText w) (r : Nat) :
    (w.bufs r).snapshot.remoteId = remoteId := by
  obtain ⟨as, hrun⟩ := h
  exact (hrun.version (WorldInv.init cfg remoteId baseText) r).2

/-! ## What has been observed does not change -/

/-- What was made later has not been observed by a version that the group had before. The
newest operation of its replica that such a version has observed would have to have seen
it, and so on down. -/
theorem not_observed_later {sent ops : List Operation} (hc : Causal sent)
    (hc' : Causal (sent ++ ops)) {op : Operation} (hop : op ∈ ops) :
    ∀ (n : Nat) {v : Global}, Witnessed sent v → v.get op.replicaId = n →
      v.observed op.timestamp = false := by
  intro n
  induction n using Nat.strong_induction_on with
  | _ n ih =>
    intro v hv hn
    have hop' : op ∈ sent ++ ops := mem_append_right _ hop
    have hpos : 0 < op.timestamp.value := lt_of_le_of_lt (Nat.zero_le _) (hc'.clock op hop' 0)
    by_contra hne
    have hle : op.timestamp.value ≤ v.get op.replicaId := by
      exact Global.observed_iff.mp (Bool.of_not_eq_false hne)
    rcases hv op.replicaId (by omega) with hb | ⟨x, hx, ht⟩
    · -- only the base text is there, and this is no operation
      have h1 : v.get op.replicaId = 1 := congrArg Lamport.value hb
      have h0 : op.replicaId = 0 := congrArg Lamport.replicaId hb
      refine hc'.not_base op hop' (Lamport.ext_iff'.mpr ⟨?_, h0⟩)
      show op.timestamp.value = 1
      omega
    · have hxr : x.replicaId = op.replicaId := by simp only [Operation.replicaId, ht]
      have hxv : x.timestamp.value = n := by rw [ht, ← hn]
      have hlt : op.timestamp.value < x.timestamp.value := by
        refine lt_of_le_of_ne (by omega) (fun heq => ?_)
        have heq' : op.timestamp = x.timestamp := Lamport.ext_iff'.mpr ⟨heq, hxr.symm⟩
        have hnd := hc'.nodup
        rw [map_append] at hnd
        exact (List.nodup_append.mp hnd).2.2 _ (List.mem_map_of_mem hx) _
          (List.mem_map_of_mem hop) heq'.symm
      have hsaw := hc'.own x (mem_append_left _ hx) op hop' hxr hlt
      have hsmall := hc.clock x hx op.replicaId
      rw [ih (x.version.get op.replicaId) (by omega) (hc.witnessed x hx) rfl] at hsaw
      exact Bool.false_ne_true hsaw

theorem Run.sent {as : List (Nat × Action)} (hrun : Run (World.Step cfg) w as w') :
    ∃ ops, w'.sent = w.sent ++ ops := by
  induction hrun with
  | nil => exact ⟨[], (append_nil _).symm⟩
  | cons hs _ ih =>
    obtain ⟨-, b, ops, -, rfl⟩ := hs
    obtain ⟨ops', heq⟩ := ih
    exact ⟨ops ++ ops', by rw [heq, World.sent_set, append_assoc]⟩

/-- **What a version saw of the document stays as it was**, whatever is made later. -/
theorem doc_stable {sent : List Operation} {v : Global} : ∀ {ops : List Operation},
    (∀ op ∈ ops, v.observed op.timestamp = false) →
    (Doc.of baseText (sent ++ ops)).view v = (Doc.of baseText sent).view v ∧
      (Doc.of baseText (sent ++ ops)).wasVisible v = (Doc.of baseText sent).wasVisible v ∧
      ∀ t, v.observed t = true → contentOf baseText (sent ++ ops) t = contentOf baseText sent t := by
  intro ops
  induction ops using List.reverseRecOn with
  | nil => intro _; simp
  | append_singleton ops op ih =>
    intro hops
    obtain ⟨h1, h2, h3⟩ := ih (fun x hx => hops x (mem_append_left _ hx))
    have hop := hops op (by simp)
    rw [← append_assoc, Doc.of_snoc, Doc.view_apply hop, Doc.wasVisible_apply hop]
    refine ⟨h1, h2, fun t ht => ?_⟩
    rw [contentOf_snoc (fun heq => ?_), h3 t ht]
    rw [heq, hop] at ht
    exact Bool.false_ne_true ht

end

end SpkEditor
