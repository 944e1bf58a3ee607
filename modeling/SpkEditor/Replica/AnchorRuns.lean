import SpkEditor.Replica.Anchors

/-!
# Anchors over whole runs

An anchor is made on one replica and resolved on another, later. It stays placed as the
document grows (`Anchor.Placed.later`), and the order of ranks is never changed
(`rank_lt_iff_later`). So anchors resolve to the same place everywhere, and sort the
same way forever.
-/

namespace SpkEditor

open List

variable {ops : List Operation}

/-- The order of all inserted bytes, which is the same for every replica. -/
def World.order (baseText : List Char) (w : World) : List CharId := (Doc.of baseText w.sent).order

/-- The visible bytes before an anchor: those before its byte, and its byte if the anchor sits
after it. -/
def BufferSnapshot.visibleBefore (s : BufferSnapshot) (order : List CharId) (a : Anchor) : Nat :=
  if a.isMin then 0
  else if a.isMax then order.countP s.shows
  else (order.take (order.idxOf a.byte)).countP s.shows +
    if a.bias = .left ∧ s.shows a.byte = true then 1 else 0

/-- An anchor that was made in a state whose version a replica has observed by now. -/
def World.ObservedAnchor (cfg : Profile) (remoteId : Nat) (baseText : List Char) (w : World) (r : Nat)
    (a : Anchor) : Prop :=
  ∃ w₀ as q offset bias, World.Reachable cfg remoteId baseText w₀ ∧ Run (World.Step cfg) w₀ as w ∧
    (w₀.bufs q).snapshot.anchorAt cfg offset bias = some a ∧
    (w.bufs r).snapshot.version.observedAll (w₀.bufs q).snapshot.version = true

section

variable {baseText : List Char} {cfg : Profile} {remoteId r : Nat} {w w' : World}
  {sent : List Operation} {b : Buffer} {a a' : Anchor}

/-- **What `anchor_at` makes** can be resolved, and resolves to the offset it was asked for. -/
theorem ReplicaInv.anchorAt_spec (h : ReplicaInv baseText sent r b) (hc : Causal sent)
    (hdoc : DocInv baseText sent (Doc.of baseText sent)) {offset : Nat} {bias : Bias}
    (ha : b.snapshot.anchorAt cfg offset bias = some a) :
    a.Placed (Doc.of baseText sent) b.snapshot.version ∧ a.bufferId = b.snapshot.remoteId ∧
      (isCharBoundary b.snapshot.visibleText offset = true →
        b.snapshot.offsetForAnchor cfg a = some offset) := by
  unfold BufferSnapshot.anchorAt at ha
  split at ha
  · cases ha
  have hto : isCharBoundary b.snapshot.visibleText offset = true → b.snapshot.toOffset offset = offset :=
    fun hbd => by rw [BufferSnapshot.toOffset, if_pos hbd]
  rcases BufferSnapshot.anchorAtOffset_cases h.wf
      (fun _ hpos => BufferSnapshot.isCharBoundary_toOffset hpos) ha with
    ⟨rfl, h0⟩ | ⟨rfl, hlen⟩ | ⟨pre, f, post, hsplit, hholds, hvis, hid, horig⟩
  · refine ⟨.inl rfl, rfl, fun hbd => ?_⟩
    rw [← hto hbd, h0]
    rfl
  · refine ⟨.inr (.inl rfl), rfl, fun hbd => ?_⟩
    rw [hto hbd] at hlen
    rw [hlen hbd]
    rfl
  · have hf : f ∈ b.snapshot.fragments := by rw [hsplit]; simp
    have hview : a.byte ∈ (Doc.of baseText sent).view b.snapshot.version := by
      rw [← h.mirrors.ids]
      refine List.mem_map.mpr ⟨f.cellAt a.byte.2,
        mem_cellsOf.mpr ⟨f, hf, mem_cells.mpr ⟨hholds.le, hholds.lt, rfl⟩⟩, ?_⟩
      show (f.timestamp, a.byte.2) = a.byte
      rw [hholds.timestamp]
      rfl
    obtain ⟨hmem, hobs⟩ := Doc.mem_view.mp hview
    obtain ⟨hmin, hmax⟩ := timestamp_of_mem hc hdoc hmem
    have hnot_min : a.isMin = false :=
      Bool.eq_false_iff.mpr (fun h => hmin (Anchor.timestamp_of_isMin h))
    have hnot_max : a.isMax = false :=
      Bool.eq_false_iff.mpr (fun h => hmax (Anchor.timestamp_of_isMax h))
    refine ⟨.inr (.inr ⟨hnot_min, hnot_max, hobs, hholds.pos, hmem⟩), hid, fun hbd => ?_⟩
    rw [BufferSnapshot.offsetForAnchor_spec cfg h.wf hsplit hholds hnot_min hnot_max hid, hvis,
      if_pos rfl]
    rw [hto hbd] at horig
    rw [horig hbd]

theorem ReplicaInv.exists_anchorAt (cfg : Profile) (h : ReplicaInv baseText sent r b) {offset : Nat}
    (bias : Bias) (hbd : isCharBoundary b.snapshot.visibleText offset = true) :
    ∃ a, b.snapshot.anchorAt cfg offset bias = some a := by
  unfold BufferSnapshot.anchorAt
  rw [hbd, Bool.not_true, Bool.and_false, if_neg Bool.false_ne_true, BufferSnapshot.toOffset, if_pos hbd]
  exact BufferSnapshot.exists_anchorAtOffset cfg h.wf bias hbd

/-! ## Later documents -/

theorem Doc.mem_order_of {x : CharId} : ∀ {ops : List Operation},
    x ∈ (Doc.of baseText sent).order → x ∈ (Doc.of baseText (sent ++ ops)).order := by
  intro ops hx
  induction ops using List.reverseRecOn with
  | nil => rwa [append_nil]
  | append_singleton ops op ih =>
    rw [← append_assoc, Doc.of_snoc]
    exact Doc.mem_order_apply.mpr (.inl ih)

theorem Anchor.Placed.later {v v' : Global}
    (ha : a.Placed (Doc.of baseText sent) v) (hv : v'.observedAll v = true) :
    a.Placed (Doc.of baseText (sent ++ ops)) v' := by
  rcases ha with ha | ha | ha
  · exact .inl ha
  · exact .inr (.inl ha)
  · exact .inr (.inr ⟨ha.not_min, ha.not_max, Global.observed_of_observedAll hv ha.observed, ha.pos,
      Doc.mem_order_of ha.mem⟩)

section

variable {v : Global} (hops : ∀ op ∈ ops, v.observed op.timestamp = false)
  (ha : a.Placed (Doc.of baseText sent) v) (hb : a'.Placed (Doc.of baseText sent) v)
include hops ha hb

theorem rank_lt_iff_later :
    (Doc.of baseText (sent ++ ops)).rank a < (Doc.of baseText (sent ++ ops)).rank a' ↔
      (Doc.of baseText sent).rank a < (Doc.of baseText sent).rank a' := by
  have hidx : ∀ {x y : Anchor}, x.At (Doc.of baseText sent) v → y.At (Doc.of baseText sent) v →
      ((Doc.of baseText (sent ++ ops)).order.idxOf x.byte <
        (Doc.of baseText (sent ++ ops)).order.idxOf y.byte ↔
      (Doc.of baseText sent).order.idxOf x.byte < (Doc.of baseText sent).order.idxOf y.byte) := by
    intro x y hx hy
    have hview : (Doc.of baseText (sent ++ ops)).order.filter (fun x => v.observed x.1) =
        (Doc.of baseText sent).order.filter (fun x => v.observed x.1) := (doc_stable hops).1
    rw [← @idxOf_lt_filter _ _ _ (fun x : CharId => v.observed x.1) _ _ _ hx.observed hy.observed hx.mem,
      ← @idxOf_lt_filter _ _ _ (fun x : CharId => v.observed x.1) _ _ _ hx.observed hy.observed
        (Doc.mem_order_of hx.mem), hview]
  have hlater : ∀ {x : Anchor}, x.At (Doc.of baseText sent) v → x.At (Doc.of baseText (sent ++ ops)) v :=
    fun hx => ⟨hx.not_min, hx.not_max, hx.observed, hx.pos, Doc.mem_order_of hx.mem⟩
  rcases ha with ha | ha | ha <;> rcases hb with hb | hb | hb
  · rw [rank_of_isMin ha, rank_of_isMin hb, rank_of_isMin ha, rank_of_isMin hb]
  · rw [rank_of_isMin ha, rank_of_isMax hb, rank_of_isMin ha, rank_of_isMax hb]
    omega
  · rw [rank_of_isMin ha, rank_of_isMin ha, hb.rank.1, (hlater hb).rank.1]
    have := hb.rank.2.2
    omega
  · rw [rank_of_isMin hb, rank_of_isMin hb]
    omega
  · rw [rank_of_isMax ha, rank_of_isMax hb, rank_of_isMax ha, rank_of_isMax hb]
    omega
  · rw [rank_of_isMax ha, rank_of_isMax ha, hb.rank.1, (hlater hb).rank.1]
    have h1 := hb.rank.2
    have h2 := (hlater hb).rank.2
    omega
  · rw [rank_of_isMin hb, rank_of_isMin hb]
    omega
  · rw [rank_of_isMax hb, rank_of_isMax hb, ha.rank.1, (hlater ha).rank.1]
    have h1 := ha.rank.2
    have h2 := (hlater ha).rank.2
    omega
  · rw [ha.rank.1, hb.rank.1, (hlater ha).rank.1, (hlater hb).rank.1]
    have h1 := hidx ha hb
    have h2 := hidx hb ha
    have h4 := hb.rank.2.2
    omega

theorem compare_rank_later :
    compare ((Doc.of baseText (sent ++ ops)).rank a) ((Doc.of baseText (sent ++ ops)).rank a') =
      compare ((Doc.of baseText sent).rank a) ((Doc.of baseText sent).rank a') := by
  have h1 := rank_lt_iff_later hops ha hb
  have h2 := rank_lt_iff_later hops hb ha
  rcases lt_trichotomy ((Doc.of baseText sent).rank a) ((Doc.of baseText sent).rank a') with h | h | h
  · rw [Nat.compare_eq_lt.mpr h, Nat.compare_eq_lt.mpr (h1.mpr h)]
  · rw [Nat.compare_eq_eq.mpr h, Nat.compare_eq_eq.mpr (by omega)]
  · rw [Nat.compare_eq_gt.mpr h, Nat.compare_eq_gt.mpr (h2.mpr h)]

end

/-! ## Anchors that have been observed -/

theorem World.ObservedAnchor.placed (h : World.ObservedAnchor cfg remoteId baseText w r a) :
    a.Placed (Doc.of baseText w.sent) (w.bufs r).snapshot.version ∧ a.bufferId = remoteId := by
  obtain ⟨w₀, as, q, offset, bias, hw₀, hrun, hanchor, hv⟩ := h
  have hinv := hw₀.inv
  obtain ⟨hplaced, hid, -⟩ := (hinv.replicas q).anchorAt_spec hinv.causal hinv.doc hanchor
  obtain ⟨ops, hsent⟩ := hrun.sent
  rw [hsent]
  exact ⟨hplaced.later hv, hid.trans (hw₀.named q)⟩

theorem World.Reachable.unobserved (hw : World.Reachable cfg remoteId baseText w)
    {as : List (Nat × Action)} (hrun : Run (World.Step cfg) w as w') (r : Nat)
    (hsent : w'.sent = w.sent ++ ops) :
    ∀ op ∈ ops, (w.bufs r).snapshot.version.observed op.timestamp = false := by
  intro op hop
  have hc' := (hw.run hrun).inv.causal
  rw [hsent] at hc'
  exact not_observed_later hw.inv.causal hc' hop _ (hw.inv.replicas r).mirrors.witnessed rfl

theorem Anchor.Placed.visibleBefore {doc : Doc} {v : Global} (ha : a.Placed doc v)
    (s : BufferSnapshot) :
    s.visibleBefore doc.order a = (doc.order.take (doc.rank a / 2)).countP s.shows := by
  unfold BufferSnapshot.visibleBefore
  rcases ha with ha | ha | ha
  · rw [if_pos ha, rank_of_isMin ha]
    rfl
  · rw [if_neg (by rw [Anchor.not_isMin_of_isMax ha]; exact Bool.false_ne_true), if_pos ha,
      take_rank_of_isMax ha]
  · rw [if_neg (by rw [ha.not_min]; exact Bool.false_ne_true),
      if_neg (by rw [ha.not_max]; exact Bool.false_ne_true), ha.countP_rank]

/-- **An anchor resolves to the visible bytes before it.** -/
theorem ReplicaInv.offsetForAnchor_eq (cfg : Profile) (h : ReplicaInv baseText sent r b)
    (hid : a.bufferId = b.snapshot.remoteId)
    (ha : a.Placed (Doc.of baseText sent) b.snapshot.version) :
    b.snapshot.offsetForAnchor cfg a =
      some (b.snapshot.visibleBefore (Doc.of baseText sent).order a) := by
  rw [h.offset_rank cfg hid ha, ha.visibleBefore]
  refine congrArg some (countP_congr (fun x hx => ?_))
  rw [h.shows_eq (mem_of_mem_take hx)]

def afterFirst : Anchor := ⟨baseId, 1, .left, 7⟩

def beforeSecond : Anchor := ⟨baseId, 1, .right, 7⟩

theorem observedAnchor_exchanged {a : Anchor} (bias : Bias)
    (h : ((World.init .test 7 ['a', 'b']).bufs 1).snapshot.anchorAt .test 1 bias = some a) :
    exchanged.ObservedAnchor .test 7 ['a', 'b'] 2 a :=
  ⟨World.init .test 7 ['a', 'b'], exchange, 1, 1, bias, ⟨[], .nil⟩, World.run_after (by decide), h,
    by decide⟩

end

end SpkEditor
