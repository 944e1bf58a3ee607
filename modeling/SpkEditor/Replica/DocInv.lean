import SpkEditor.Replica.Doc

/-!
# Invariants of the shared document

`Causal` is what the operations of a group of replicas owe each other: distinct
timestamps, versions that are closed under what they have observed and lie below the
timestamp they come with. `DocInv` says how the document of such operations is laid
out. Both are kept when one more operation is made (`Causal.snoc`, `DocInv.snoc`),
given what its author knows about it (`Fresh`).
-/

namespace SpkEditor

open List

/-- Everything a version has observed is the base text or an operation. -/
def Witnessed (sent : List Operation) (v : Global) : Prop :=
  ∀ q, v.get q ≠ 0 → (⟨v.get q, q⟩ : Lamport) = baseId ∨ ∃ op ∈ sent, op.timestamp = ⟨v.get q, q⟩

def Closed (sent : List Operation) (v : Global) : Prop :=
  ∀ op ∈ sent, v.observed op.timestamp = true → v.observedAll op.version = true

/-- **What operations owe each other.** -/
structure Causal (sent : List Operation) : Prop where
  nodup : (sent.map Operation.timestamp).Nodup
  not_base : ∀ op ∈ sent, op.timestamp ≠ baseId
  clock : ∀ op ∈ sent, ∀ q, op.version.get q < op.timestamp.value
  bounded : ∀ op ∈ sent, op.timestamp.value < Lamport.SEQ_MAX
  closed : ∀ op ∈ sent, Closed sent op.version
  own : ∀ op ∈ sent, ∀ op' ∈ sent, op.replicaId = op'.replicaId →
    op'.timestamp.value < op.timestamp.value → op.version.observed op'.timestamp = true
  witnessed : ∀ op ∈ sent, Witnessed sent op.version

/-- What the author of a new operation knows about it. -/
structure Fresh (sent : List Operation) (op : Operation) : Prop where
  not_base : op.timestamp ≠ baseId
  clock : ∀ q, op.version.get q < op.timestamp.value
  bounded : op.timestamp.value < Lamport.SEQ_MAX
  closed : Closed sent op.version
  own : ∀ op' ∈ sent, op'.replicaId = op.replicaId →
    op.version.observed op'.timestamp = true ∧ op'.timestamp.value < op.timestamp.value
  unseen : ∀ op' ∈ sent, op'.version.observed op.timestamp = false
  witnessed : Witnessed sent op.version

section Causal

variable {sent : List Operation} {op : Operation} {v : Global}

theorem Causal.lt_of_observed (h : Causal sent) (hop : op ∈ sent) {t : Lamport}
    (ht : op.version.observed t = true) : t < op.timestamp := by
  rw [Global.observed_iff] at ht
  exact Lamport.lt_of_value_lt (lt_of_le_of_lt ht (h.clock op hop _))

theorem Fresh.lt_of_observed (h : Fresh sent op) {t : Lamport}
    (ht : op.version.observed t = true) : t < op.timestamp := by
  rw [Global.observed_iff] at ht
  exact Lamport.lt_of_value_lt (lt_of_le_of_lt ht (h.clock _))

theorem Fresh.not_observed_self (h : Fresh sent op) : op.version.observed op.timestamp = false := by
  by_contra hne
  exact absurd (h.lt_of_observed (by simpa using hne)) (lt_irrefl _)

theorem Causal.not_observed_self (h : Causal sent) (hop : op ∈ sent) :
    op.version.observed op.timestamp = false := by
  by_contra hne
  exact absurd (h.lt_of_observed hop (by simpa using hne)) (lt_irrefl _)

theorem Fresh.ne (h : Fresh sent op) {op' : Operation} (hop' : op' ∈ sent) :
    op'.timestamp ≠ op.timestamp := by
  intro heq
  have := (h.own op' hop' (by simp only [Operation.replicaId, heq])).2
  rw [heq] at this
  exact absurd this (lt_irrefl _)

theorem Witnessed.mono {sent' : List Operation} (h : Witnessed sent v)
    (hs : ∀ op ∈ sent, op ∈ sent') : Witnessed sent' v := by
  intro q hq
  rcases h q hq with hb | ⟨op, hop, heq⟩
  · exact .inl hb
  · exact .inr ⟨op, hs op hop, heq⟩

theorem Causal.nil : Causal [] := by
  refine ⟨List.Pairwise.nil, ?_, ?_, ?_, ?_, ?_, ?_⟩ <;> simp

theorem Causal.snoc (h : Causal sent) (hf : Fresh sent op) : Causal (sent ++ [op]) := by
  refine ⟨?_, ?_, ?_, ?_, ?_, ?_, ?_⟩
  · rw [map_append]
    refine List.nodup_append.mpr ⟨h.nodup, by simp, ?_⟩
    intro t ht u hu heq
    obtain ⟨op', hop', rfl⟩ := List.mem_map.mp ht
    simp only [map_cons, map_nil, mem_singleton] at hu
    exact hf.ne hop' (heq.trans hu)
  · intro op' hop'
    rcases List.mem_append.mp hop' with hop' | hop'
    · exact h.not_base op' hop'
    · rw [List.mem_singleton.mp hop']; exact hf.not_base
  · intro op' hop'
    rcases List.mem_append.mp hop' with hop' | hop'
    · exact h.clock op' hop'
    · rw [List.mem_singleton.mp hop']; exact hf.clock
  · intro op' hop'
    rcases List.mem_append.mp hop' with hop' | hop'
    · exact h.bounded op' hop'
    · rw [List.mem_singleton.mp hop']; exact hf.bounded
  · intro op' hop' x hx hobs
    rcases List.mem_append.mp hop' with hop' | hop' <;> rcases List.mem_append.mp hx with hx | hx
    · exact h.closed op' hop' x hx hobs
    · rw [List.mem_singleton.mp hx, hf.unseen op' hop'] at hobs
      exact absurd hobs Bool.false_ne_true
    · rw [List.mem_singleton.mp hop'] at hobs ⊢
      exact hf.closed x hx hobs
    · rw [List.mem_singleton.mp hop', List.mem_singleton.mp hx, hf.not_observed_self] at hobs
      exact absurd hobs Bool.false_ne_true
  · intro op' hop' x hx hr hlt
    rcases List.mem_append.mp hop' with hop' | hop' <;> rcases List.mem_append.mp hx with hx | hx
    · exact h.own op' hop' x hx hr hlt
    · rw [List.mem_singleton.mp hx] at hr hlt
      have := (hf.own op' hop' hr).2
      omega
    · rw [List.mem_singleton.mp hop'] at hr ⊢
      exact (hf.own x hx hr.symm).1
    · rw [List.mem_singleton.mp hop', List.mem_singleton.mp hx] at hlt
      exact absurd hlt (lt_irrefl _)
  · intro op' hop'
    refine Witnessed.mono ?_ (fun x hx => mem_append_left _ hx)
    rcases List.mem_append.mp hop' with hop' | hop'
    · exact h.witnessed op' hop'
    · rw [List.mem_singleton.mp hop']; exact hf.witnessed

end Causal

/-- The operation with timestamp `t` was made by someone who had observed `u`. -/
def Saw (sent : List Operation) (t u : Lamport) : Prop :=
  ∃ op ∈ sent, op.timestamp = t ∧ op.version.observed u = true

/-- An edit that is laid out in the document the way it was made. -/
structure Doc.Holds (doc : Doc) (op : EditOperation) : Prop where
  length : op.ranges.length = op.newText.length
  ranges : op.ranges ≠ []
  valid : ValidRanges 0 op.ranges (doc.view op.version).length
  blocks : doc.order.filter (fun x => op.seen x || decide (x.1 = op.timestamp)) =
    Splice.insertAll 0 op.blocks (doc.view op.version)
  deletions : ∀ x, (x, op.timestamp) ∈ doc.deletions ↔ x ∈ doc.hits op
  /-- All of its bytes are there, in order. -/
  whole : doc.order.filter (fun x => decide (x.1 = op.timestamp)) =
    (List.range' 0 (byteLen op.newText.flatten)).map fun o => (op.timestamp, o)

/-- **The layout of the document.** -/
structure DocInv (baseText : List Char) (sent : List Operation) (doc : Doc) : Prop where
  nodup : doc.order.Nodup
  ordered : Splice.Ordered Prod.fst (Saw sent) doc.order
  inserted : ∀ x ∈ doc.order, x.1 = baseId ∨ ∃ op, Operation.edit op ∈ sent ∧ op.timestamp = x.1
  baseOrder : doc.order.filter (fun x => decide (x.1 = baseId)) = (Doc.base baseText).order
  holds : ∀ op, Operation.edit op ∈ sent → doc.Holds op
  deleted : ∀ d ∈ doc.deletions, ∃ op, Operation.edit op ∈ sent ∧ op.timestamp = d.2
  undos : ∀ e, e ∈ doc.undos ↔ ∃ op, Operation.undo op ∈ sent ∧ e ∈ UndoMap.entriesOf op
  known : ∀ op, Operation.undo op ∈ sent → op.Known op.version

section DocInv

variable {baseText : List Char} {sent : List Operation} {doc : Doc} {op : Operation}

theorem Doc.mem_view {v : Global} {x : CharId} :
    x ∈ doc.view v ↔ x ∈ doc.order ∧ v.observed x.1 = true := mem_filter

theorem Doc.mem_hits {e : EditOperation} {x : CharId} : x ∈ doc.hits e ↔ x ∈ doc.view e.version ∧
      Splice.inRanges e.blocks ((doc.view e.version).idxOf x) = true ∧
      doc.wasVisible e.version x = true := by
  simp only [Doc.hits, Doc.inRange, EditOperation.seen, mem_filter, Bool.and_eq_true, Doc.mem_view]
  constructor
  · rintro ⟨h1, ⟨h2, h3⟩, h4⟩; exact ⟨⟨h1, h2⟩, h3, h4⟩
  · rintro ⟨⟨h1, h2⟩, h3, h4⟩; exact ⟨h1, ⟨h2, h3⟩, h4⟩

/-- What an edit deletes does not depend on operations its author had not observed. -/
theorem Doc.mem_hits_apply {e : EditOperation} (h : e.version.observed op.timestamp = false)
    {x : CharId} : x ∈ (doc.apply op).hits e ↔ x ∈ doc.hits e := by
  rw [Doc.mem_hits, Doc.mem_hits, Doc.view_apply h, Doc.wasVisible_apply h]

theorem DocInv.new_timestamp (h : DocInv baseText sent doc) (hf : Fresh sent op) :
    ∀ x ∈ doc.order, x.1 ≠ op.timestamp := by
  intro x hx heq
  rcases h.inserted x hx with hb | ⟨e, he, ht⟩
  · exact hf.not_base (heq.symm.trans hb)
  · exact hf.ne he (ht.trans heq)

theorem Doc.Holds.apply {e : EditOperation} (h : doc.Holds e)
    (hv : e.version.observed op.timestamp = false) (hne : e.timestamp ≠ op.timestamp) :
    (doc.apply op).Holds e := by
  have hfilter : ∀ keep : CharId → Bool, (∀ x, x.1 = op.timestamp → keep x = false) →
      (doc.apply op).order.filter keep = doc.order.filter keep := by
    intro keep hkeep
    cases op with
    | undo op => rfl
    | edit op =>
      exact Splice.filter_splice _ _ _ (fun b hb x hx =>
        hkeep x (idBlocks_text _ _ _ _ b hb x hx))
  refine ⟨h.length, h.ranges, by rw [Doc.view_apply hv]; exact h.valid, ?_, ?_, ?_⟩
  · rw [Doc.view_apply hv, ← h.blocks]
    refine hfilter _ (fun x hx => ?_)
    rw [EditOperation.seen, hx, hv, Bool.false_or]
    exact decide_eq_false (Ne.symm hne)
  · intro x
    rw [Doc.mem_hits_apply hv, ← h.deletions]
    cases op with
    | undo op => rfl
    | edit op =>
      simp only [Doc.apply, mem_append, List.mem_map, Prod.mk.injEq]
      constructor
      · intro hx
        rcases hx with hx | ⟨y, -, -, heq⟩
        · exact hx
        · exact absurd heq.symm hne
      · intro hx; exact .inl hx
  · rw [← h.whole]
    refine hfilter _ (fun x hx => ?_)
    rw [hx]
    exact decide_eq_false (Ne.symm hne)

theorem DocInv.snoc_undo (h : DocInv baseText sent doc) {undo : UndoOperation}
    (hf : Fresh sent (.undo undo)) (hk : undo.Known undo.version) :
    DocInv baseText (sent ++ [.undo undo]) (doc.apply (.undo undo)) := by
  have hmem : ∀ e, Operation.edit e ∈ sent ++ [.undo undo] → Operation.edit e ∈ sent := by
    intro e he
    simpa using he
  have hmem' : ∀ e, Operation.edit e ∈ sent → Operation.edit e ∈ sent ++ [.undo undo] :=
    fun e he => mem_append_left _ he
  refine ⟨h.nodup, ?_, ?_, h.baseOrder, ?_, ?_, ?_, ?_⟩
  · refine h.ordered.mono (fun t u hs => ?_)
    obtain ⟨op, hop, hs⟩ := hs
    exact ⟨op, mem_append_left _ hop, hs⟩
  · intro x hx
    exact (h.inserted x hx).imp id (by rintro ⟨e, he, ht⟩; exact ⟨e, hmem' e he, ht⟩)
  · intro e he
    exact (h.holds e (hmem e he)).apply (hf.unseen _ (hmem e he)) (hf.ne (hmem e he))
  · intro d hd
    obtain ⟨e, he, ht⟩ := h.deleted d hd
    exact ⟨e, hmem' e he, ht⟩
  · intro e
    simp only [Doc.apply, mem_append, h.undos, mem_singleton, Operation.undo.injEq]
    constructor
    · intro hx
      rcases hx with ⟨u, hu, he⟩ | he
      · exact ⟨u, .inl hu, he⟩
      · exact ⟨undo, .inr rfl, he⟩
    · rintro ⟨u, hu, he⟩
      rcases hu with hu | rfl
      · exact .inl ⟨u, hu, he⟩
      · exact .inr he
  · intro u hu
    rcases List.mem_append.mp hu with hu | hu
    · exact h.known u hu
    · simp only [mem_singleton, Operation.undo.injEq] at hu
      rw [hu]; exact hk

/-- **The document after an edit.** The ordering invariant and the layout of the new
edit come from the splice; nothing else moves. -/
theorem DocInv.snoc_edit (h : DocInv baseText sent doc) {edit : EditOperation}
    (hf : Fresh sent (.edit edit)) (hl : edit.ranges.length = edit.newText.length)
    (hr : edit.ranges ≠ []) (hv : ValidRanges 0 edit.ranges (doc.view edit.version).length) :
    DocInv baseText (sent ++ [.edit edit]) (doc.apply (.edit edit)) := by
  have hself : edit.version.observed edit.timestamp = false := hf.not_observed_self
  have hnew : ∀ x ∈ doc.order, x.1 ≠ edit.timestamp := h.new_timestamp hf
  have hcount : doc.order.countP edit.seen = (doc.view edit.version).length :=
    countP_eq_length_filter
  have hvalid : Splice.Valid 0 edit.blocks (0 + doc.order.countP edit.seen) := by
    rw [zero_add, hcount]
    exact valid_idBlocks _ _ _ _ _ _ hl hv
  have htext : ∀ b ∈ edit.blocks, ∀ x ∈ b.text, x.1 = edit.timestamp := idBlocks_text _ _ _ _
  have hab : ∀ x, edit.above x = true → edit.seen x = false := by
    intro x hx
    by_contra hne
    have hlt : x.1 < edit.timestamp := hf.lt_of_observed (Bool.of_not_eq_false hne)
    exact absurd hlt (not_lt_of_gt (of_decide_eq_true hx))
  have hflat : edit.blocks.flatMap Splice.Edit.text =
      (List.range' 0 (byteLen edit.newText.flatten)).map fun o => (edit.timestamp, o) :=
    idBlocks_flatMap _ _ _ _ hl
  have hview : (doc.apply (.edit edit)).view edit.version = doc.view edit.version :=
    Doc.view_apply hself
  have hmono : ∀ t u, Saw sent t u → Saw (sent ++ [.edit edit]) t u :=
    fun t u ⟨op, hop, hs⟩ => ⟨op, mem_append_left _ hop, hs⟩
  refine ⟨?_, ?_, ?_, ?_, ?_, ?_, ?_, ?_⟩
  · refine ((Splice.splice_perm _ _ _).nodup_iff).mpr ?_
    rw [hflat]
    refine List.nodup_append.mpr ⟨?_, h.nodup, ?_⟩
    · exact Nodup.map_on (fun a _ b _ heq => (Prod.mk.inj heq).2) nodup_range'
    · intro x hx y hy heq
      obtain ⟨o, -, rfl⟩ := List.mem_map.mp hx
      exact hnew y hy (by rw [← heq])
  · have hseen : ∀ x : CharId, edit.seen x = true → Saw (sent ++ [.edit edit]) edit.timestamp x.1 :=
      fun x hx => ⟨.edit edit, by simp, rfl, hx⟩
    exact Splice.ordered_splice hseen (fun x => decide_eq_true_iff) hab edit.blocks 0 [] doc.order
      hvalid htext hnew trivial (h.ordered.mono hmono)
  · intro x hx
    rcases Doc.mem_order_apply.mp hx with hx | ⟨e, he, hx⟩
    · exact (h.inserted x hx).imp id (by rintro ⟨e, he, ht⟩; exact ⟨e, mem_append_left _ he, ht⟩)
    · obtain rfl := Operation.edit.inj he
      rw [hflat] at hx
      obtain ⟨o, -, rfl⟩ := List.mem_map.mp hx
      exact .inr ⟨edit, by simp, rfl⟩
  · rw [← h.baseOrder]
    refine Splice.filter_splice _ _ _ (fun b hb x hx => ?_)
    rw [htext b hb x hx]
    exact decide_eq_false hf.not_base
  · intro e he
    rcases List.mem_append.mp he with he | he
    · exact (h.holds e he).apply (hf.unseen _ he) (hf.ne he)
    · simp only [mem_singleton, Operation.edit.injEq] at he
      subst he
      refine ⟨hl, hr, by rw [hview]; exact hv, ?_, ?_, ?_⟩
      · rw [hview]
        exact Splice.filter_splice_seen hab _ _ _ hvalid
          (fun b hb x hx => decide_eq_true (htext b hb x hx))
          (fun x hx => decide_eq_false (hnew x hx))
      · intro x
        rw [Doc.mem_hits_apply hself]
        simp only [Doc.apply, mem_append, List.mem_map, Prod.mk.injEq]
        constructor
        · intro hx
          rcases hx with hx | ⟨y, hy, rfl, -⟩
          · obtain ⟨e', he', ht⟩ := h.deleted _ hx
            exact absurd ht (hf.ne he')
          · exact hy
        · intro hx; exact .inr ⟨x, hx, rfl, trivial⟩
      · rw [← hflat]
        exact Splice.filter_splice_text _ _ _ (fun b hb x hx => decide_eq_true (htext b hb x hx))
          (fun x hx => decide_eq_false (hnew x hx))
  · intro d hd
    simp only [Doc.apply, mem_append, List.mem_map] at hd
    rcases hd with hd | ⟨x, -, rfl⟩
    · obtain ⟨e, he, ht⟩ := h.deleted d hd
      exact ⟨e, mem_append_left _ he, ht⟩
    · exact ⟨edit, by simp, rfl⟩
  · intro e
    show e ∈ doc.undos ↔ _
    rw [h.undos]
    simp
  · intro u hu
    exact h.known u (by simpa using hu)

theorem DocInv.base (baseText : List Char) : DocInv baseText [] (Doc.base baseText) := by
  have hts : ∀ x ∈ (Doc.base baseText).order, x.1 = baseId := by
    intro x hx
    obtain ⟨o, -, rfl⟩ := List.mem_map.mp hx
    rfl
  refine ⟨?_, ?_, fun x hx => .inl (hts x hx), ?_, by simp, by simp [Doc.base],
    by simp [Doc.base], by simp⟩
  · exact Nodup.map_on (fun a _ b _ heq => (Prod.mk.inj heq).2) nodup_range'
  · intro P w Q hl
    refine Splice.cov_of_forall_le (fun a ha => ?_) trivial
    rw [hts w (by rw [hl]; simp), hts a (by rw [hl]; simp [ha])]
  · exact List.filter_eq_self.mpr (fun x hx => decide_eq_true (hts x hx))

end DocInv

end SpkEditor
