import SpkEditor.Replica.EditsSince
import SpkEditor.Text.RopeForVersion

/-!
# Time travel

`rope_for_version` gives the text that a buffer had at an earlier version, and the edits since then lead from that
text to the one it has now. The edits are those of the range from the smallest to the largest anchor, which has
every fragment as a whole: so none of them is empty, and `has_edits_since` says whether there are any.
-/

namespace SpkEditor

open Patch List

section

variable {baseText : List Char} {cfg : Profile} {remoteId r : Nat} {w w' : World} {sent : List Operation} {b : Buffer}

theorem Doc.between_all (doc : Doc) (byte : Lamport → Nat → UInt8) (v : Global) :
    doc.between byte v 0 doc.order.length = doc.textAt byte v := by
  rw [Doc.between, take_length, drop_zero, Doc.textAt, doc.filter_view_wasVisible v]

theorem ReplicaInv.ropeForVersion_eq (h : ReplicaInv baseText sent r b) {v : Global}
    (hv : b.snapshot.version.observedAll v = true) :
    b.snapshot.ropeForVersion v = some ((Doc.of baseText sent).textAt (byteOf baseText sent) v) := by
  have hall : (Doc.of baseText sent).order.countP (fun x => b.snapshot.version.observed x.1) =
      (cellsOf b.snapshot.fragments).length := by
    rw [countP_eq_length_filter]
    show ((Doc.of baseText sent).view b.snapshot.version).length = _
    rw [← h.mirrors.ids, length_map]
  have hbytes := h.bytes_between hv (fun c hc => h.mirrors.wasVisible h.wf.undosSorted hv hc)
    (Nat.zero_le (Doc.of baseText sent).order.length) rfl rfl
  rw [take_length, hall, take_length, take_zero, countP_nil, drop_zero,
    Doc.between_all] at hbytes
  rw [BufferSnapshot.ropeForVersion_spec h.wf, oldTextOf, hbytes]

theorem BufferSnapshot.hasEditsSince_iff {byte : Lamport → Nat → UInt8} {s : BufferSnapshot} (hw : Wf byte s)
    {since : Global} (hne : since ≠ s.version) :
    s.hasEditsSince since = true ↔ ∃ f ∈ s.fragments, s.changedSince since f = true := by
  rw [hasEditsSince, if_neg hne, List.any_eq_true]
  constructor
  · rintro ⟨stop, hmem, hc⟩
    exact ⟨_, (mem_of_touchedFrom hmem).1, hc⟩
  · rintro ⟨f, hf, hc⟩
    obtain ⟨stop, hmem, rfl⟩ := @mem_touchedFrom_of_changed byte s since hw f hc s.fragments (0, 0) (fun _ hg => hg) hf
    exact ⟨stop, hmem, hc⟩

theorem isMin_minForBuffer (id : Nat) : (Anchor.minForBuffer id).isMin = true := rfl

theorem isMax_maxForBuffer (id : Nat) : (Anchor.maxForBuffer id).isMax = true := by
  simp [Anchor.maxForBuffer, Anchor.isMax]

section

variable (hw : World.Reachable cfg remoteId baseText w) {as : List (Nat × Action)}
  (hrun : Run (World.Step cfg) w as w') (r : Nat)
include hw hrun

theorem World.Reachable.known_all :
    Known baseText r w w' (.minForBuffer (w'.bufs r).snapshot.remoteId) (.maxForBuffer (w'.bufs r).snapshot.remoteId) := by
  have hid : (w'.bufs r).snapshot.remoteId = (w.bufs r).snapshot.remoteId :=
    ((hw.run hrun).named r).trans (hw.named r).symm
  refine hw.known hrun (Or.inl (isMin_minForBuffer _)) (Or.inr (Or.inl (isMax_maxForBuffer _))) hid hid ?_
  exact Nat.zero_le _

/-- **The edits since a version** describe how the text has changed, and there are some if `has_edits_since` says so. -/
theorem World.Reachable.editsSince_spec :
    ∃ edits, (w'.bufs r).snapshot.editsSince cfg (w.bufs r).snapshot.version = some edits ∧
      Describes edits (w.bufs r).text (w'.bufs r).text ∧
      ((w'.bufs r).snapshot.hasEditsSince (w.bufs r).snapshot.version = true ↔ edits ≠ []) := by
  have hknown := hw.known_all hrun r
  have hr := hknown.inv'.replicas r
  obtain ⟨ops, hsent, hops⟩ := hknown.later
  have hold : (w.bufs r).text = (Doc.of baseText w'.sent).textAt (byteOf baseText w'.sent)
      (w.bufs r).snapshot.version := by
    rw [(hknown.inv.replicas r).text_eq, hsent, textAt_stable hops]
  by_cases hv : (w.bufs r).snapshot.version = (w'.bufs r).snapshot.version
  · refine ⟨[], ?_, ?_, ?_⟩
    · rw [BufferSnapshot.editsSince, BufferSnapshot.editsSinceInRange, if_pos hv]
    · rw [hold, hr.text_eq, hv]
      exact describes_nil _
    · rw [BufferSnapshot.hasEditsSince, if_pos hv]
      simp
  · obtain ⟨idA, idB, preA, restA, overA, preB, restB, overB, edits, hidA, hidB, hle, hcutA, hcutB, hedits, hyields⟩ :=
      hknown.edits cfg hv
    have hA : idA = Locator.min := (Option.some.inj hidA).symm
    have hB : idB = Locator.max := (Option.some.inj hidB).symm
    have hmem : ∀ f ∈ (w'.bufs r).snapshot.fragments, idA < f.id ∧ f.id < idB := fun f hf => by
      rw [hA, hB]
      exact ⟨(hr.wf.good f hf).min_lt, (hr.wf.good f hf).lt_max⟩
    have hfull : overA = 0 ∧ ∀ f ∈ (w'.bufs r).snapshot.fragments, f.id ≠ idB := by
      refine ⟨hcutA.overshoot_zero (fun f hf => ?_), fun f hf => ne_of_lt (hmem f hf).2⟩
      refine ne_of_gt (hmem f ?_).1
      rw [hcutA.split]
      exact mem_append_right _ (List.mem_of_mem_head? hf)
    have hrank : (Doc.of baseText w'.sent).rank (.maxForBuffer (w'.bufs r).snapshot.remoteId) / 2 =
        (Doc.of baseText w'.sent).order.length := by
      rw [rank_of_isMax (isMax_maxForBuffer _)]
      omega
    have hzero : (Doc.of baseText w'.sent).rank (.minForBuffer (w'.bufs r).snapshot.remoteId) / 2 = 0 := by
      rw [rank_of_isMin (isMin_minForBuffer _)]
    rw [hzero, hrank, Doc.between_all, Doc.between_all, ← hold, ← hr.text_eq] at hyields
    have hne := hyields.nonempty hfull
    refine ⟨edits, hedits, ⟨hyields.runs, hyields.separated, hne⟩, ?_⟩
    rw [BufferSnapshot.hasEditsSince_iff hr.wf hv]
    have hsome : edits ≠ [] ↔ ∃ e ∈ edits, e.isEmpty = false := by
      constructor
      · intro h
        obtain ⟨e, he⟩ := exists_mem_of_ne_nil _ h
        exact ⟨e, he, hne e he⟩
      · rintro ⟨e, he, -⟩
        exact ne_nil_of_mem he
    rw [hsome, hyields.changes]
    simp only [ne_eq, not_true_eq_false, false_or]
    refine exists_congr (fun f => and_congr_right (fun hf => ?_))
    have hreach : 0 < EditsQuery.reach ⟨(w.bufs r).snapshot.version, (w'.bufs r).snapshot.undoMap,
        (idA, (Anchor.minForBuffer (w'.bufs r).snapshot.remoteId).offset),
        (idB, (Anchor.maxForBuffer (w'.bufs r).snapshot.remoteId).offset)⟩ f := by
      rw [EditsQuery.reach_of_lt (hmem f hf).2]
      exact hr.wf.len_pos f hf
    rw [if_neg (ne_of_gt (hmem f hf).1)]
    rw [BufferSnapshot.changedSince_iff]
    exact ⟨fun hc => ⟨le_of_lt (hmem f hf).1, le_of_lt (hmem f hf).2, hc, hreach⟩, fun hc => hc.2.2.1⟩

end

end

end SpkEditor
