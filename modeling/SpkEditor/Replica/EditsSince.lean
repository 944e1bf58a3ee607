import SpkEditor.Replica.AnchorRuns
import SpkEditor.Replica.Editing
import SpkEditor.Text.EditsInRange

/-!
# Edits since an earlier version of a buffer

A buffer keeps no old text. What it had between two anchors at an earlier version is in the shared document: the
bytes between the ranks of the anchors that the version could see. What it has there now are those that its version
can see by now. The anchors cut the fragments at the same ranks (`ReplicaInv.cuts`), so the edits in the range lead
from the one to the other (`edits_since_in_range`).

The fast check looks at the fragments behind that of the start only, and at all of the fragment of the end
(`fast_check_agrees`).
-/

namespace SpkEditor

open Patch List Option

section

variable {baseText : List Char} {cfg : Profile} {remoteId r : Nat} {w w' : World}
  {sent : List Operation} {b : Buffer} {a a' : Anchor} {v : Global}

/-! ## Where anchors cut the fragments -/

theorem ReplicaInv.first_offset (h : ReplicaInv baseText sent r b) (hc : Causal sent)
    (hdoc : DocInv baseText sent (Doc.of baseText sent)) :
    ∀ f ∈ b.snapshot.fragments.head?, f.insertionOffset = 0 := by
  intro f hf
  obtain ⟨hins, hobs⟩ := h.inserted hdoc (List.mem_of_mem_head? hf)
  have htiles := h.tiles hc hdoc hins hobs
  obtain ⟨fs, hfs⟩ := List.head?_eq_some_iff.mp hf
  rw [hfs, filter_cons_of_pos (by simp)] at htiles
  exact htiles.1

/-- The bytes that a replica has before an anchor. -/
def Doc.passed (doc : Doc) (v : Global) (a : Anchor) : Nat :=
  (doc.order.take (doc.rank a / 2)).countP fun x => v.observed x.1

section

variable (cfg : Profile) (h : ReplicaInv baseText sent r b)
include h

theorem ReplicaInv.cuts (hc : Causal sent)
    (hdoc : DocInv baseText sent (Doc.of baseText sent))
    (ha : a.Placed (Doc.of baseText sent) b.snapshot.version) :
    ∃ id pre rest overshoot, b.snapshot.fragmentIdForAnchor cfg a = some id ∧
      Cuts b.snapshot.fragments id a.offset pre rest overshoot ∧
      (cellsOf pre).length + overshoot = (Doc.of baseText sent).passed b.snapshot.version a := by
  rcases ha with ha | ha | ha
  · have hoff : a.offset = 0 := by
      simp only [Anchor.isMin, Bool.and_eq_true, beq_iff_eq] at ha
      exact ha.1.2
    refine ⟨Locator.min, [], b.snapshot.fragments, 0, by simp [BufferSnapshot.fragmentIdForAnchor, ha],
      ⟨rfl, by simp, fun f hf => le_of_lt (h.wf.good f hf).min_lt, fun f hf => ?_, fun _ _ => Nat.zero_le _,
        fun _ => rfl⟩, ?_⟩
    · rw [h.first_offset hc hdoc f hf, hoff]
    · rw [Doc.passed, rank_of_isMin ha]
      rfl
  · refine ⟨Locator.max, b.snapshot.fragments, [], 0,
      by simp [BufferSnapshot.fragmentIdForAnchor, ha, Anchor.not_isMin_of_isMax ha],
      ⟨by simp, fun f hf => (h.wf.good f hf).lt_max, by simp, by simp, by simp, fun _ => rfl⟩, ?_⟩
    rw [Doc.passed, take_rank_of_isMax ha, countP_eq_length_filter]
    show (cellsOf b.snapshot.fragments).length = ((Doc.of baseText sent).view b.snapshot.version).length
    rw [← h.mirrors.ids, length_map]
  · obtain ⟨pre, f, post, hsplit, hts, hle, hlt, -, hidx⟩ :=
      h.holder (Doc.mem_view.mpr ⟨ha.mem, ha.observed⟩)
    have hf : f ∈ b.snapshot.fragments := by rw [hsplit]; simp
    have hids := h.wf.ids
    rw [hsplit] at hids
    obtain ⟨-, hids2, hids3⟩ := List.pairwise_append.mp hids
    have hoff : f.insertionOffset ≤ a.offset ∧ a.offset ≤ f.insertionOffset + f.len := by
      have hpos := ha.pos
      unfold Anchor.byte at hle hlt
      cases hb : a.bias <;> simp only [hb, forall_const, reduceCtorEq, false_implies] at hle hlt hpos <;> omega
    refine ⟨f.id, pre, f :: post, a.offset - f.insertionOffset,
      BufferSnapshot.fragmentIdForAnchor_spec cfg h.wf hf ⟨hts, ha.pos, hle, hlt⟩ ha.not_min ha.not_max,
      ⟨hsplit, fun g hg => hids3 g hg f (by simp), fun g hg => ?_, fun g hg => ?_, fun g hg => ?_, fun hne => ?_⟩, ?_⟩
    · rcases List.mem_cons.mp hg with rfl | hg
      · exact le_refl _
      · exact le_of_lt ((List.pairwise_cons.mp hids2).1 g hg)
    · cases hg
      omega
    · cases hg
      omega
    · exact absurd rfl (hne f rfl)
    · have hcount : ((Doc.of baseText sent).order.take ((Doc.of baseText sent).order.idxOf a.byte)).countP
          (fun x => b.snapshot.version.observed x.1) = (cellsOf pre).length + (a.byte.2 - f.insertionOffset) := by
        rw [← hidx, countP_eq_length_filter, Doc.view,
          ← @take_idxOf_filter _ _ _ (fun x : CharId => b.snapshot.version.observed x.1) a.byte ha.observed,
          length_take, min_eq_left idxOf_le_length]
      have hobs : b.snapshot.version.observed a.byte.1 = true := ha.observed
      rw [Doc.passed, ha.countP_rank, hcount, hobs]
      have hpos := ha.pos
      unfold Anchor.byte at hle ⊢
      cases hb : a.bias <;> simp only [hb, forall_const, reduceCtorEq, false_implies, and_self, and_true,
        if_true, if_false] at hle hpos ⊢ <;> omega

theorem ReplicaInv.fragment_of (ha : a.At (Doc.of baseText sent) b.snapshot.version) :
    ∃ f ∈ b.snapshot.fragments, ∃ c ∈ f.cells, c.id = a.byte ∧
      b.snapshot.fragmentIdForAnchor cfg a = some f.id := by
  obtain ⟨pre, f, post, hsplit, hts, hle, hlt, -, -⟩ := h.holder (Doc.mem_view.mpr ⟨ha.mem, ha.observed⟩)
  have hf : f ∈ b.snapshot.fragments := by rw [hsplit]; simp
  refine ⟨f, hf, f.cellAt a.byte.2, mem_cells.mpr ⟨hle, hlt, rfl⟩, ?_, ?_⟩
  · show (f.timestamp, a.byte.2) = a.byte
    rw [hts]
  · exact BufferSnapshot.fragmentIdForAnchor_spec cfg h.wf hf ⟨hts, ha.pos, hle, hlt⟩ ha.not_min ha.not_max

end

theorem ReplicaInv.id_le_of_rank_le (h : ReplicaInv baseText sent r b)
    (ha : a.Placed (Doc.of baseText sent) b.snapshot.version)
    (ha' : a'.Placed (Doc.of baseText sent) b.snapshot.version)
    (hle : (Doc.of baseText sent).rank a ≤ (Doc.of baseText sent).rank a') {x y : Locator}
    (hx : b.snapshot.fragmentIdForAnchor cfg a = some x) (hy : b.snapshot.fragmentIdForAnchor cfg a' = some y) :
    x ≤ y := by
  have hmin : ∀ {k : Anchor} {z : Locator}, k.isMin = true → b.snapshot.fragmentIdForAnchor cfg k = some z →
      z = Locator.min := fun hk hz => by
    rw [BufferSnapshot.fragmentIdForAnchor, if_pos hk] at hz
    exact (some.inj hz).symm
  have hmax : ∀ {k : Anchor} {z : Locator}, k.isMax = true → b.snapshot.fragmentIdForAnchor cfg k = some z →
      z = Locator.max := fun hk hz => by
    rw [BufferSnapshot.fragmentIdForAnchor, if_neg (by rw [Anchor.not_isMin_of_isMax hk]; simp), if_pos hk] at hz
    exact (some.inj hz).symm
  have hat : ∀ {k : Anchor} {z : Locator}, k.At (Doc.of baseText sent) b.snapshot.version →
      b.snapshot.fragmentIdForAnchor cfg k = some z → ∃ f ∈ b.snapshot.fragments, f.id = z := fun hk hz => by
    obtain ⟨f, hf, -, -, -, hid⟩ := h.fragment_of cfg hk
    exact ⟨f, hf, some.inj (hid.symm.trans hz)⟩
  rcases ha with ha | ha | ha
  · rw [hmin ha hx]
    rcases ha' with ha' | ha' | ha'
    · rw [hmin ha' hy]
    · rw [hmax ha' hy]
      exact le_of_lt Locator.min_lt_max
    · obtain ⟨f, hf, rfl⟩ := hat ha' hy
      exact le_of_lt (h.wf.good f hf).min_lt
  · rw [rank_of_isMax ha] at hle
    rcases ha' with ha' | ha' | ha'
    · rw [rank_of_isMin ha'] at hle
      omega
    · rw [hmax ha hx, hmax ha' hy]
    · have := ha'.rank
      omega
  · rcases ha' with ha' | ha' | ha'
    · rw [rank_of_isMin ha'] at hle
      have := ha.rank
      omega
    · obtain ⟨f, hf, rfl⟩ := hat ha hx
      rw [hmax ha' hy]
      exact le_of_lt (h.wf.good f hf).lt_max
    · obtain ⟨f, hf, c, hc, hcid, hid⟩ := h.fragment_of cfg ha
      obtain ⟨g, hg, d, hd, hdid, hid'⟩ := h.fragment_of cfg ha'
      obtain rfl := some.inj (hid.symm.trans hx)
      obtain rfl := some.inj (hid'.symm.trans hy)
      refine not_lt.mp (fun hlt => ?_)
      have hidx := h.idxOf_lt_of_id_lt hg hf hd hc hlt
      rw [hcid, hdid] at hidx
      have h1 := ha.rank
      have h2 := ha'.rank
      omega

/-! ## Texts between two ranks -/

/-- The bytes of the document between two places that a version could see. -/
def Doc.between (doc : Doc) (byte : Lamport → Nat → UInt8) (v : Global) (j k : Nat) : List UInt8 :=
  (((doc.order.take k).drop j).filter (doc.wasVisible v)).map fun x => byte x.1 x.2

theorem Doc.observed_of_wasVisible {doc : Doc} {x : CharId} (h : doc.wasVisible v x = true) : v.observed x.1 = true := by
  rw [Doc.wasVisible, Bool.and_eq_true, Bool.and_eq_true] at h
  exact h.1.1

theorem Doc.filter_view_wasVisible (doc : Doc) (v : Global) :
    (doc.view v).filter (doc.wasVisible v) = doc.order.filter (doc.wasVisible v) := by
  rw [Doc.view, List.filter_filter]
  refine filter_congr (fun x _ => ?_)
  cases hx : doc.wasVisible v x with
  | false => rfl
  | true => rw [Doc.observed_of_wasVisible hx]; rfl

theorem Doc.slice_textAt (doc : Doc) (byte : Lamport → Nat → UInt8) (v : Global) {j k : Nat} (h : j ≤ k) :
    Range.slice ⟨(doc.order.take j).countP (doc.wasVisible v), (doc.order.take k).countP (doc.wasVisible v)⟩
      (doc.textAt byte v) = doc.between byte v j k := by
  rw [Range.slice, Range.len, ← drop_take, Doc.textAt, doc.filter_view_wasVisible v, ← map_take, ← map_drop,
    slice_countP_filter _ _ h, Doc.between]

/-- **The cells of a replica between two cuts**, those of one kind: the bytes of the document between the ranks. -/
theorem ReplicaInv.bytes_between (h : ReplicaInv baseText sent r b) {p : Cell → Bool}
    (hv : b.snapshot.version.observedAll v = true)
    (hp : ∀ c ∈ cellsOf b.snapshot.fragments, p c = (Doc.of baseText sent).wasVisible v c.id) {j k j' k' : Nat}
    (hjk : j ≤ k) (hj : j' = ((Doc.of baseText sent).order.take j).countP fun x => b.snapshot.version.observed x.1)
    (hk : k' = ((Doc.of baseText sent).order.take k).countP fun x => b.snapshot.version.observed x.1) :
    bytesOf (byteOf baseText sent) ((((cellsOf b.snapshot.fragments).take k').drop j').filter p) =
      (Doc.of baseText sent).between (byteOf baseText sent) v j k := by
  have hids : ((((cellsOf b.snapshot.fragments).take k').drop j').filter p).map Cell.id =
      (((Doc.of baseText sent).order.take k).drop j).filter ((Doc.of baseText sent).wasVisible v) := by
    have hfilter : (((cellsOf b.snapshot.fragments).take k').drop j').filter p =
        (((cellsOf b.snapshot.fragments).take k').drop j').filter
          (fun c => (Doc.of baseText sent).wasVisible v c.id) :=
      filter_congr (fun c hc => hp c (mem_of_mem_take (mem_of_mem_drop hc)))
    have hmap : (((cellsOf b.snapshot.fragments).take k').drop j').map Cell.id =
        (((Doc.of baseText sent).order.take k).drop j).filter (fun x => b.snapshot.version.observed x.1) := by
      rw [map_drop, map_take, h.mirrors.ids, Doc.view, hj, hk,
        @slice_countP_filter _ (fun x : CharId => b.snapshot.version.observed x.1) _ _ _ hjk]
    rw [hfilter]
    have := List.filter_map (p := (Doc.of baseText sent).wasVisible v) (f := Cell.id)
      (l := ((cellsOf b.snapshot.fragments).take k').drop j')
    rw [Function.comp_def] at this
    rw [← this, hmap, List.filter_filter]
    refine filter_congr (fun x _ => ?_)
    cases hx : (Doc.of baseText sent).wasVisible v x with
    | false => rfl
    | true => rw [Global.observed_of_observedAll hv (Doc.observed_of_wasVisible hx)]; rfl
  rw [Doc.between, ← hids, List.map_map]
  rfl

/-! ## Earlier and later documents -/

theorem Doc.countP_wasVisible (doc : Doc) (v : Global) (l : List CharId) :
    l.countP (doc.wasVisible v) = (l.filter fun x => v.observed x.1).countP (doc.wasVisible v) := by
  rw [countP_filter]
  refine countP_congr (fun x _ => ?_)
  rw [Bool.and_eq_true]
  exact ⟨fun hx => ⟨hx, Doc.observed_of_wasVisible hx⟩, And.left⟩

/-- **What a version could see before an anchor** is the same in every later document. -/
theorem Anchor.Placed.countP_later {ops : List Operation} (hops : ∀ op ∈ ops, v.observed op.timestamp = false)
    (ha : a.Placed (Doc.of baseText sent) v) :
    ((Doc.of baseText (sent ++ ops)).order.take ((Doc.of baseText (sent ++ ops)).rank a / 2)).countP
        ((Doc.of baseText (sent ++ ops)).wasVisible v) =
      ((Doc.of baseText sent).order.take ((Doc.of baseText sent).rank a / 2)).countP
        ((Doc.of baseText sent).wasVisible v) := by
  obtain ⟨hview, hvis, -⟩ := @doc_stable baseText sent v ops hops
  have hview' : (Doc.of baseText (sent ++ ops)).order.filter (fun x => v.observed x.1) =
      (Doc.of baseText sent).order.filter (fun x => v.observed x.1) := hview
  rcases ha with ha | ha | ha
  · rw [rank_of_isMin ha, rank_of_isMin ha]
    rfl
  · rw [take_rank_of_isMax ha, take_rank_of_isMax ha, Doc.countP_wasVisible, hview', hvis, ← Doc.countP_wasVisible]
  · have hlater : a.At (Doc.of baseText (sent ++ ops)) v :=
      ⟨ha.not_min, ha.not_max, ha.observed, ha.pos, Doc.mem_order_of ha.mem⟩
    have hbefore : ∀ {ops' : List Operation}, (List.take ((Doc.of baseText (sent ++ ops')).order.idxOf a.byte)
        (Doc.of baseText (sent ++ ops')).order).filter (fun x => v.observed x.1) =
          ((Doc.of baseText (sent ++ ops')).order.filter (fun x => v.observed x.1)).take
            (((Doc.of baseText (sent ++ ops')).order.filter (fun x => v.observed x.1)).idxOf a.byte) := fun {_} =>
      (@take_idxOf_filter _ _ _ (fun x : CharId => v.observed x.1) a.byte ha.observed _).symm
    have h1 := @hbefore ops
    have h0 := @hbefore []
    rw [append_nil] at h0
    rw [hlater.countP_rank, ha.countP_rank, Doc.countP_wasVisible, h1, hview', ← h0, hvis, ← Doc.countP_wasVisible]

/-- **A buffer, some time after a version of it**, and two anchors made there. -/
structure Later (cfg : Profile) (remoteId : Nat) (baseText : List Char) (r : Nat) (w w' : World) (a b : Anchor) :
    Prop where
  reachable : World.Reachable cfg remoteId baseText w
  run : ∃ as, Run (World.Step cfg) w as w'
  start : ∃ offset bias, (w.bufs r).snapshot.anchorAt cfg offset bias = some a
  stop : ∃ offset bias, (w.bufs r).snapshot.anchorAt cfg offset bias = some b
  ordered : a.cmp cfg b (w.bufs r).snapshot ≠ some .gt

/-- What the proofs read off the two states: the later one knows all that the earlier one did, and the anchors are in
order in its document. -/
structure Known (baseText : List Char) (r : Nat) (w w' : World) (a b : Anchor) : Prop where
  inv : WorldInv baseText w
  inv' : WorldInv baseText w'
  later : ∃ ops, w'.sent = w.sent ++ ops ∧ ∀ op ∈ ops, (w.bufs r).snapshot.version.observed op.timestamp = false
  observed : (w'.bufs r).snapshot.version.observedAll (w.bufs r).snapshot.version = true
  start : a.Placed (Doc.of baseText w.sent) (w.bufs r).snapshot.version
  stop : b.Placed (Doc.of baseText w.sent) (w.bufs r).snapshot.version
  start_id : a.bufferId = (w.bufs r).snapshot.remoteId
  stop_id : b.bufferId = (w.bufs r).snapshot.remoteId
  remoteId : (w'.bufs r).snapshot.remoteId = (w.bufs r).snapshot.remoteId
  start' : a.Placed (Doc.of baseText w'.sent) (w'.bufs r).snapshot.version
  stop' : b.Placed (Doc.of baseText w'.sent) (w'.bufs r).snapshot.version
  ordered : (Doc.of baseText w'.sent).rank a ≤ (Doc.of baseText w'.sent).rank b

section

variable {b : Anchor}

theorem World.Reachable.known (hw : World.Reachable cfg remoteId baseText w) {as : List (Nat × Action)}
    (hrun : Run (World.Step cfg) w as w') (ha : a.Placed (Doc.of baseText w.sent) (w.bufs r).snapshot.version)
    (hb : b.Placed (Doc.of baseText w.sent) (w.bufs r).snapshot.version)
    (hida : a.bufferId = (w.bufs r).snapshot.remoteId) (hidb : b.bufferId = (w.bufs r).snapshot.remoteId)
    (hle : (Doc.of baseText w.sent).rank a ≤ (Doc.of baseText w.sent).rank b) : Known baseText r w w' a b := by
  have hw' := hw.run hrun
  obtain ⟨ops, hsent⟩ := hrun.sent
  have hops := hw.unobserved hrun r hsent
  have hv := (hrun.version hw.inv r).1
  refine ⟨hw.inv, hw'.inv, ⟨ops, hsent, hops⟩, hv, ha, hb, hida, hidb, (hw'.named r).trans (hw.named r).symm, ?_, ?_, ?_⟩
  · rw [hsent]
    exact ha.later hv
  · rw [hsent]
    exact hb.later hv
  · rw [hsent]
    exact not_lt.mp (fun hlt => absurd ((rank_lt_iff_later hops hb ha).mp hlt) (not_lt_of_ge hle))

theorem Later.known (h : Later cfg remoteId baseText r w w' a b) : Known baseText r w w' a b := by
  obtain ⟨as, hrun⟩ := h.run
  obtain ⟨_, _, ha⟩ := h.start
  obtain ⟨_, _, hb⟩ := h.stop
  have hinv := h.reachable.inv
  obtain ⟨hplaced, hid, -⟩ := (hinv.replicas r).anchorAt_spec hinv.causal hinv.doc ha
  obtain ⟨hplaced', hid', -⟩ := (hinv.replicas r).anchorAt_spec hinv.causal hinv.doc hb
  have hcmp := h.ordered
  rw [(hinv.replicas r).cmp_spec cfg hinv.causal hinv.doc hplaced hplaced', ne_eq, Option.some.injEq,
    Nat.compare_eq_gt] at hcmp
  exact h.reachable.known hrun hplaced hplaced' hid hid' (not_lt.mp hcmp)

section

variable (h : Known baseText r w w' a b) (cfg : Profile)
include h

/-- **The old text of a range**, in the document of the later state. -/
theorem Known.oldText :
    ∃ x y, (w.bufs r).snapshot.offsetForAnchor cfg a = some x ∧ (w.bufs r).snapshot.offsetForAnchor cfg b = some y ∧
      Range.slice ⟨x, y⟩ (w.bufs r).text = (Doc.of baseText w'.sent).between (byteOf baseText w'.sent)
        (w.bufs r).snapshot.version ((Doc.of baseText w'.sent).rank a / 2) ((Doc.of baseText w'.sent).rank b / 2) := by
  have hr := h.inv.replicas r
  have hle := h.ordered
  obtain ⟨ops, hsent, hops⟩ := h.later
  rw [hsent] at hle ⊢
  refine ⟨_, _, hr.offset_rank cfg h.start_id h.start, hr.offset_rank cfg h.stop_id h.stop, ?_⟩
  rw [hr.text_eq, ← textAt_stable hops, ← h.start.countP_later hops, ← h.stop.countP_later hops,
    Doc.slice_textAt _ _ _ (Nat.div_le_div_right hle)]

theorem Known.newText :
    ∃ x y, (w'.bufs r).snapshot.offsetForAnchor cfg a = some x ∧ (w'.bufs r).snapshot.offsetForAnchor cfg b = some y ∧
      Range.slice ⟨x, y⟩ (w'.bufs r).text = (Doc.of baseText w'.sent).between (byteOf baseText w'.sent)
        (w'.bufs r).snapshot.version ((Doc.of baseText w'.sent).rank a / 2) ((Doc.of baseText w'.sent).rank b / 2) := by
  have hr := h.inv'.replicas r
  refine ⟨_, _, hr.offset_rank cfg (h.start_id.trans h.remoteId.symm) h.start',
    hr.offset_rank cfg (h.stop_id.trans h.remoteId.symm) h.stop', ?_⟩
  rw [hr.text_eq, Doc.slice_textAt _ _ _ (Nat.div_le_div_right h.ordered)]

/-- **The edits in a range**, and what they are about: the text of the range at the version, the text there now, and
the fragments that have changed. -/
theorem Known.edits (hne : (w.bufs r).snapshot.version ≠ (w'.bufs r).snapshot.version) :
    ∃ idA idB preA restA overA preB restB overB edits,
      (w'.bufs r).snapshot.fragmentIdForAnchor cfg a = some idA ∧
      (w'.bufs r).snapshot.fragmentIdForAnchor cfg b = some idB ∧ idA ≤ idB ∧
      Cuts (w'.bufs r).snapshot.fragments idA a.offset preA restA overA ∧
      Cuts (w'.bufs r).snapshot.fragments idB b.offset preB restB overB ∧
      (w'.bufs r).snapshot.editsSinceInRange cfg (w.bufs r).snapshot.version a b = some edits ∧
      Yields (overA = 0 ∧ ∀ f ∈ (w'.bufs r).snapshot.fragments, f.id ≠ idB) 0 0 [] [] []
        ((Doc.of baseText w'.sent).between (byteOf baseText w'.sent) (w.bufs r).snapshot.version
          ((Doc.of baseText w'.sent).rank a / 2) ((Doc.of baseText w'.sent).rank b / 2))
        ((Doc.of baseText w'.sent).between (byteOf baseText w'.sent) (w'.bufs r).snapshot.version
          ((Doc.of baseText w'.sent).rank a / 2) ((Doc.of baseText w'.sent).rank b / 2))
        (∃ f ∈ (w'.bufs r).snapshot.fragments, idA ≤ f.id ∧ f.id ≤ idB ∧
          EditsQuery.Changed ⟨(w.bufs r).snapshot.version, (w'.bufs r).snapshot.undoMap, (idA, a.offset), (idB, b.offset)⟩ f ∧
          (if f.id = idA then overA else 0) < EditsQuery.reach
            ⟨(w.bufs r).snapshot.version, (w'.bufs r).snapshot.undoMap, (idA, a.offset), (idB, b.offset)⟩ f) edits := by
  have hr := h.inv'.replicas r
  obtain ⟨idA, preA, restA, overA, hidA, hcutA, hcountA⟩ := hr.cuts cfg h.inv'.causal h.inv'.doc h.start'
  obtain ⟨idB, preB, restB, overB, hidB, hcutB, hcountB⟩ := hr.cuts cfg h.inv'.causal h.inv'.doc h.stop'
  have hle := hr.id_le_of_rank_le h.start' h.stop' h.ordered hidA hidB
  have hjk := Nat.div_le_div_right (c := 2) h.ordered
  have hcount : (cellsOf preA).length + overA ≤ (cellsOf preB).length + overB := by
    rw [hcountA, hcountB]
    exact Sublist.countP_le (take_sublist_take_left hjk)
  obtain ⟨edits, hedits, hyields⟩ := BufferSnapshot.editsSinceInRange_spec hr.wf hne hidA hidB hcutA hcutB hle hcount
    rfl rfl
  refine ⟨idA, idB, preA, restA, overA, preB, restB, overB, edits, hidA, hidB, hle, hcutA, hcutB, hedits, ?_⟩
  have hold := hr.bytes_between h.observed
    (fun c hc => hr.mirrors.wasVisible hr.wf.undosSorted h.observed hc) hjk hcountA hcountB
  have hnew := hr.bytes_between (Global.observedAll_refl _)
    (p := fun c => c.visible == true) (fun c hc => by rw [← hr.mirrors.visible hr.wf hc, beq_true]) hjk hcountA hcountB
  rw [oldTextOf, hold] at hyields
  rw [show textOf (byteOf baseText w'.sent) true = fun cells => bytesOf (byteOf baseText w'.sent)
    (cells.filter fun c => c.visible == true) from rfl] at hyields
  simp only [hnew] at hyields
  exact hyields

end

end

theorem later_exchanged {a b : Anchor} (ha : ∃ offset bias, ((World.init .test 7 ['a', 'b']).bufs 2).snapshot.anchorAt
    .test offset bias = some a) (hb : ∃ offset bias, ((World.init .test 7 ['a', 'b']).bufs 2).snapshot.anchorAt .test
      offset bias = some b) (hab : a.cmp .test b ((World.init .test 7 ['a', 'b']).bufs 2).snapshot ≠ some .gt) :
    Later .test 7 ['a', 'b'] 2 (World.init .test 7 ['a', 'b']) exchanged a b :=
  ⟨⟨[], .nil⟩, ⟨exchange, World.run_after (by decide)⟩, ha, hb, hab⟩

def Fragment.inRange (f : Fragment) (idA idB : Locator) (a b : Anchor) : Bool :=
  (if f.id = idA then a.offset else f.insertionOffset) < if f.id = idB then b.offset else f.insertionOffset + f.len

/-- **When the fast check is right**: a fragment between those of the ends has changed; or that of the end, if it is
another one than that of the start, has changed if and only if the range has some of a changed fragment of the
ends. -/
def BufferSnapshot.endsAgree (cfg : Profile) (s : BufferSnapshot) (since : Global) (a b : Anchor) : Bool :=
  match s.fragmentIdForAnchor cfg a, s.fragmentIdForAnchor cfg b with
  | some idA, some idB =>
    (s.fragments.any fun f => idA < f.id && f.id < idB && s.changedSince since f) ||
      (s.fragments.any fun f => idA < f.id && f.id = idB && s.changedSince since f) ==
        s.fragments.any fun f => (f.id = idA || f.id = idB) && s.changedSince since f && f.inRange idA idB a b
  | _, _ => false

theorem BufferSnapshot.endsAgree_iff {s : BufferSnapshot} {since : Global} {b : Anchor} {idA idB : Locator}
    (hidA : s.fragmentIdForAnchor cfg a = some idA) (hidB : s.fragmentIdForAnchor cfg b = some idB) :
    s.endsAgree cfg since a b = true ↔
      (∃ f ∈ s.fragments, idA < f.id ∧ f.id < idB ∧ s.changedSince since f = true) ∨
        ((∃ f ∈ s.fragments, idA < f.id ∧ f.id = idB ∧ s.changedSince since f = true) ↔
          ∃ f ∈ s.fragments, (f.id = idA ∨ f.id = idB) ∧ s.changedSince since f = true ∧
            f.inRange idA idB a b = true) := by
  rw [endsAgree, hidA, hidB]
  rw [Bool.or_eq_true, beq_iff_eq]
  refine or_congr ?_ (Bool.eq_iff_iff.trans (iff_congr ?_ ?_)) <;>
    simp only [List.any_eq_true, Bool.and_eq_true, Bool.or_eq_true, decide_eq_true_eq, and_assoc]

theorem or_iff_or {M E P : Prop} : (M ∨ E ↔ M ∨ P) ↔ M ∨ (E ↔ P) := by tauto

/-- Two questions about the fragments of a range. They differ in the fragments of its ends at most. -/
theorem behind_iff_within {fs : List Fragment} {idA idB : Locator} {c p : Fragment → Prop} (hle : idA ≤ idB)
    (hp : ∀ f ∈ fs, idA < f.id → f.id < idB → p f) :
    ((∃ f ∈ fs, idA < f.id ∧ f.id ≤ idB ∧ c f) ↔ ∃ f ∈ fs, idA ≤ f.id ∧ f.id ≤ idB ∧ c f ∧ p f) ↔
      (∃ f ∈ fs, idA < f.id ∧ f.id < idB ∧ c f) ∨
        ((∃ f ∈ fs, idA < f.id ∧ f.id = idB ∧ c f) ↔ ∃ f ∈ fs, (f.id = idA ∨ f.id = idB) ∧ c f ∧ p f) := by
  have hbehind : (∃ f ∈ fs, idA < f.id ∧ f.id ≤ idB ∧ c f) ↔
      (∃ f ∈ fs, idA < f.id ∧ f.id < idB ∧ c f) ∨ ∃ f ∈ fs, idA < f.id ∧ f.id = idB ∧ c f := by
    rw [← exists_or]
    refine exists_congr (fun f => ?_)
    rw [le_iff_lt_or_eq]
    tauto
  have hwithin : (∃ f ∈ fs, idA ≤ f.id ∧ f.id ≤ idB ∧ c f ∧ p f) ↔
      (∃ f ∈ fs, idA < f.id ∧ f.id < idB ∧ c f) ∨ ∃ f ∈ fs, (f.id = idA ∨ f.id = idB) ∧ c f ∧ p f := by
    constructor
    · rintro ⟨f, hf, h1, h2, hc, hpf⟩
      rcases lt_or_eq_of_le h1 with h1 | h1
      · rcases lt_or_eq_of_le h2 with h2 | h2
        · exact .inl ⟨f, hf, h1, h2, hc⟩
        · exact .inr ⟨f, hf, .inr h2, hc, hpf⟩
      · exact .inr ⟨f, hf, .inl h1.symm, hc, hpf⟩
    · rintro (⟨f, hf, h1, h2, hc⟩ | ⟨f, hf, hid, hc, hpf⟩)
      · exact ⟨f, hf, le_of_lt h1, le_of_lt h2, hc, hp f hf h1 h2⟩
      · rcases hid with hid | hid
        · exact ⟨f, hf, le_of_eq hid.symm, hid ▸ hle, hc, hpf⟩
        · exact ⟨f, hf, hid ▸ hle, le_of_eq hid, hc, hpf⟩
  rw [hbehind, hwithin, or_iff_or]

theorem Cuts.eq_head {fragments pre rest : List Fragment} {id : Locator} {offset overshoot : Nat} {f : Fragment}
    (h : Cuts fragments id offset pre rest overshoot) (hids : IdsSorted fragments) (hf : f ∈ fragments) (hid : f.id = id) :
    f ∈ rest.head? := by
  rw [h.split] at hf hids
  rcases List.mem_append.mp hf with hf | hf
  · exact absurd (h.before f hf) (by rw [hid]; exact lt_irrefl _)
  · cases rest with
    | nil => exact absurd hf not_mem_nil
    | cons g rest =>
      rcases List.mem_cons.mp hf with rfl | hf
      · rfl
      · have := (List.pairwise_cons.mp (List.pairwise_append.mp hids).2.1).1 f hf
        rw [hid] at this
        exact absurd this (not_lt_of_ge (h.behind g (by simp)))

theorem inRange_iff {fragments preA restA preB restB : List Fragment} {idA idB : Locator} {b : Anchor}
    {overA overB : Nat} {q : EditsQuery} {f : Fragment} (hids : IdsSorted fragments)
    (ha : Cuts fragments idA a.offset preA restA overA) (hb : Cuts fragments idB b.offset preB restB overB)
    (hq : q.stop = (idB, b.offset)) (hf : f ∈ fragments) :
    (if f.id = idA then overA else 0) < q.reach f ↔ f.inRange idA idB a b = true := by
  have hA : f.id = idA → f.insertionOffset + overA = a.offset ∧ overA ≤ f.len := fun hid =>
    ⟨ha.overshoot_eq f (ha.eq_head hids hf hid), ha.overshoot_le f (ha.eq_head hids hf hid)⟩
  have hB : f.id = idB → f.insertionOffset + overB = b.offset ∧ overB ≤ f.len := fun hid =>
    ⟨hb.overshoot_eq f (hb.eq_head hids hf hid), hb.overshoot_le f (hb.eq_head hids hf hid)⟩
  rw [EditsQuery.reach, hq, Fragment.inRange, decide_eq_true_eq]
  by_cases h1 : f.id = idA <;> by_cases h2 : f.id = idB
  · have := hA h1
    have := hB h2
    simp only [if_pos h1, if_pos h2]
    omega
  · have := hA h1
    simp only [if_pos h1, if_neg h2]
    omega
  · have := hB h2
    simp only [if_neg h1, if_pos h2]
    omega
  · simp only [if_neg h1, if_neg h2]
    omega

theorem ReplicaInv.not_changed (h : ReplicaInv baseText sent r b) {f : Fragment} (hf : f ∈ b.snapshot.fragments) :
    b.snapshot.changedSince b.snapshot.version f = false := by
  have hpos := h.wf.len_pos f hf
  have hcell : f.cellAt f.insertionOffset ∈ f.cells := mem_cells.mpr ⟨le_refl _, Nat.lt_add_of_pos_right hpos, rfl⟩
  have hmem := mem_cellsOf.mpr ⟨f, hf, hcell⟩
  have hvis := h.mirrors.visible h.wf hmem
  rw [← h.mirrors.wasVisible h.wf.undosSorted (Global.observedAll_refl _) hmem, Fragment.wasVisible_cell hcell] at hvis
  rw [BufferSnapshot.changedSince, ← hvis]
  exact bne_self_eq_false _

end

end SpkEditor
