import SpkEditor.Replica.Representation
import SpkEditor.Text.AnchorProof

/-!
# Anchors in the document

An anchor has a rank in the shared document: how far along its byte is, and on which
side of it the anchor sits. `cmp` compares ranks (`cmp_spec`) and `offset_for_anchor`
counts what is visible up to the rank (`offset_spec`), on every replica that has
observed the byte. Both therefore mean the same everywhere, and the order of ranks
never changes.
-/

namespace SpkEditor

open List

/-- Whether a byte is there and visible. -/
def BufferSnapshot.shows (s : BufferSnapshot) (x : CharId) : Bool := decide ((x.1, x.2, true) ∈ s.chars)

/-- An anchor that a version of the document can resolve: one of the ends, or at a byte that
has been observed. -/
structure Anchor.At (doc : Doc) (v : Global) (a : Anchor) : Prop where
  not_min : a.isMin = false
  not_max : a.isMax = false
  observed : v.observed a.timestamp = true
  pos : a.bias = .left → 0 < a.offset
  mem : a.byte ∈ doc.order

def Anchor.Placed (doc : Doc) (v : Global) (a : Anchor) : Prop :=
  a.isMin = true ∨ a.isMax = true ∨ a.At doc v

/-- Where an anchor stands in the document, counting a place before and after each byte. -/
def Doc.rank (doc : Doc) (a : Anchor) : Nat :=
  if a.isMin then 0
  else if a.isMax then 2 * doc.order.length + 1
  else 2 * doc.order.idxOf a.byte + (2 - a.bias.toNat)

section

variable {baseText : List Char} {sent : List Operation} {r : Nat} {b : Buffer}

/-! ## The fragment of a byte -/

theorem countP_visible_cellsOf (fs : List Fragment) :
    (cellsOf fs).countP (fun c => c.visible) = visibleLen fs := by
  rw [← length_textOf_visible (fun _ _ => 0), textOf, length_map, countP_eq_length_filter]
  congr 2
  funext c
  simp

theorem countP_visible_take (f : Fragment) {m : Nat} (hm : m ≤ f.len) :
    (f.cells.take m).countP (fun c => c.visible) = if f.visible then m else 0 := by
  have hall : ∀ c ∈ f.cells.take m, c.visible = f.visible := fun c hc =>
    (cells_uniform (mem_of_mem_take hc)).2.1
  have hlen : (f.cells.take m).length = m := by simp [hm]
  cases hv : f.visible with
  | true =>
    rw [List.countP_eq_length.mpr (fun c hc => by rw [hall c hc, hv]), hlen]
    rfl
  | false =>
    rw [List.countP_eq_zero.mpr (fun c hc => by rw [hall c hc, hv]; exact Bool.false_ne_true)]
    rfl

section

variable (h : ReplicaInv baseText sent r b)
include h

theorem ReplicaInv.idxOf_cell {pre post : List Fragment}
    {f : Fragment} {c : Cell} (hsplit : b.snapshot.fragments = pre ++ f :: post)
    (hc : c ∈ f.cells) :
    ((Doc.of baseText sent).view b.snapshot.version).idxOf c.id =
      (cellsOf pre).length + (c.offset - f.insertionOffset) := by
  obtain ⟨h1, h2, h3⟩ := mem_cells.mp hc
  have hcut : f.cells = f.cells.take (c.offset - f.insertionOffset) ++
      c :: f.cells.drop (c.offset - f.insertionOffset + 1) := by
    have hlt : c.offset - f.insertionOffset < f.cells.length := by
      rw [Fragment.length_cells]; omega
    have hget : f.cells[c.offset - f.insertionOffset] = c := by
      simp only [Fragment.cells, getElem_map, getElem_range']
      rw [show f.insertionOffset + 1 * (c.offset - f.insertionOffset) = c.offset by omega]
      exact h3.symm
    conv_lhs => rw [← take_append_drop (c.offset - f.insertionOffset) f.cells]
    rw [drop_eq_getElem_cons hlt, hget]
  have hcells : cellsOf b.snapshot.fragments =
      (cellsOf pre ++ f.cells.take (c.offset - f.insertionOffset)) ++
        c :: (f.cells.drop (c.offset - f.insertionOffset + 1) ++ cellsOf post) := by
    rw [hsplit, cellsOf_append, cellsOf_cons]
    conv_lhs => rw [hcut]
    simp [append_assoc]
  have hnd := h.wf.nodup
  rw [← h.mirrors.ids, hcells]
  rw [hcells] at hnd
  rw [map_append, map_cons] at hnd ⊢
  have hnotin : c.id ∉ (cellsOf pre ++ f.cells.take (c.offset - f.insertionOffset)).map Cell.id := by
    intro hin
    exact (List.nodup_append.mp hnd).2.2 _ hin _ (mem_cons_self ..) rfl
  rw [idxOf_append_cons hnotin, length_map, length_append, length_take, Fragment.length_cells]
  omega

/-- **Where the byte of a replica stands**: in which fragment, and how far along. -/
theorem ReplicaInv.holder {x : CharId} (hx : x ∈ (Doc.of baseText sent).view b.snapshot.version) :
    ∃ pre f post, b.snapshot.fragments = pre ++ f :: post ∧ f.timestamp = x.1 ∧
      f.insertionOffset ≤ x.2 ∧ x.2 < f.insertionOffset + f.len ∧
      f.visible = (Doc.of baseText sent).wasVisible b.snapshot.version x ∧
      ((Doc.of baseText sent).view b.snapshot.version).idxOf x =
        (cellsOf pre).length + (x.2 - f.insertionOffset) := by
  rw [← h.mirrors.ids] at hx
  obtain ⟨c, hc, rfl⟩ := List.mem_map.mp hx
  obtain ⟨f, hf, hcf⟩ := mem_cellsOf.mp hc
  obtain ⟨pre, post, hsplit⟩ := append_of_mem hf
  obtain ⟨h1, h2, -⟩ := mem_cells.mp hcf
  have hu := cells_uniform hcf
  refine ⟨pre, f, post, hsplit, hu.1.symm, h1, h2, ?_, h.idxOf_cell hsplit hcf⟩
  rw [← hu.2.1]
  exact h.mirrors.visible h.wf hc

/-- **What is visible before a byte**, counted in the document and in the fragments. -/
theorem ReplicaInv.countP_before {x : CharId}
    {pre post : List Fragment} {f : Fragment} (hobs : b.snapshot.version.observed x.1 = true)
    (hsplit : b.snapshot.fragments = pre ++ f :: post) (hlt : x.2 < f.insertionOffset + f.len)
    (hidx : ((Doc.of baseText sent).view b.snapshot.version).idxOf x =
      (cellsOf pre).length + (x.2 - f.insertionOffset)) :
    ((Doc.of baseText sent).order.take ((Doc.of baseText sent).order.idxOf x)).countP
        ((Doc.of baseText sent).wasVisible b.snapshot.version) =
      visibleLen pre + if f.visible then x.2 - f.insertionOffset else 0 := by
  have hview : ((Doc.of baseText sent).order.take ((Doc.of baseText sent).order.idxOf x)).countP
        ((Doc.of baseText sent).wasVisible b.snapshot.version) =
      (((Doc.of baseText sent).view b.snapshot.version).take
        (((Doc.of baseText sent).view b.snapshot.version).idxOf x)).countP
        ((Doc.of baseText sent).wasVisible b.snapshot.version) := by
    rw [Doc.view, @take_idxOf_filter _ _ _ (fun x : CharId => b.snapshot.version.observed x.1) x hobs,
      countP_filter]
    refine countP_congr (fun y _ => ?_)
    -- what is visible has been observed
    rw [Bool.and_eq_true]
    refine ⟨fun hv => ⟨hv, ?_⟩, fun hv => hv.1⟩
    rw [Doc.wasVisible, Bool.and_eq_true, Bool.and_eq_true] at hv
    exact hv.1.1
  rw [hview, hidx, ← h.mirrors.ids, ← map_take, countP_map]
  have hcells : (cellsOf b.snapshot.fragments).take ((cellsOf pre).length + (x.2 - f.insertionOffset)) =
      cellsOf pre ++ f.cells.take (x.2 - f.insertionOffset) := by
    rw [hsplit, cellsOf_append, cellsOf_cons, take_length_add_append,
      take_append_of_le_length (by rw [Fragment.length_cells]; omega)]
  have hcongr : ∀ c ∈ (cellsOf b.snapshot.fragments).take
      ((cellsOf pre).length + (x.2 - f.insertionOffset)),
      ((Doc.of baseText sent).wasVisible b.snapshot.version ∘ Cell.id) c = true ↔ c.visible = true := by
    intro c hc
    rw [h.mirrors.visible h.wf (mem_of_mem_take hc)]
    rfl
  rw [countP_congr hcongr, hcells, countP_append, countP_visible_cellsOf,
    countP_visible_take f (by omega)]

end

/-- **The offset of an anchor**: the visible bytes of the document before its byte, and the
byte itself if the anchor sits after it. -/
theorem ReplicaInv.offset_spec (cfg : Profile) (h : ReplicaInv baseText sent r b) {a : Anchor}
    (hid : a.bufferId = b.snapshot.remoteId)
    (ha : a.At (Doc.of baseText sent) b.snapshot.version) :
    b.snapshot.offsetForAnchor cfg a =
      some (((Doc.of baseText sent).order.take ((Doc.of baseText sent).order.idxOf a.byte)).countP
          ((Doc.of baseText sent).wasVisible b.snapshot.version) +
        if a.bias = .left ∧ (Doc.of baseText sent).wasVisible b.snapshot.version a.byte = true
        then 1 else 0) := by
  have hview : a.byte ∈ (Doc.of baseText sent).view b.snapshot.version :=
    Doc.mem_view.mpr ⟨ha.mem, ha.observed⟩
  obtain ⟨pre, f, post, hsplit, hts, hle, hlt, hvis, hidx⟩ := h.holder hview
  have hholds : f.Holds a := ⟨hts, ha.pos, hle, hlt⟩
  rw [BufferSnapshot.offsetForAnchor_spec cfg h.wf hsplit hholds ha.not_min ha.not_max hid,
    h.countP_before ha.observed hsplit hlt hidx, ← hvis]
  congr 1
  cases hb : a.bias with
  | right =>
    have hbyte : a.byte.2 = a.offset := by rw [Anchor.byte, hb]
    rw [hbyte]
    simp
  | left =>
    have hbyte : a.byte.2 = a.offset - 1 := by rw [Anchor.byte, hb]
    have := ha.pos hb
    cases hv : f.visible with
    | false => simp
    | true =>
      simp only [if_true, and_self]
      omega

theorem idxOf_insertion (hc : Causal sent) (hdoc : DocInv baseText sent (Doc.of baseText sent))
    {t : Lamport} {i j : Nat} (hi : (t, i) ∈ (Doc.of baseText sent).order)
    (hj : (t, j) ∈ (Doc.of baseText sent).order) :
    (Doc.of baseText sent).order.idxOf (t, i) < (Doc.of baseText sent).order.idxOf (t, j) ↔ i < j := by
  have hins : (Doc.of baseText sent).order.filter (fun x => decide (x.1 = t)) =
      (List.range' 0 (contentOf baseText sent t).length).map fun o => (t, o) :=
    hdoc.insertion hc (hdoc.inserted _ hi)
  have hkeep : ∀ k, decide (((t, k) : CharId).1 = t) = true := fun k => decide_eq_true rfl
  rw [← @idxOf_lt_filter _ _ _ (fun x : CharId => decide (x.1 = t)) _ _ _ (hkeep i) (hkeep j) hi, hins]
  have hidx : ∀ k, (t, k) ∈ (Doc.of baseText sent).order →
      ((List.range' 0 (contentOf baseText sent t).length).map fun o => (t, o)).idxOf (t, k) = k := by
    intro k hk
    have hmem : (t, k) ∈ (Doc.of baseText sent).order.filter (fun x => decide (x.1 = t)) :=
      List.mem_filter.mpr ⟨hk, hkeep k⟩
    rw [hins, List.mem_map] at hmem
    obtain ⟨o, ho, heq⟩ := hmem
    obtain rfl := (Prod.mk.inj heq).2
    have hlt : o < (contentOf baseText sent t).length := by
      have := List.mem_range'_1.mp ho
      omega
    have hnd : ((List.range' 0 (contentOf baseText sent t).length).map fun o => (t, o)).Nodup :=
      Nodup.map_on (fun a _ b _ heq => (Prod.mk.inj heq).2) nodup_range'
    have hlen : o < ((List.range' 0 (contentOf baseText sent t).length).map
        fun o => (t, o)).length := by simpa using hlt
    have hidx := hnd.idxOf_getElem o hlen
    rwa [getElem_map, getElem_range', zero_add, one_mul] at hidx
  rw [hidx i hi, hidx j hj]

theorem ReplicaInv.idxOf_lt_of_id_lt (h : ReplicaInv baseText sent r b) {f g : Fragment} {c d : Cell}
    (hf : f ∈ b.snapshot.fragments) (hg : g ∈ b.snapshot.fragments) (hcf : c ∈ f.cells)
    (hdg : d ∈ g.cells) (hlt : f.id < g.id) :
    (Doc.of baseText sent).order.idxOf c.id < (Doc.of baseText sent).order.idxOf d.id := by
  obtain ⟨pre, post, hsplit⟩ := append_of_mem hg
  have hids := h.wf.ids
  rw [hsplit] at hf hids
  have hfpre : f ∈ pre := by
    rcases List.mem_append.mp hf with hf | hf
    · exact hf
    · rcases List.mem_cons.mp hf with rfl | hf
      · exact absurd hlt (lt_irrefl _)
      · have := (List.pairwise_cons.mp (List.pairwise_append.mp hids).2.1).1 f hf
        exact absurd hlt (not_lt_of_gt this)
  have hmem : ∀ {x : Cell} {k : Fragment}, k ∈ b.snapshot.fragments → x ∈ k.cells →
      x.id ∈ (Doc.of baseText sent).order ∧ b.snapshot.version.observed x.id.1 = true := by
    intro x k hk hx
    have : x.id ∈ (Doc.of baseText sent).view b.snapshot.version := by
      rw [← h.mirrors.ids]
      exact List.mem_map_of_mem (mem_cellsOf.mpr ⟨k, hk, hx⟩)
    exact Doc.mem_view.mp this
  have hcm := hmem (by rw [hsplit]; exact hf) hcf
  have hdm := hmem hg hdg
  refine (@idxOf_lt_filter _ _ _ (fun x : CharId => b.snapshot.version.observed x.1) _ _ _ hcm.2 hdm.2
    hcm.1).mp ?_
  show ((Doc.of baseText sent).view b.snapshot.version).idxOf c.id <
    ((Doc.of baseText sent).view b.snapshot.version).idxOf d.id
  rw [h.idxOf_cell hsplit hdg]
  have hin : c.id ∈ (cellsOf pre).map Cell.id := List.mem_map_of_mem (mem_cellsOf.mpr ⟨f, hfpre, hcf⟩)
  rw [← h.mirrors.ids, hsplit, cellsOf_append, map_append, idxOf_append_of_mem hin]
  have := idxOf_lt_length_of_mem hin
  rw [length_map] at this
  omega

section Compare

variable {a a' : Anchor} {v : Global}

theorem Anchor.timestamp_of_isMin (h : a.isMin = true) : a.timestamp = Lamport.MIN := by
  simp only [Anchor.isMin, Bool.and_eq_true, beq_iff_eq] at h
  exact h.1.1

theorem Anchor.timestamp_of_isMax (h : a.isMax = true) : a.timestamp = Lamport.MAX := by
  simp only [Anchor.isMax, Bool.and_eq_true, beq_iff_eq] at h
  exact h.1.1

theorem Anchor.not_isMin_of_isMax (h : a.isMax = true) : a.isMin = false := by
  by_contra hne
  have h1 := Anchor.timestamp_of_isMin (Bool.of_not_eq_false hne)
  rw [Anchor.timestamp_of_isMax h] at h1
  exact absurd h1 (by decide)

section

variable (hc : Causal sent) (hdoc : DocInv baseText sent (Doc.of baseText sent))
include hc hdoc

theorem timestamp_of_mem {x : CharId} (hx : x ∈ (Doc.of baseText sent).order) :
    x.1 ≠ Lamport.MIN ∧ x.1 ≠ Lamport.MAX := by
  have hbounds : 0 < x.1.value ∧ x.1.value < Lamport.SEQ_MAX := by
    rcases hdoc.inserted _ hx with hb | ⟨op, hop, ht⟩
    · rw [show x.1 = baseId from hb]
      decide
    · rw [← ht]
      exact ⟨lt_of_le_of_lt (Nat.zero_le _) (hc.clock _ hop 0), hc.bounded _ hop⟩
  constructor <;> intro heq <;> rw [heq] at hbounds <;> exact absurd hbounds (by decide)

theorem Anchor.At.timestamp (ha : a.At (Doc.of baseText sent) v) :
    a.timestamp ≠ Lamport.MIN ∧ a.timestamp ≠ Lamport.MAX := timestamp_of_mem hc hdoc ha.mem

end

theorem Anchor.At.rank {doc : Doc} (ha : a.At doc v) :
    doc.rank a = 2 * doc.order.idxOf a.byte + (2 - a.bias.toNat) ∧
      doc.order.idxOf a.byte < doc.order.length ∧ a.bias.toNat ≤ 1 := by
  refine ⟨by simp [Doc.rank, ha.not_min, ha.not_max], idxOf_lt_length_of_mem ha.mem, ?_⟩
  cases a.bias <;> decide

theorem rank_of_isMin {doc : Doc} (h : a.isMin = true) : doc.rank a = 0 := by simp [Doc.rank, h]

theorem rank_of_isMax {doc : Doc} (h : a.isMax = true) : doc.rank a = 2 * doc.order.length + 1 := by
  simp [Doc.rank, h, Anchor.not_isMin_of_isMax h]

/-- **Anchors in different insertions**: the ids of their fragments are in the order of the
document. -/
theorem ReplicaInv.id_lt_of_rank_lt (cfg : Profile) (h : ReplicaInv baseText sent r b)
    (ha : a.Placed (Doc.of baseText sent) b.snapshot.version)
    (hb : a'.Placed (Doc.of baseText sent) b.snapshot.version) (hne : a.timestamp ≠ a'.timestamp)
    (hlt : (Doc.of baseText sent).rank a < (Doc.of baseText sent).rank a') :
    ∃ x y, b.snapshot.fragmentIdForAnchor cfg a = some x ∧
      b.snapshot.fragmentIdForAnchor cfg a' = some y ∧ x < y := by
  have hat : ∀ {k : Anchor}, k.At (Doc.of baseText sent) b.snapshot.version →
      ∃ f ∈ b.snapshot.fragments, ∃ c ∈ f.cells, c.id = k.byte ∧ f.timestamp = k.timestamp ∧
        b.snapshot.fragmentIdForAnchor cfg k = some f.id := by
    intro k hk
    obtain ⟨pre, f, post, hsplit, hts, hle, hlt, -, -⟩ :=
      h.holder (Doc.mem_view.mpr ⟨hk.mem, hk.observed⟩)
    have hf : f ∈ b.snapshot.fragments := by rw [hsplit]; simp
    refine ⟨f, hf, f.cellAt k.byte.2, mem_cells.mpr ⟨hle, hlt, rfl⟩, ?_, hts, ?_⟩
    · show (f.timestamp, k.byte.2) = k.byte
      rw [hts]
    · exact BufferSnapshot.fragmentIdForAnchor_spec cfg h.wf hf ⟨hts, hk.pos, hle, hlt⟩ hk.not_min
        hk.not_max
  have hmin : ∀ {k : Anchor}, k.isMin = true →
      b.snapshot.fragmentIdForAnchor cfg k = some Locator.min := fun hk => by
    simp [BufferSnapshot.fragmentIdForAnchor, hk]
  have hmax : ∀ {k : Anchor}, k.isMax = true →
      b.snapshot.fragmentIdForAnchor cfg k = some Locator.max := fun hk => by
    simp [BufferSnapshot.fragmentIdForAnchor, hk, Anchor.not_isMin_of_isMax hk]
  rcases ha with ha | ha | ha <;> rcases hb with hb | hb | hb
  · exact absurd ((Anchor.timestamp_of_isMin ha).trans (Anchor.timestamp_of_isMin hb).symm) hne
  · exact ⟨_, _, hmin ha, hmax hb, Locator.min_lt_max⟩
  · obtain ⟨f, hf, -, -, -, -, hid⟩ := hat hb
    exact ⟨_, _, hmin ha, hid, (h.wf.good f hf).min_lt⟩
  · rw [rank_of_isMin hb] at hlt
    exact absurd hlt (Nat.not_lt_zero _)
  · exact absurd ((Anchor.timestamp_of_isMax ha).trans (Anchor.timestamp_of_isMax hb).symm) hne
  · obtain ⟨hr, hle, -⟩ := hb.rank
    rw [rank_of_isMax ha, hr] at hlt
    omega
  · rw [rank_of_isMin hb] at hlt
    exact absurd hlt (Nat.not_lt_zero _)
  · obtain ⟨f, hf, -, -, -, -, hid⟩ := hat ha
    exact ⟨_, _, hid, hmax hb, (h.wf.good f hf).lt_max⟩
  · obtain ⟨f, hf, c, hc, hcid, hft, hfid⟩ := hat ha
    obtain ⟨g, hg, d, hd, hdid, hgt, hgid⟩ := hat hb
    refine ⟨_, _, hfid, hgid, ?_⟩
    obtain ⟨hra, -, hba⟩ := ha.rank
    obtain ⟨hrb, -, hbb⟩ := hb.rank
    rcases lt_trichotomy f.id g.id with hid | hid | hid
    · exact hid
    · have : f = g := BufferSnapshot.eq_of_id h.wf.ids hf hg hid
      exact absurd (hft.symm.trans ((congrArg Fragment.timestamp this).trans hgt)) hne
    · have := h.idxOf_lt_of_id_lt hg hf hd hc hid
      rw [hcid, hdid] at this
      omega

theorem rank_ne (ha : a.Placed (Doc.of baseText sent) v) (hb : a'.Placed (Doc.of baseText sent) v)
    (hne : a.timestamp ≠ a'.timestamp) :
    (Doc.of baseText sent).rank a ≠ (Doc.of baseText sent).rank a' := by
  intro heq
  rcases ha with ha | ha | ha <;> rcases hb with hb | hb | hb
  · exact hne ((Anchor.timestamp_of_isMin ha).trans (Anchor.timestamp_of_isMin hb).symm)
  · rw [rank_of_isMin ha, rank_of_isMax hb] at heq; omega
  · rw [rank_of_isMin ha, hb.rank.1] at heq
    have := hb.rank.2.2
    omega
  · rw [rank_of_isMax ha, rank_of_isMin hb] at heq; omega
  · exact hne ((Anchor.timestamp_of_isMax ha).trans (Anchor.timestamp_of_isMax hb).symm)
  · rw [rank_of_isMax ha, hb.rank.1] at heq
    have := hb.rank.2
    omega
  · rw [ha.rank.1, rank_of_isMin hb] at heq
    have := ha.rank.2.2
    omega
  · rw [ha.rank.1, rank_of_isMax hb] at heq
    have := ha.rank.2
    omega
  · rw [ha.rank.1, hb.rank.1] at heq
    have h1 := ha.rank.2
    have h2 := hb.rank.2
    have hidx : (Doc.of baseText sent).order.idxOf a.byte =
        (Doc.of baseText sent).order.idxOf a'.byte := by omega
    have hbyte := (idxOf_inj ha.mem).mp hidx
    exact hne (congrArg Prod.fst hbyte)

/-- Comparing by two numbers, one after the other, is comparing by one that respects both. -/
theorem then_compare {x y p q m n : Nat} (hlt : x < y → m < n) (hgt : y < x → n < m)
    (heq : x = y → (p < q ∧ m < n) ∨ (p = q ∧ m = n) ∨ (q < p ∧ n < m)) :
    (compare x y).then (compare p q) = compare m n := by
  rcases lt_trichotomy x y with h | h | h
  · rw [Nat.compare_eq_lt.mpr h, Nat.compare_eq_lt.mpr (hlt h)]
    rfl
  · rw [Nat.compare_eq_eq.mpr h, Ordering.eq_then]
    rcases heq h with ⟨h1, h2⟩ | ⟨h1, h2⟩ | ⟨h1, h2⟩
    · rw [Nat.compare_eq_lt.mpr h1, Nat.compare_eq_lt.mpr h2]
    · rw [h1, h2, Nat.compare_eq_eq.mpr rfl, Nat.compare_eq_eq.mpr rfl]
    · rw [Nat.compare_eq_gt.mpr h1, Nat.compare_eq_gt.mpr h2]
  · rw [Nat.compare_eq_gt.mpr h, Nat.compare_eq_gt.mpr (hgt h)]
    rfl

/-- **Anchors in one insertion**: their offsets, and then their biases, are in the order of
the document. -/
theorem compare_rank_of_timestamp (hc : Causal sent)
    (hdoc : DocInv baseText sent (Doc.of baseText sent)) (ha : a.Placed (Doc.of baseText sent) v)
    (hb : a'.Placed (Doc.of baseText sent) v) (hts : a.timestamp = a'.timestamp) :
    (compare a.offset a'.offset).then (compare a.bias.toNat a'.bias.toNat) =
      compare ((Doc.of baseText sent).rank a) ((Doc.of baseText sent).rank a') := by
  have hend : ∀ {k k' : Anchor}, k.isMin = true ∧ k'.isMin = true ∨ k.isMax = true ∧ k'.isMax = true →
      k.offset = k'.offset ∧ k.bias = k'.bias := by
    intro k k' hk
    rcases hk with ⟨hk, hk'⟩ | ⟨hk, hk'⟩
    · simp only [Anchor.isMin, Bool.and_eq_true, beq_iff_eq] at hk hk'
      exact ⟨hk.1.2.trans hk'.1.2.symm, hk.2.trans hk'.2.symm⟩
    · simp only [Anchor.isMax, Bool.and_eq_true, beq_iff_eq] at hk hk'
      exact ⟨hk.1.2.trans hk'.1.2.symm, hk.2.trans hk'.2.symm⟩
  have hsame : Lamport.MIN ≠ Lamport.MAX := by decide
  rcases ha with ha | ha | ha <;> rcases hb with hb | hb | hb
  · rw [(hend (.inl ⟨ha, hb⟩)).1, (hend (.inl ⟨ha, hb⟩)).2, rank_of_isMin ha, rank_of_isMin hb]
    simp
  · exact absurd ((Anchor.timestamp_of_isMin ha).symm.trans
      (hts.trans (Anchor.timestamp_of_isMax hb))) hsame
  · exact absurd (hts.symm.trans (Anchor.timestamp_of_isMin ha)) (hb.timestamp hc hdoc).1
  · exact absurd ((Anchor.timestamp_of_isMin hb).symm.trans
      (hts.symm.trans (Anchor.timestamp_of_isMax ha))) hsame
  · rw [(hend (.inr ⟨ha, hb⟩)).1, (hend (.inr ⟨ha, hb⟩)).2, rank_of_isMax ha, rank_of_isMax hb]
    simp
  · exact absurd (hts.symm.trans (Anchor.timestamp_of_isMax ha)) (hb.timestamp hc hdoc).2
  · exact absurd (hts.trans (Anchor.timestamp_of_isMin hb)) (ha.timestamp hc hdoc).1
  · exact absurd (hts.trans (Anchor.timestamp_of_isMax hb)) (ha.timestamp hc hdoc).2
  · -- two bytes of one insertion
    obtain ⟨ia, hia⟩ : ∃ i, i = (Doc.of baseText sent).order.idxOf a.byte := ⟨_, rfl⟩
    obtain ⟨ib, hib⟩ : ∃ i, i = (Doc.of baseText sent).order.idxOf a'.byte := ⟨_, rfl⟩
    have hbyte : a'.byte = (a.timestamp, a'.byte.2) := by rw [hts]; rfl
    have hmem : (a.timestamp, a'.byte.2) ∈ (Doc.of baseText sent).order := by
      rw [← hbyte]; exact hb.mem
    have hlt : ia < ib ↔ a.byte.2 < a'.byte.2 := by
      rw [hia, hib, hbyte]
      exact idxOf_insertion hc hdoc ha.mem hmem
    have hgt : ib < ia ↔ a'.byte.2 < a.byte.2 := by
      rw [hia, hib, hbyte]
      exact idxOf_insertion hc hdoc hmem ha.mem
    rw [ha.rank.1, hb.rank.1, ← hia, ← hib]
    have hpa := ha.pos
    have hpb := hb.pos
    unfold Anchor.byte at hlt hgt
    cases hba : a.bias <;> cases hbb : a'.bias <;>
      simp only [hba, hbb, Bias.toNat, forall_const, reduceCtorEq, false_implies] at hlt hgt hpa hpb ⊢ <;>
      exact then_compare (fun _ => by omega) (fun _ => by omega) (fun _ => by omega)

theorem ReplicaInv.cmp_spec (cfg : Profile) (h : ReplicaInv baseText sent r b) (hc : Causal sent)
    (hdoc : DocInv baseText sent (Doc.of baseText sent))
    (ha : a.Placed (Doc.of baseText sent) b.snapshot.version)
    (hb : a'.Placed (Doc.of baseText sent) b.snapshot.version) :
    a.cmp cfg a' b.snapshot =
      some (compare ((Doc.of baseText sent).rank a) ((Doc.of baseText sent).rank a')) := by
  unfold Anchor.cmp
  by_cases hts : a.timestamp = a'.timestamp
  · dsimp only
    rw [if_pos hts, compare_rank_of_timestamp hc hdoc ha hb hts]
  · dsimp only
    rw [if_neg hts]
    rcases Nat.lt_or_gt_of_ne (rank_ne ha hb hts) with hlt | hgt
    · obtain ⟨x, y, hx, hy, hxy⟩ := h.id_lt_of_rank_lt cfg ha hb hts hlt
      rw [hx, hy, Nat.compare_eq_lt.mpr hlt]
      simp [compareOfLessAndEq, hxy]
    · obtain ⟨y, x, hy, hx, hyx⟩ := h.id_lt_of_rank_lt cfg hb ha (Ne.symm hts) hgt
      rw [hx, hy, Nat.compare_eq_gt.mpr hgt]
      simp [compareOfLessAndEq, not_lt_of_gt hyx, ne_of_gt hyx]

end Compare

/-! ## Resolving by rank -/

theorem ReplicaInv.shows_eq (h : ReplicaInv baseText sent r b) {x : CharId}
    (hx : x ∈ (Doc.of baseText sent).order) :
    b.snapshot.shows x = (Doc.of baseText sent).wasVisible b.snapshot.version x := by
  have hiff : (x.1, x.2, true) ∈ b.snapshot.chars ↔
      (Doc.of baseText sent).wasVisible b.snapshot.version x = true := by
    rw [h.chars_eq, Doc.chars, List.mem_map]
    constructor
    · rintro ⟨y, -, heq⟩
      simp only [Prod.mk.injEq] at heq
      obtain rfl : y = x := Prod.ext heq.1 heq.2.1
      exact heq.2.2
    · intro hv
      have hobs : b.snapshot.version.observed x.1 = true := by
        rw [Doc.wasVisible, Bool.and_eq_true, Bool.and_eq_true] at hv
        exact hv.1.1
      exact ⟨x, Doc.mem_view.mpr ⟨hx, hobs⟩, by rw [hv]⟩
  rw [BufferSnapshot.shows, Bool.eq_iff_iff, decide_eq_true_iff]
  exact hiff

theorem ReplicaInv.length_visibleText (h : ReplicaInv baseText sent r b) :
    b.snapshot.visibleText.length =
      (Doc.of baseText sent).order.countP ((Doc.of baseText sent).wasVisible b.snapshot.version) := by
  have htext : b.snapshot.visibleText = b.text := rfl
  rw [htext, h.text_eq, Doc.textAt, length_map, ← countP_eq_length_filter, Doc.view, countP_filter]
  refine countP_congr (fun x _ => ?_)
  rw [Bool.and_eq_true]
  refine ⟨fun hv => hv.1, fun hv => ⟨hv, ?_⟩⟩
  rw [Doc.wasVisible, Bool.and_eq_true, Bool.and_eq_true] at hv
  exact hv.1.1

theorem Anchor.At.countP_rank {doc : Doc} {v : Global} {a : Anchor} (ha : a.At doc v)
    (p : CharId → Bool) :
    (doc.order.take (doc.rank a / 2)).countP p =
      (doc.order.take (doc.order.idxOf a.byte)).countP p +
        if a.bias = .left ∧ p a.byte = true then 1 else 0 := by
  obtain ⟨hrank, hlt, -⟩ := ha.rank
  rw [hrank]
  cases hb : a.bias with
  | right =>
    rw [show (2 * doc.order.idxOf a.byte + (2 - Bias.right.toNat)) / 2 = doc.order.idxOf a.byte by
      simp only [Bias.toNat]; omega]
    simp
  | left =>
    rw [show (2 * doc.order.idxOf a.byte + (2 - Bias.left.toNat)) / 2 = doc.order.idxOf a.byte + 1 by
      simp only [Bias.toNat]; omega,
      take_succ_eq_append_getElem hlt, getElem_idxOf hlt, countP_append]
    simp [countP_singleton]

theorem take_rank_of_isMax {doc : Doc} {a : Anchor} (ha : a.isMax = true) :
    doc.order.take (doc.rank a / 2) = doc.order := by
  rw [rank_of_isMax ha, show (2 * doc.order.length + 1) / 2 = doc.order.length by omega,
    take_length]

/-- **An anchor resolves to what is visible up to its rank.** -/
theorem ReplicaInv.offset_rank (cfg : Profile) (h : ReplicaInv baseText sent r b) {a : Anchor}
    (hid : a.bufferId = b.snapshot.remoteId)
    (ha : a.Placed (Doc.of baseText sent) b.snapshot.version) :
    b.snapshot.offsetForAnchor cfg a =
      some (((Doc.of baseText sent).order.take ((Doc.of baseText sent).rank a / 2)).countP
        ((Doc.of baseText sent).wasVisible b.snapshot.version)) := by
  rcases ha with ha | ha | ha
  · simp [BufferSnapshot.offsetForAnchor, ha, rank_of_isMin ha]
  · rw [take_rank_of_isMax ha, ← h.length_visibleText]
    simp [BufferSnapshot.offsetForAnchor, ha, Anchor.not_isMin_of_isMax ha]
  · rw [h.offset_spec cfg hid ha, ha.countP_rank]

end

end SpkEditor
