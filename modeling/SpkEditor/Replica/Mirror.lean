import SpkEditor.Replica.DocInv

/-!
# A replica mirrors the document

`Mirrors` relates a snapshot to the shared document: the cells of the snapshot are
the bytes its version has observed, in the document's order; a cell was deleted by
the edits the document says, as far as they have been observed; and likewise for the
undos. An operation that the version has not observed changes nothing
(`Mirrors.unseen`); applying it brings the snapshot up to date (`Mirrors.applyEdit`,
`Mirrors.applyUndo`).
-/

namespace SpkEditor

open List

variable {byte : Lamport → Nat → UInt8} {op : Operation}

/-- **A snapshot holds the part of the document that its version has observed.** -/
structure Mirrors (doc : Doc) (sent : List Operation) (s : BufferSnapshot) : Prop where
  ids : (cellsOf s.fragments).map Cell.id = doc.view s.version
  deletions : ∀ c ∈ cellsOf s.fragments, ∀ d,
    d ∈ c.deletions ↔ s.version.observed d = true ∧ (c.id, d) ∈ doc.deletions
  undos : ∀ e, e ∈ s.undoMap ↔ s.version.observed e.undoId = true ∧ e ∈ doc.undos
  closed : Closed sent s.version
  witnessed : Witnessed sent s.version
  /-- The base text has been observed, if there is one. -/
  base : ∀ x ∈ doc.order, x.1 = baseId → s.version.observed baseId = true

section

variable {baseText : List Char} {sent : List Operation} {doc : Doc} {s : BufferSnapshot}
  {v : Global}

/-! ## What a version saw -/

section

variable (h : Mirrors doc sent s) (hs : KeyedList.Sorted UndoMapEntry.key s.undoMap)
  (hv : s.version.observedAll v = true)
include h hs hv

theorem Mirrors.wasUndone (e : Lamport) : s.undoMap.wasUndone e v = doc.undone v e := by
  unfold UndoMap.wasUndone Doc.undone
  rw [UndoMap.maxCount_congr (fun x => ?_)]
  simp only [mem_filter, UndoMap.mem_entriesFor hs, h.undos, Bool.and_eq_true,
    decide_eq_true_eq]
  constructor
  · rintro ⟨⟨⟨_, h2⟩, h3⟩, h4⟩; exact ⟨h2, h3, h4⟩
  · rintro ⟨h2, h3, h4⟩
    exact ⟨⟨⟨Global.observed_of_observedAll hv h4, h2⟩, h3⟩, h4⟩

/-- **A replica knows what an earlier version could see.** -/
theorem Mirrors.wasVisible {c : Cell} (hc : c ∈ cellsOf s.fragments) :
    c.wasVisible v s.undoMap = doc.wasVisible v c.id := by
  have hundone := h.wasUndone hs hv
  unfold Cell.wasVisible Doc.wasVisible
  rw [hundone]
  congr 1
  rw [Bool.eq_iff_iff, all_eq_true, all_eq_true]
  constructor
  · intro hall d hd
    by_cases hid : d.1 = c.id
    · have hd' : (c.id, d.2) ∈ doc.deletions := by rw [← hid]; exact hd
      cases hobs : v.observed d.2 with
      | false => simp
      | true =>
        have := hall d.2 ((h.deletions c hc d.2).mpr
          ⟨Global.observed_of_observedAll hv hobs, hd'⟩)
        rw [hundone, hobs] at this
        simpa using .inr this
    · simp [hid]
  · intro hall d hd
    have := hall (c.id, d) ((h.deletions c hc d).mp hd).2
    rw [hundone]
    simpa using this

end

theorem Mirrors.visible (h : Mirrors doc sent s) (hw : Wf byte s)
    {c : Cell} (hc : c ∈ cellsOf s.fragments) : c.visible = doc.wasVisible s.version c.id := by
  obtain ⟨f, hf, hcf⟩ := mem_cellsOf.mp hc
  obtain ⟨ht, hv, hd, -⟩ := cells_uniform hcf
  rw [← h.wasVisible hw.undosSorted (Global.observedAll_refl _) hc, hv, hw.visible f hf]
  have hundo : ∀ e, s.undoMap.wasUndone e s.version = s.undoMap.isUndone e := fun e =>
    UndoMap.wasUndone_eq_isUndone hw.undosSorted (fun x hx _ => (hw.undosObserved x hx).1)
  unfold Fragment.isVisible Cell.wasVisible
  rw [ht, hd, hw.observed f hf f.timestamp (.inl rfl), hundo, Bool.true_and]
  congr 1
  rw [Bool.eq_iff_iff, all_eq_true, all_eq_true]
  constructor
  · intro hall d hdm
    rw [hundo, hall d hdm, Bool.or_true]
  · intro hall d hdm
    have := hall d hdm
    rwa [hundo, hw.observed f hf d (.inr hdm), Bool.not_true, Bool.false_or] at this

/-- **A replica does not notice an operation it has not observed.** -/
theorem Mirrors.unseen (h : Mirrors doc sent s)
    (hf : Fresh sent op) (hop : s.version.observed op.timestamp = false) :
    Mirrors (doc.apply op) (sent ++ [op]) s := by
  refine ⟨by rw [Doc.view_apply hop]; exact h.ids, ?_, ?_, ?_,
    h.witnessed.mono (fun x hx => mem_append_left _ hx), ?_⟩
  · intro c hc d
    rw [h.deletions c hc]
    refine and_congr_right (fun hobs => ?_)
    cases op with
    | undo op => rfl
    | edit op =>
      simp only [Doc.apply, mem_append, mem_map, Prod.mk.injEq]
      constructor
      · intro hx; exact .inl hx
      · intro hx
        rcases hx with hx | ⟨y, -, -, rfl⟩
        · exact hx
        · rw [show s.version.observed op.timestamp = false from hop] at hobs
          exact absurd hobs Bool.false_ne_true
  · intro e
    rw [h.undos]
    refine and_congr_right (fun hobs => ?_)
    cases op with
    | edit op => rfl
    | undo op =>
      simp only [Doc.apply, mem_append]
      constructor
      · intro hx; exact .inl hx
      · intro hx
        refine hx.resolve_right (fun hx => ?_)
        rw [(mem_entriesOf.mp hx).1, show s.version.observed op.timestamp = false from hop] at hobs
        exact Bool.false_ne_true hobs
  · intro x hx hobs
    rcases List.mem_append.mp hx with hx | hx
    · exact h.closed x hx hobs
    · rw [List.mem_singleton.mp hx, hop] at hobs
      exact absurd hobs Bool.false_ne_true
  · intro x hx hb
    rcases Doc.mem_order_apply.mp hx with hx | ⟨e, rfl, hxe⟩
    · exact h.base x hx hb
    · obtain ⟨b, hb', hxb⟩ := List.mem_flatMap.mp hxe
      have := idBlocks_text _ _ _ _ b hb' x hxb
      exact absurd (this.symm.trans hb) hf.not_base

/-! ## Observing an operation -/

/-- What a version observes when it takes in an operation whose author's version it has
observed: that operation and nothing else. -/
theorem observed_observe_iff (hc : Causal sent) (hop : op ∈ sent)
    (hv : v.observedAll op.version = true) {t : Lamport}
    (ht : (t = baseId ∧ v.observed baseId = true) ∨ ∃ op' ∈ sent, op'.timestamp = t) :
    (v.observe op.timestamp).observed t = true ↔ v.observed t = true ∨ t = op.timestamp := by
  rw [Global.observed_observe]
  constructor
  · intro hor
    rcases hor with h | ⟨hr, hle⟩
    · exact .inl h
    · rcases ht with ⟨rfl, hb⟩ | ⟨op', hop', rfl⟩
      · exact .inl hb
      · rcases Nat.lt_or_eq_of_le hle with hlt | heq
        · exact .inl (Global.observed_of_observedAll hv (hc.own op hop op' hop' hr.symm hlt))
        · exact .inr (Lamport.ext_iff'.mpr ⟨heq, hr⟩)
  · intro hor
    rcases hor with h | rfl
    · exact .inl h
    · exact .inr ⟨rfl, le_refl _⟩

theorem Causal.eq_of_timestamp (hc : Causal sent) {a b : Operation} (ha : a ∈ sent) (hb : b ∈ sent)
    (h : a.timestamp = b.timestamp) : a = b := inj_on_of_nodup_map hc.nodup ha hb h

theorem Closed.observe (h : Closed sent v) (hc : Causal sent) (hop : op ∈ sent)
    (hv : v.observedAll op.version = true) : Closed sent (v.observe op.timestamp) := by
  intro x hx hobs
  refine Global.observedAll_observe _ ?_
  rcases (observed_observe_iff hc hop hv (.inr ⟨x, hx, rfl⟩)).mp hobs with hobs | heq
  · exact h x hx hobs
  · rw [hc.eq_of_timestamp hx hop heq]
    exact hv

theorem Witnessed.observe (h : Witnessed sent v) (hop : op ∈ sent) :
    Witnessed sent (v.observe op.timestamp) := by
  intro q hq
  rw [Global.get_observe] at hq ⊢
  split at hq
  · rename_i hr
    rw [if_pos hr]
    by_cases hle : op.timestamp.value ≤ v.get q
    · rw [max_eq_left hle] at hq ⊢
      exact h q hq
    · rw [max_eq_right (by omega), hr]
      exact .inr ⟨op, hop, rfl⟩
  · rename_i hr
    rw [if_neg hr]
    exact h q hq

/-! ## Applying an edit -/

theorem inRanges_blocksOf (T : Lamport) (rs : List Range) (ts : List (List Char)) (off n : Nat) :
    Splice.inRanges (blocksOf T off rs ts) n = Splice.inRanges (idBlocks T off rs ts) n := by
  rw [← blocksOf_map]
  simp only [Splice.inRanges, any_map]
  rfl

theorem hitRemote_id (v : Global) (undos : UndoMap) (T : Lamport) (c : Cell) :
    (hitRemote v undos T c).id = c.id := by
  unfold hitRemote
  split <;> rfl

section

variable (h : Mirrors doc sent s) (hv : s.version.observedAll v = true)
include h hv

theorem Mirrors.seen_ids :
    ((cellsOf s.fragments).filter (seenBy v)).map Cell.id = doc.view v := by
  have hfil : ((cellsOf s.fragments).filter (seenBy v)).map Cell.id =
      ((cellsOf s.fragments).map Cell.id).filter (fun x => v.observed x.1) := by
    rw [filter_map]; rfl
  rw [hfil, h.ids, Doc.view, filter_filter]
  refine filter_congr (fun x _ => ?_)
  cases hobs : v.observed x.1 with
  | false => simp
  | true => rw [Global.observed_of_observedAll hv hobs]; rfl

theorem Mirrors.countP_seen :
    (cellsOf s.fragments).countP (seenBy v) = (doc.view v).length := by
  rw [← h.seen_ids hv, length_map, countP_eq_length_filter]

end

section Edit

variable {edit : EditOperation} {s' : BufferSnapshot}

theorem view_observe (hinv : DocInv baseText sent doc) (hc : Causal sent)
    (hbase : ∀ x ∈ doc.order, x.1 = baseId → v.observed baseId = true) (hop : op ∈ sent) (hv : v.observedAll op.version = true) :
    doc.view (v.observe op.timestamp) =
      doc.order.filter (fun x => v.observed x.1 || decide (x.1 = op.timestamp)) := by
  refine filter_congr (fun x hx => ?_)
  rw [Bool.eq_iff_iff, Bool.or_eq_true, decide_eq_true_eq]
  refine observed_observe_iff hc hop hv ?_
  rcases hinv.inserted x hx with hb | ⟨e, he, ht⟩
  · exact .inl ⟨hb, hbase x hx hb⟩
  · exact .inr ⟨_, he, ht⟩

/-- **Splicing an edit into what a version has observed** gives what it has observed
with the edit. -/
theorem splice_view (hinv : DocInv baseText sent doc) (hc : Causal sent)
    (hop : Operation.edit edit ∈ sent) (hcl : Closed sent v)
    (hbase : ∀ x ∈ doc.order, x.1 = baseId → v.observed baseId = true)
    (hv : v.observedAll edit.version = true) (hT : v.observed edit.timestamp = false) :
    Splice.splice edit.seen edit.above id 0 edit.blocks (doc.view v) =
      doc.view (v.observe edit.timestamp) := by
  have hholds := hinv.holds edit hop
  have hview : doc.view (v.observe edit.timestamp) =
      doc.order.filter (fun x => v.observed x.1 || decide (x.1 = edit.timestamp)) :=
    view_observe hinv hc hbase hop hv
  have hself : edit.version.observed edit.timestamp = false := hc.not_observed_self hop
  have hlt : ∀ x, edit.seen x = true → x.1 < edit.timestamp := fun x hx => hc.lt_of_observed hop hx
  -- the view without the edit
  have hwithout : (doc.view (v.observe edit.timestamp)).filter
      (fun x => !decide (x.1 = edit.timestamp)) = doc.view v := by
    rw [hview, filter_filter]
    refine filter_congr (fun x _ => ?_)
    by_cases hx : x.1 = edit.timestamp
    · simp only [hx, decide_true, Bool.not_true, Bool.false_and, hT]
    · simp [hx]
  have hseenV : (doc.view (v.observe edit.timestamp)).filter edit.seen = doc.view edit.version := by
    rw [Doc.view, filter_filter]
    refine filter_congr (fun x _ => ?_)
    show (edit.version.observed x.1 && _) = edit.version.observed x.1
    cases hobs : edit.version.observed x.1 with
    | false => rfl
    | true =>
      rw [Global.observed_observe_of (Global.observed_of_observedAll hv hobs)]; rfl
  rw [← hwithout]
  have hsaw : ∀ x : CharId, edit.seen x = true ↔ Saw sent edit.timestamp x.1 := by
    intro x
    constructor
    · intro hx; exact ⟨_, hop, rfl, hx⟩
    · rintro ⟨op, hop', ht, hx⟩
      rw [hc.eq_of_timestamp hop' hop ht] at hx
      exact hx
  refine Splice.splice_unique hsaw (fun x => decide_eq_true_iff) ?_ (fun x => decide_eq_true_iff) ?_
    edit.blocks 0 _ ?_ ?_ ?_ ?_ ?_
  · intro x hx
    by_contra hne
    exact absurd (hlt x (Bool.of_not_eq_false hne)) (not_lt_of_gt (of_decide_eq_true hx))
  · intro x hx
    rw [EditOperation.seen, of_decide_eq_true hx, hself]
  · rw [zero_add, countP_eq_length_filter, hseenV]
    exact valid_idBlocks _ _ _ _ _ _ hholds.length hholds.valid
  · intro b hb x hx
    exact decide_eq_true (idBlocks_text _ _ _ _ b hb x hx)
  · rw [hseenV, ← hholds.blocks, Doc.view, filter_filter]
    refine filter_congr (fun x _ => ?_)
    cases hx : (edit.seen x || decide (x.1 = edit.timestamp)) with
    | false => rfl
    | true =>
      rcases Bool.or_eq_true_iff.mp hx with hx | hx
      · exact Global.observed_observe_of (Global.observed_of_observedAll hv hx)
      · rw [of_decide_eq_true hx]; exact Global.observed_observe_self ..
  · -- what has been observed did not see the edit
    rintro y hy hne ⟨op, hop', ht, hobs⟩
    have hy' : v.observed y.1 = true := by
      rw [hview] at hy
      have := (List.mem_filter.mp hy).2
      rwa [hne, Bool.or_false] at this
    have := hcl op hop' (by rw [ht]; exact hy')
    have hobs' := Global.observed_of_observedAll this hobs
    rw [hT] at hobs'
    exact Bool.false_ne_true hobs'
  · refine hinv.ordered.filter (fun w _ hw a ha hsaw => ?_)
    obtain ⟨op, hop', ht, hobs⟩ := hsaw
    have := hcl.observe hc hop hv op hop' (by rw [ht]; exact hw)
    have hobs' : (v.observe edit.timestamp).observed a.1 = true :=
      Global.observed_of_observedAll this hobs
    exact Bool.false_ne_true (ha.symm.trans hobs')

theorem hitRemote_timestamp (v : Global) (undos : UndoMap) (T : Lamport) (c : Cell) :
    (hitRemote v undos T c).timestamp = c.timestamp := by
  unfold hitRemote
  split <;> rfl

theorem blocksOf_text (T : Lamport) : ∀ (off : Nat) (rs : List Range) (ts : List (List Char)),
    ∀ e ∈ blocksOf T off rs ts, ∀ c ∈ e.text, ∃ o, c = Cell.inserted T o
  | _, [], _ => by simp [blocksOf]
  | _, _ :: _, [] => by simp [blocksOf]
  | off, r :: rs, t :: ts => by
      intro e he c hc
      rcases List.mem_cons.mp he with rfl | he
      · obtain ⟨o, -, rfl⟩ := List.mem_map.mp hc
        exact ⟨o, rfl⟩
      · exact blocksOf_text T _ rs ts e he c hc

theorem valid_blocksOf (T : Lamport) :
    ∀ (rs : List Range) (ts : List (List Char)) (off pos limit : Nat), rs.length = ts.length →
      ValidRanges pos rs limit → Splice.Valid pos (blocksOf T off rs ts) limit
  | [], [], _, _, _, _, h => h
  | [], _ :: _, _, _, _, h, _ => absurd h (by simp)
  | _ :: _, [], _, _, _, h, _ => absurd h (by simp)
  | r :: rs, t :: ts, off, pos, limit, hl, h =>
    ⟨h.1, h.2.1, valid_blocksOf T rs ts _ _ _ (by simpa using hl) h.2.2⟩

/-- **The cells after an edit, cell by cell**: a new one, or an old one that has been hit
if it stood in a range. -/
theorem mem_edited {T : Lamport} {ranges : List Range} {texts : List (List Char)} {undos : UndoMap}
    {cells : List Cell} (hnd : (cells.map Cell.id).Nodup)
    (hlt : ∀ t, v.observed t = true → t < T)
    (hvalid : Splice.Valid 0 (blocksOf T 0 ranges texts) (0 + cells.countP (seenBy v))) {c' : Cell}
    (hc' : c' ∈ Splice.splice (seenBy v) (aboveEdit T) (hitRemote v undos T) 0
      (blocksOf T 0 ranges texts) cells) :
    (∃ o, c' = Cell.inserted T o) ∨ ∃ c ∈ cells, c' =
      if seenBy v c && Splice.inRanges (idBlocks T 0 ranges texts)
        (((cells.filter (seenBy v)).map Cell.id).idxOf c.id) then hitRemote v undos T c else c := by
  rw [Splice.splice_hit, Splice.hitAt_eq_map Cell.id _ _ hnd, Splice.mem_splice] at hc'
  · rcases hc' with hc' | hc'
    · obtain ⟨b, hb, hcb⟩ := List.mem_flatMap.mp hc'
      exact .inl (blocksOf_text T _ _ _ b hb c' hcb)
    · obtain ⟨c, hc, heq⟩ := List.mem_map.mp hc'
      refine .inr ⟨c, hc, ?_⟩
      simp only [zero_add, inRanges_blocksOf] at heq
      exact heq.symm
  · intro c hc
    by_contra hne
    exact absurd (hlt _ (Bool.of_not_eq_false hne)) (not_lt_of_gt (of_decide_eq_true hc))
  · intro c hc
    have : c.wasVisible v undos = false := by
      rw [Cell.wasVisible, show v.observed c.timestamp = false from hc]; rfl
    simp [hitRemote, this]
  · intro c
    rw [seenBy, seenBy, hitRemote_timestamp]
  · intro c
    rw [aboveEdit, aboveEdit, hitRemote_timestamp]
  · exact hvalid

section

variable (h : Mirrors doc sent s) (hw : Wf byte s) (hinv : DocInv baseText sent doc)
  (hc : Causal sent)
include h hw hinv hc

theorem Mirrors.applyEdit (hop : Operation.edit edit ∈ sent)
    (hv : s.version.observedAll edit.version = true)
    (hT : s.version.observed edit.timestamp = false) (hundo : s'.undoMap = s.undoMap)
    (hcells : cellsOf s'.fragments = Splice.splice (seenBy edit.version) (aboveEdit edit.timestamp)
      (hitRemote edit.version s.undoMap edit.timestamp) 0
      (blocksOf edit.timestamp 0 edit.ranges edit.newText) (cellsOf s.fragments)) :
    Mirrors doc sent { s' with version := s.version.observe edit.timestamp } := by
  have hholds := hinv.holds edit hop
  have hself : edit.version.observed edit.timestamp = false := hc.not_observed_self hop
  have hobsT : ∀ op ∈ sent, (s.version.observe edit.timestamp).observed op.timestamp = true ↔
      s.version.observed op.timestamp = true ∨ op.timestamp = edit.timestamp :=
    fun op hop' => observed_observe_iff hc hop hv (.inr ⟨op, hop', rfl⟩)
  have hids : (cellsOf s'.fragments).map Cell.id = doc.view (s.version.observe edit.timestamp) := by
    have h1 : ∀ c : Cell, edit.seen c.id = seenBy edit.version c := fun _ => rfl
    have h2 : ∀ c : Cell, edit.above c.id = aboveEdit edit.timestamp c := fun _ => rfl
    have h3 : ∀ c : Cell, (hitRemote edit.version s.undoMap edit.timestamp c).id = id c.id :=
      fun c => hitRemote_id ..
    rw [hcells, Splice.splice_map h1 h2 h3, blocksOf_map, h.ids]
    exact splice_view hinv hc hop h.closed h.base hv hT
  refine ⟨hids, ?_, ?_, h.closed.observe hc hop hv, h.witnessed.observe hop,
    fun x hx hb => Global.observed_observe_of (h.base x hx hb)⟩
  · -- the deletions of each cell
    have hnd : ((cellsOf s.fragments).map Cell.id).Nodup := hw.nodup
    have hlt : ∀ t, edit.version.observed t = true → t < edit.timestamp :=
      fun t ht => hc.lt_of_observed hop ht
    have hvalid : Splice.Valid 0 (blocksOf edit.timestamp 0 edit.ranges edit.newText)
        (0 + (cellsOf s.fragments).countP (seenBy edit.version)) := by
      rw [zero_add, h.countP_seen hv]
      exact valid_blocksOf _ _ _ _ _ _ hholds.length hholds.valid
    intro c' hc' d
    rw [hcells] at hc'
    have hdel : ∀ {x}, (x, d) ∈ doc.deletions →
        ((s.version.observe edit.timestamp).observed d = true ↔
          s.version.observed d = true ∨ d = edit.timestamp) := by
      intro x hx
      obtain ⟨e, he, ht⟩ := hinv.deleted _ hx
      dsimp only at ht
      rw [← ht]
      exact hobsT _ he
    rcases mem_edited hnd hlt hvalid hc' with ⟨o, rfl⟩ | ⟨c, hcm, heq⟩
    · -- nobody who has been observed knows the new cells
      refine ⟨fun hd => absurd hd (not_mem_nil), fun hboth => ?_⟩
      obtain ⟨hobs, hd⟩ := hboth
      obtain ⟨e, he, ht⟩ := hinv.deleted _ hd
      dsimp only at ht
      rw [← ht] at hd
      have hsee : e.version.observed edit.timestamp = true :=
        (Doc.mem_view.mp (Doc.mem_hits.mp (((hinv.holds e he).deletions _).mp hd)).1).2
      rcases (hdel (ht ▸ hd)).mp hobs with hobs | heq
      · have := Global.observed_of_observedAll (h.closed _ he (by rw [← ht] at hobs; exact hobs)) hsee
        rw [hT] at this
        exact absurd this Bool.false_ne_true
      · have := hc.eq_of_timestamp he hop (ht.trans heq)
        rw [Operation.edit.inj this, hself] at hsee
        exact absurd hsee Bool.false_ne_true
    · have hcid : c'.id = c.id := by
        rw [heq]
        split
        · exact hitRemote_id ..
        · rfl
      -- being hit is being deleted in the document
      have hhit : (seenBy edit.version c && Splice.inRanges
          (idBlocks edit.timestamp 0 edit.ranges edit.newText)
          ((((cellsOf s.fragments).filter (seenBy edit.version)).map Cell.id).idxOf c.id)) = true ∧
            c.wasVisible edit.version s.undoMap = true ↔ (c.id, edit.timestamp) ∈ doc.deletions := by
        have hmem : c.id ∈ doc.view edit.version ↔ seenBy edit.version c = true := by
          have hin : c.id ∈ doc.order := by
            have : c.id ∈ doc.view s.version := by rw [← h.ids]; exact mem_map_of_mem hcm
            exact (Doc.mem_view.mp this).1
          rw [Doc.mem_view]
          exact ⟨fun hx => hx.2, fun hx => ⟨hin, hx⟩⟩
        rw [hholds.deletions, Doc.mem_hits, hmem, h.seen_ids hv, h.wasVisible hw.undosSorted hv hcm,
          Bool.and_eq_true, and_assoc]
        rfl
      have hc'd : d ∈ c'.deletions ↔
          d ∈ c.deletions ∨ (d = edit.timestamp ∧ (c.id, edit.timestamp) ∈ doc.deletions) := by
        rw [heq, ← hhit]
        split
        · rename_i hin
          rw [hitRemote]
          split
          · rename_i hwv
            simp [hin, hwv]
          · rename_i hwv
            simp [hwv]
        · rename_i hin
          simp only [hin, Bool.false_eq_true, false_and, and_false, or_false]
      rw [hc'd, h.deletions c hcm, hcid]
      constructor
      · intro hx
        rcases hx with ⟨h1, h2⟩ | ⟨rfl, h2⟩
        · exact ⟨Global.observed_observe_of h1, h2⟩
        · exact ⟨Global.observed_observe_self .., h2⟩
      · rintro ⟨h1, h2⟩
        rcases (hdel h2).mp h1 with h1 | rfl
        · exact .inl ⟨h1, h2⟩
        · exact .inr ⟨rfl, h2⟩
  · intro e
    rw [hundo, h.undos]
    constructor
    · rintro ⟨h1, h2⟩; exact ⟨Global.observed_observe_of h1, h2⟩
    · rintro ⟨h1, h2⟩
      obtain ⟨u, hu, he⟩ := (hinv.undos e).mp h2
      have hid : e.undoId = (Operation.undo u).timestamp := (mem_entriesOf.mp he).1
      rw [hid] at h1 ⊢
      refine ⟨((hobsT _ hu).mp h1).resolve_right (fun heq => ?_), h2⟩
      exact absurd (hc.eq_of_timestamp hu hop heq) (by simp)

theorem Mirrors.applyUndo {undo : UndoOperation} {patch : Patch}
    (hop : Operation.undo undo ∈ sent) (hv : s.version.observedAll undo.version = true)
    (hT : s.version.observed undo.timestamp = false)
    (hd : BufferSnapshot.UndoDone byte s undo s' patch) :
    Mirrors doc sent { s' with version := s.version.observe undo.timestamp } := by
  have hobsT : ∀ op ∈ sent, (s.version.observe undo.timestamp).observed op.timestamp = true ↔
      s.version.observed op.timestamp = true ∨ op.timestamp = undo.timestamp :=
    fun op hop' => observed_observe_iff hc hop hv (.inr ⟨op, hop', rfl⟩)
  have hedit : ∀ e, Operation.edit e ∈ sent →
      ((s.version.observe undo.timestamp).observed e.timestamp = true ↔
        s.version.observed e.timestamp = true) := by
    intro e he
    refine ⟨fun hx => ((hobsT _ he).mp hx).resolve_right (fun heq => ?_),
      fun hx => Global.observed_observe_of hx⟩
    exact absurd (hc.eq_of_timestamp he hop heq) (by simp)
  have hview : doc.view (s.version.observe undo.timestamp) = doc.view s.version := by
    refine filter_congr (fun x hx => ?_)
    rw [Bool.eq_iff_iff]
    rcases hinv.inserted x hx with hb | ⟨e, he, ht⟩
    · have := h.base x hx hb
      rw [hb]
      exact ⟨fun _ => this, fun _ => Global.observed_observe_of this⟩
    · rw [← ht]; exact hedit e he
  have hnew : ∀ e ∈ s.undoMap, e.undoId ≠ undo.timestamp := fun e he heq => by
    have := (hw.undosObserved e he).1
    rw [heq, hT] at this
    exact Bool.false_ne_true this
  refine ⟨?_, ?_, ?_, h.closed.observe hc hop hv, h.witnessed.observe hop,
    fun x hx hb => Global.observed_observe_of (h.base x hx hb)⟩
  · dsimp only
    rw [hd.fragments, ids_refreshed, h.ids, hview]
  · intro c' hc' d
    -- every cell comes from one with the same identity and deletions
    obtain ⟨c, hcm, hid, hdel⟩ : ∃ c ∈ cellsOf s.fragments, c'.id = c.id ∧
        c'.deletions = c.deletions := by
      rw [hd.fragments] at hc'
      obtain ⟨g, hg, hcg⟩ := mem_cellsOf.mp hc'
      obtain ⟨f, hf, heq⟩ := List.mem_map.mp hg
      obtain ⟨h1, h2, h3⟩ := mem_cells.mp hcg
      have hgo : g.insertionOffset = f.insertionOffset ∧ g.len = f.len ∧
          g.timestamp = f.timestamp ∧ g.deletions = f.deletions := by
        rw [← heq]
        split <;> exact ⟨rfl, rfl, rfl, rfl⟩
      refine ⟨f.cellAt c'.offset, mem_cellsOf.mpr ⟨f, hf, mem_cells.mpr ⟨?_, ?_, rfl⟩⟩, ?_, ?_⟩
      · show f.insertionOffset ≤ c'.offset
        omega
      · show c'.offset < _
        omega
      · rw [h3]
        show (g.timestamp, _) = (f.timestamp, _)
        rw [hgo.2.2.1]
        rfl
      · rw [h3]
        exact hgo.2.2.2
    rw [hid, hdel, h.deletions c hcm]
    refine and_congr_left (fun hx => ?_)
    obtain ⟨e, he, ht⟩ := hinv.deleted _ hx
    dsimp only at ht
    rw [← ht]
    exact (hedit e he).symm
  · intro e
    rw [hd.undoMap, mem_insert hw.undosSorted (hinv.known undo hop).nodup hnew, h.undos]
    constructor
    · intro hx
      rcases hx with hx | ⟨h1, h2⟩
      · rw [(mem_entriesOf.mp hx).1]
        exact ⟨Global.observed_observe_self .., (hinv.undos e).mpr ⟨undo, hop, hx⟩⟩
      · exact ⟨Global.observed_observe_of h1, h2⟩
    · rintro ⟨h1, h2⟩
      obtain ⟨u, hu, he⟩ := (hinv.undos e).mp h2
      have hid : e.undoId = (Operation.undo u).timestamp := (mem_entriesOf.mp he).1
      rw [hid] at h1
      rcases (hobsT _ hu).mp h1 with h1 | heq
      · exact .inr ⟨by rw [hid]; exact h1, h2⟩
      · have := hc.eq_of_timestamp hu hop heq
        rw [Operation.undo.inj this] at he
        exact .inl he

end

end Edit

end

end SpkEditor
