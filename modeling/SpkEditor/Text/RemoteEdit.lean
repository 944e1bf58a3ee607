import SpkEditor.Text.EditSteps

/-!
# Remote edits are splices

`apply_remote_edit` counts positions in what the author of the edit had seen. Seen
through its cells it is a `splice` whose `seen` is the author's version, whose
`above` are the insertions with a larger timestamp, and whose `hit` deletes what the
author could see. The one thing to watch is where a stretch ends: a splice splits
right after a seen cell, and so does the loop, because `advance_past` leaves a
fragment that is used up before anything else happens there.
-/

namespace SpkEditor

open List Option

variable {f : Fragment} {stop target : Nat}

def hitRemote (version : Global) (undos : UndoMap) (T : Lamport) (c : Cell) : Cell :=
  if c.wasVisible version undos then c.delete T else c

/-- The author of an edit had seen this cell. -/
def seenBy (version : Global) (c : Cell) : Bool := version.observed c.timestamp

/-- An insertion at the same place stays to the left of the edit. -/
def aboveEdit (T : Lamport) (c : Cell) : Bool := T < c.timestamp

section Positions

variable {version : Global}

theorem VersionedFullOffset_pos (version : Global) (f : Fragment) :
    (VersionedFullOffset version).pos f = 0 ∨ (VersionedFullOffset version).pos f = f.len := by
  simp only [VersionedFullOffset]
  split
  · exact .inr rfl
  · exact .inl rfl

theorem pos_of_seen (h : version.observed f.timestamp = true) :
    (VersionedFullOffset version).pos f = f.len := if_pos h

theorem pos_of_unseen (h : version.observed f.timestamp = false) :
    (VersionedFullOffset version).pos f = 0 := if_neg (by rw [h]; exact Bool.false_ne_true)

theorem seen_of_pos (hlen : 0 < f.len)
    (h : (VersionedFullOffset version).pos f = f.len) : version.observed f.timestamp = true := by
  by_contra hne
  rw [pos_of_unseen (Bool.eq_false_of_not_eq_true hne)] at h
  omega

theorem countP_cells {l : List Cell} (hl : ∀ c ∈ l, c ∈ f.cells) :
    l.countP (seenBy version) = if version.observed f.timestamp then l.length else 0 := by
  split
  · rename_i h
    rw [countP_eq_length]
    intro c hc
    rw [seenBy, (cells_uniform (hl c hc)).1, h]
  · rename_i h
    rw [countP_eq_zero]
    intro c hc
    rw [seenBy, (cells_uniform (hl c hc)).1]
    exact h

theorem countP_cellsOf (fs : List Fragment) :
    (cellsOf fs).countP (seenBy version) = (fs.map (VersionedFullOffset version).pos).sum := by
  induction fs with
  | nil => rfl
  | cons f fs ih =>
    rw [cellsOf_cons, countP_append, ih, countP_cells (fun _ hc => hc), Fragment.length_cells]
    rfl

end Positions

section Remote

variable {version : Global} {byte : Lamport → Nat → UInt8} {s : BufferSnapshot} {T : Lamport}
  {pre : List Fragment} {st : EditState}

theorem remote_count (h : EditInv (VersionedFullOffset version) byte s T pre st)
    (hctx : EditCtx byte s T) :
    ((cellsOf s.fragments).take (progress pre st)).countP (seenBy version) = st.fragmentStart := by
  have hls := h.le_start
  have h1 : st.oldFragments.start.1 = (cellsOf pre).countP (seenBy version) := by
    rw [h.start, countP_cellsOf]
  rw [h.take_progress, countP_append, ← h1]
  by_cases hlt : st.oldFragments.start.1 < st.fragmentStart
  · obtain ⟨f, rest, hf, hpos, hle⟩ := h.trim hlt
    have hlen := hctx.len_pos f (h.mem_of_rest (by rw [hf]; simp))
    rw [hf]
    simp only [head?_cons, map_some, getD_some]
    rw [countP_cells (fun c hc => mem_of_mem_take hc), if_pos (seen_of_pos hlen hpos),
      length_take, Fragment.length_cells]
    omega
  · rw [show st.fragmentStart - st.oldFragments.start.1 = 0 by omega]
    simp
    omega

/-- A stretch between two positions holds their difference of seen cells. -/
theorem countP_stretch {pre' : List Fragment} {st' : EditState}
    (h : EditInv (VersionedFullOffset version) byte s T pre st)
    (h' : EditInv (VersionedFullOffset version) byte s T pre' st') (hctx : EditCtx byte s T)
    (hle : progress pre st ≤ progress pre' st') :
    (((cellsOf s.fragments).drop (progress pre st)).take
      (progress pre' st' - progress pre st)).countP (seenBy version) =
        st'.fragmentStart - st.fragmentStart := by
  have h1 := remote_count h hctx
  have h2 := remote_count h' hctx
  rw [show progress pre' st' = progress pre st + (progress pre' st' - progress pre st) by omega,
    take_add, countP_append, h1] at h2
  omega

/-- The current position comes right after a cell that was seen. -/
def Lands (version : Global) (s : BufferSnapshot) (pre : List Fragment) (st : EditState) : Prop :=
  ∃ c, ((cellsOf s.fragments).take (progress pre st)).getLast? = some c ∧ seenBy version c = true

theorem lands_of_inside (h : EditInv (VersionedFullOffset version) byte s T pre st)
    (hctx : EditCtx byte s T) (hlt : st.oldFragments.start.1 < st.fragmentStart) :
    Lands version s pre st := by
  obtain ⟨f, rest, hf, hpos, hle⟩ := h.trim hlt
  have hlen := hctx.len_pos f (h.mem_of_rest (by rw [hf]; simp))
  have hne : f.cells.take (st.fragmentStart - st.oldFragments.start.1) ≠ [] := by
    intro hnil
    have := congrArg List.length hnil
    rw [length_take, Fragment.length_cells] at this
    simp only [length_nil] at this
    omega
  rw [Lands, h.take_progress, hf]
  simp only [head?_cons, map_some, getD_some]
  refine ⟨_, by rw [getLast?_append_of_ne_nil _ hne, getLast?_eq_some_getLast hne], ?_⟩
  rw [seenBy, (cells_uniform (mem_of_mem_take (getLast_mem hne))).1]
  exact seen_of_pos hlen hpos

theorem endsSeen_stretch {pre' : List Fragment} {st' : EditState} (hl : Lands version s pre' st')
    (hle : progress pre st ≤ progress pre' st') :
    Splice.EndsSeen (seenBy version) (((cellsOf s.fragments).drop (progress pre st)).take
      (progress pre' st' - progress pre st)) := by
  obtain ⟨c, hc, hseen⟩ := hl
  intro a ha
  rw [show progress pre' st' = progress pre st + (progress pre' st' - progress pre st) by omega,
    take_add, getLast?_append, ha] at hc
  exact (some.inj hc) ▸ hseen

/-- The current fragment, if it has been used in part, is not used up. -/
def Ready (d : Dimensions) (st : EditState) : Prop :=
  st.oldFragments.start.1 < st.fragmentStart → st.fragmentStart < st.oldFragments.stop d

/-! ## The way to an edit -/

/-- At the end of a fragment the author had seen, the rest of it is copied. -/
theorem advancePast_spec (h : EditInv (VersionedFullOffset version) byte s T pre st)
    (hctx : EditCtx byte s T)
    (hend : st.oldFragments.stop (VersionedFullOffset version) = target)
    (hlt : st.fragmentStart < target) :
    ∃ f st', st.advancePast (VersionedFullOffset version) target = some st' ∧
      Copies (VersionedFullOffset version) byte s T pre st (pre ++ [f]) st' ∧
      st'.fragmentStart = target ∧ st'.oldFragments.start.1 = target ∧
      Lands version s (pre ++ [f]) st' := by
  have hls := h.le_start
  cases hf : st.oldFragments.rest with
  | nil => simp only [Cursor.stop, hf] at hend; omega
  | cons f rest =>
    have hlen := hctx.len_pos f (h.mem_of_rest (by rw [hf]; simp))
    have hpos : (VersionedFullOffset version).pos f = f.len := by
      simp only [Cursor.stop, hf] at hend
      rcases VersionedFullOffset_pos version f with h0 | h0
      · omega
      · exact h0
    have hstop : st.oldFragments.start.1 + f.len = target := by
      simpa [Cursor.stop, hf, hpos] using hend
    have hitem : st.oldFragments.item = some f := by simp [Cursor.item, hf]
    have hnext : (st.oldFragments.next (VersionedFullOffset version)).start.1 = target := by
      simp only [Cursor.next, hf, hpos, hstop]
    obtain ⟨st', hst'⟩ : ∃ x : EditState, x =
        { st.pushNew (st.part f target) (st.part f target).visible with
          oldFragments := st.oldFragments.next (VersionedFullOffset version)
          fragmentStart := (st.oldFragments.next (VersionedFullOffset version)).start.1 } :=
      ⟨_, rfl⟩
    have hp : PieceOf T st f (st.part f target) := part_pieceOf hlt (by omega) hls
    have he : Emits T (oldVisibleLen byte s pre st) st st' f (st.part f target) := by
      rw [hst']; exact pushNew_emits _ _ _ rfl rfl
    have hinv := h.emit_last hctx hf hp he (fun _ => rfl) rfl
      (by simp only [EditState.part]; omega) (by rw [hst']) (by rw [hst'])
    refine ⟨f, st', ?_, h.copies_of_emit hf hp rfl he.fragments (by rw [hst']; rfl) hinv,
      by rw [hst']; exact hnext, by rw [hst']; exact hnext, ?_⟩
    · simp only [EditState.advancePast, hend, hlt, and_self, if_true, hitem, hst']
    · -- it lands after the last cell of the fragment
      have hne : f.cells ≠ [] := by
        intro hnil
        have := congrArg List.length hnil
        rw [Fragment.length_cells] at this
        simp only [length_nil] at this
        omega
      rw [Lands, hinv.1.take_progress, show st'.fragmentStart - st'.oldFragments.start.1 = 0 by
        rw [hst']; exact Nat.sub_self _]
      rw [ take_zero, append_nil, cellsOf_append, cellsOf_cons, cellsOf_nil,
        append_nil, getLast?_append_of_ne_nil _ hne, getLast?_eq_some_getLast hne]
      refine ⟨_, rfl, ?_⟩
      rw [seenBy, (cells_uniform (getLast_mem hne)).1]
      exact seen_of_pos hlen hpos

theorem pushFragment_eq_append (r : RopeBuilder) (f : Fragment) :
    r.pushFragment f f.visible = r.append [f] := by
  cases hv : f.visible <;>
    simp [RopeBuilder.pushFragment, RopeBuilder.append, RopeBuilder.push, visibleLen, deletedLen,
      Fragment.visibleLen, Fragment.deletedLen, hv]

/--
**Skipping over concurrent insertions** copies the fragments above the edit, and
stops at a cell that is not. The induction is on the fragments the cursor has not
passed.
-/
theorem skipConcurrent_spec (hctx : EditCtx byte s T)
    (hseen : ∀ t, version.observed t = true → t < T) :
    ∀ (rest : List Fragment) (pre : List Fragment) (st : EditState),
      st.oldFragments.rest = rest → EditInv (VersionedFullOffset version) byte s T pre st →
      Ready (VersionedFullOffset version) st →
      ∃ pre' st', EditState.skipConcurrent (VersionedFullOffset version) st.fragmentStart T rest st
          = st' ∧ Copies (VersionedFullOffset version) byte s T pre st pre' st' ∧
        st'.fragmentStart = st.fragmentStart ∧ Ready (VersionedFullOffset version) st' ∧
        (∀ c ∈ ((cellsOf s.fragments).drop (progress pre st)).take
          (progress pre' st' - progress pre st), aboveEdit T c = true) ∧
        (∀ c, ((cellsOf s.fragments).drop (progress pre' st')).head? = some c →
          aboveEdit T c = false)
  | [], pre, st, hrest, h, hready => by
      refine ⟨pre, st, rfl, Copies.refl h, rfl, hready, by simp, ?_⟩
      intro c hc
      have hlen : (cellsOf s.fragments).length ≤ progress pre st := by
        rw [h.passed, hrest, progress, append_nil]; omega
      rw [drop_of_length_le hlen] at hc
      cases hc
  | f :: rest, pre, st, hrest, h, hready => by
      have hls := h.le_start
      have hlen := hctx.len_pos f (h.mem_of_rest (by rw [hrest]; simp))
      by_cases hT : T < f.timestamp
      · have hun : version.observed f.timestamp = false := by
          by_contra hne
          exact absurd (hseen _ (by simpa using hne)) (not_lt_of_gt hT)
        have hz : st.fragmentStart = st.oldFragments.start.1 := by
          by_contra hne
          obtain ⟨f', rest', hf', hpos, -⟩ := h.trim (by omega)
          obtain ⟨rfl, -⟩ := List.cons.inj (hrest.symm.trans hf')
          rw [pos_of_unseen hun] at hpos
          omega
        obtain ⟨hinv, hprog⟩ := h.keep hctx (show st.oldFragments.rest = [f] ++ rest from hrest) hz
          (show st.fragmentStart = _ by simp [pos_of_unseen hun, hz])
        have hst : ({ st.push f f.visible with
            oldFragments := st.oldFragments.next (VersionedFullOffset version) } : EditState) =
            { st with
              newRopes := st.newRopes.append [f]
              newFragments := st.newFragments ++ [f]
              oldFragments := ⟨(st.oldFragments.start.1 +
                  ([f].map (VersionedFullOffset version).pos).sum,
                st.oldFragments.start.2 + ([f].map (VersionedFullOffset version).aux).sum), rest⟩
              fragmentStart := st.fragmentStart } := by
          simp only [EditState.push, pushFragment_eq_append, Cursor.next, hrest, map_cons,
            map_nil, sum_cons, sum_nil, add_zero]
        rw [← hst] at hinv hprog
        obtain ⟨st₁, hst₁⟩ : ∃ x : EditState, x = { st.push f f.visible with
            oldFragments := st.oldFragments.next (VersionedFullOffset version) } := ⟨_, rfl⟩
        rw [← hst₁] at hinv hprog
        have hfs₁ : st₁.fragmentStart = st.fragmentStart := by rw [hst₁]; rfl
        have hcells : (cellsOf [f]).length = f.len := by simp
        have hcopy : Copies (VersionedFullOffset version) byte s T pre st (pre ++ [f]) st₁ := by
          refine ⟨hinv, by omega, ?_, by rw [hst₁]; rfl⟩
          rw [hprog, hcells, show progress pre st + f.len - progress pre st = f.len by omega,
            h.drop_progress hrest, hz, Nat.sub_self, drop_zero, take_left' (by simp), hst₁]
          simp [EditState.push]
        have hready₁ : Ready (VersionedFullOffset version) st₁ := by
          intro hlt
          rw [hst₁] at hlt
          simp only [EditState.push, Cursor.next, hrest, pos_of_unseen hun] at hlt
          omega
        obtain ⟨pre₂, st₂, heq, hc₂, hfs₂, hready₂, habove, hhead⟩ :=
          skipConcurrent_spec hctx hseen rest (pre ++ [f]) st₁
            (by rw [hst₁]; simp [Cursor.next, hrest]) hinv hready₁
        refine ⟨pre₂, st₂, ?_, hcopy.trans hc₂, hfs₂.trans hfs₁, hready₂, ?_, hhead⟩
        · rw [EditState.skipConcurrent, if_pos ⟨rfl, hT⟩, ← hst₁]
          rw [hfs₁] at heq
          exact heq
        · intro c hc
          have hle₂ := hc₂.le
          rw [show progress pre₂ st₂ - progress pre st =
            f.len + (progress pre₂ st₂ - progress (pre ++ [f]) st₁) by omega, take_add,
            mem_append] at hc
          rcases hc with hc | hc
          · rw [h.drop_progress hrest, hz, Nat.sub_self, drop_zero, take_left' (by simp)] at hc
            simp only [aboveEdit, (cells_uniform hc).1, hT, decide_true]
          · rw [drop_drop, show progress pre st + f.len = progress (pre ++ [f]) st₁ by
              omega] at hc
            exact habove c hc
      · refine ⟨pre, st, ?_, Copies.refl h, rfl, hready, by simp, ?_⟩
        · rw [EditState.skipConcurrent, if_neg (fun hx => hT hx.2)]
        · intro c hc
          -- the next cell is one of this fragment, which is not used up
          have hne : f.cells.drop (st.fragmentStart - st.oldFragments.start.1) ≠ [] := by
            rw [Ne, drop_eq_nil_iff, Fragment.length_cells, not_le]
            by_cases hlt : st.oldFragments.start.1 < st.fragmentStart
            · have := hready hlt
              have hstop : st.oldFragments.stop (VersionedFullOffset version) ≤
                  st.oldFragments.start.1 + f.len := by
                simp only [Cursor.stop, hrest]
                rcases VersionedFullOffset_pos version f with h0 | h0 <;> omega
              omega
            · omega
          rw [h.drop_progress hrest, head?_append_of_ne_nil _ hne] at hc
          have hmem := mem_of_mem_drop (mem_of_head? hc)
          simp only [aboveEdit, (cells_uniform hmem).1, hT, decide_false]

/-- **Arriving at an edit**: what was copied on the way is a stretch `A` up to the last
seen cell before the target, and the concurrent insertions `C` passed over there. -/
structure Arrives (version : Global) (byte : Lamport → Nat → UInt8) (s : BufferSnapshot)
    (T : Lamport) (target : Nat) (pre : List Fragment) (st : EditState) (pre' : List Fragment)
    (st' : EditState) (A C : List Cell) : Prop where
  copies : Copies (VersionedFullOffset version) byte s T pre st pre' st'
  stretch : ((cellsOf s.fragments).drop (progress pre st)).take
    (progress pre' st' - progress pre st) = A ++ C
  count : A.countP (seenBy version) = target - st.fragmentStart
  ends : Splice.EndsSeen (seenBy version) A
  above : ∀ c ∈ C, aboveEdit T c = true
  head : ∀ c, ((cellsOf s.fragments).drop (progress pre' st')).head? = some c →
    aboveEdit T c = false
  fragmentStart : st'.fragmentStart = target
  ready : Ready (VersionedFullOffset version) st'

section

variable (h : EditInv (VersionedFullOffset version) byte s T pre st) (hctx : EditCtx byte s T)
  (hseen : ∀ t, version.observed t = true → t < T)
include h hctx hseen

theorem arrives_of_skip {pre₁ : List Fragment} {st₁ : EditState}
    (hc : Copies (VersionedFullOffset version) byte s T pre st pre₁ st₁)
    (hfs : st₁.fragmentStart = target) (hready : Ready (VersionedFullOffset version) st₁)
    (hends : Splice.EndsSeen (seenBy version) (((cellsOf s.fragments).drop (progress pre st)).take
      (progress pre₁ st₁ - progress pre st))) :
    ∃ pre' st' A C,
      (EditState.skipConcurrent (VersionedFullOffset version) target T st₁.oldFragments.rest
        st₁).preserveFront target = some st' ∧ Arrives version byte s T target pre st pre' st' A C := by
  obtain ⟨pre₂, st₂, heq, hc₂, hfs₂, hready₂, habove, hhead⟩ :=
    skipConcurrent_spec hctx hseen _ pre₁ st₁ rfl hc.inv hready
  rw [hfs] at heq
  have hle₁ := hc.le
  have hle₂ := hc₂.le
  refine ⟨pre₂, st₂, _, _, ?_, hc.trans hc₂, ?_, countP_stretch h hc.inv hctx hle₁ |>.trans ?_, hends,
    habove, hhead, by rw [hfs₂, hfs], hready₂⟩
  · rw [heq, EditState.preserveFront, if_neg (by rw [hfs₂, hfs]; exact lt_irrefl _)]
  · rw [show progress pre₂ st₂ - progress pre st =
      (progress pre₁ st₁ - progress pre st) + (progress pre₂ st₂ - progress pre₁ st₁) by omega,
      take_add, drop_drop,
      show progress pre st + (progress pre₁ st₁ - progress pre st) = progress pre₁ st₁ by omega]
  · rw [hfs]

/-- **The way to an edit.** It ends at the end of a fragment, where concurrent insertions
are skipped, or inside one, where there are none. -/
theorem arrives (hready : Ready (VersionedFullOffset version) st) (hle : st.fragmentStart ≤ target)
    (htotal : target ≤ (s.fragments.map (VersionedFullOffset version).pos).sum) :
    ∃ st₁ st₂ pre' st' A C, st.jumpTo (VersionedFullOffset version) target .left = some st₁ ∧
      st₁.advancePast (VersionedFullOffset version) target = some st₂ ∧
      (EditState.skipConcurrent (VersionedFullOffset version) target T st₂.oldFragments.rest
        st₂).preserveFront target = some st' ∧ Arrives version byte s T target pre st pre' st' A C := by
  obtain ⟨pre₁, st₁, heq₁, hc₁, hle₁, hstop₁, hmoved⟩ := h.jumpTo hctx hle htotal .left
  by_cases hat : st₁.fragmentStart = target
  · -- already there
    have hst : st₁ = st := hmoved.resolve_right (fun hm => by have := hm.2 rfl; omega)
    subst hst
    obtain ⟨pre', st', A, C, heq, har⟩ := arrives_of_skip h hctx hseen (Copies.refl h) hat hready
      (by simp [Splice.EndsSeen])
    refine ⟨_, _, pre', st', A, C, heq₁, ?_, heq, har⟩
    rw [EditState.advancePast, if_neg (fun hx => by omega)]
  by_cases hend : st₁.oldFragments.stop (VersionedFullOffset version) = target
  · obtain ⟨f, st₂, heq₂, hc₂, hfs₂, hstart₂, hlands⟩ :=
      advancePast_spec hc₁.inv hctx hend (by omega)
    have hc := hc₁.trans hc₂
    obtain ⟨pre', st', A, C, heq, har⟩ := arrives_of_skip h hctx hseen hc hfs₂
      (fun hlt => by omega) (endsSeen_stretch hlands hc.le)
    exact ⟨st₁, st₂, pre', st', A, C, heq₁, heq₂, heq, har⟩
  · -- inside a fragment: what comes next has been seen
    have hskip : EditState.skipConcurrent (VersionedFullOffset version) target T
        st₁.oldFragments.rest st₁ = st₁ := by
      cases hf : st₁.oldFragments.rest with
      | nil => rfl
      | cons f rest => rw [EditState.skipConcurrent, if_neg (fun hx => hat hx.1)]
    obtain ⟨st₂, heq₂, hc₂, hfs₂, hold₂⟩ :=
      hc₁.inv.preserveFront hctx hle₁ hstop₁ (VersionedFullOffset_pos version)
    have hc := hc₁.trans hc₂
    have hls := hc₁.inv.le_start
    have hinside : st₂.oldFragments.start.1 < st₂.fragmentStart := by rw [hold₂, hfs₂]; omega
    obtain ⟨f, rest, hf, hpos, hle₂⟩ := hc.inv.trim hinside
    have hstop : st₂.oldFragments.stop (VersionedFullOffset version) =
        st₂.oldFragments.start.1 + f.len := by simp [Cursor.stop, hf, hpos]
    have hlt : st₂.fragmentStart < st₂.oldFragments.stop (VersionedFullOffset version) := by
      rw [hfs₂, hold₂]; omega
    refine ⟨st₁, st₁, pre₁, st₂, _, [], heq₁, ?_, by rw [hskip, heq₂], hc, (append_nil _).symm,
      (countP_stretch h hc.inv hctx hc.le).trans (by rw [hfs₂]),
      endsSeen_stretch (lands_of_inside hc.inv hctx hinside) hc.le, by simp, ?_, hfs₂, fun _ => hlt⟩
    · rw [EditState.advancePast, if_neg (fun hx => hend hx.1)]
    · intro c hc'
      have hne : f.cells.drop (st₂.fragmentStart - st₂.oldFragments.start.1) ≠ [] := by
        rw [Ne, drop_eq_nil_iff, Fragment.length_cells, not_le]
        omega
      rw [hc.inv.drop_progress hf, head?_append_of_ne_nil _ hne] at hc'
      have hmem := mem_of_mem_drop (mem_of_head? hc')
      have hlen := hctx.len_pos f (hc.inv.mem_of_rest (by rw [hf]; simp))
      have := hseen _ (seen_of_pos hlen hpos)
      simp only [aboveEdit, (cells_uniform hmem).1, not_lt_of_gt this, decide_false]

end

theorem oldStartRemote_eq (h : EditInv (VersionedFullOffset version) byte s T pre st) :
    st.oldStartRemote = oldVisibleLen byte s pre st := by
  have h2 : st.oldFragments.start.2 = visibleLen pre := by rw [h.start]; rfl
  rw [oldVisibleLen, h.take_progress, textOf_append, length_append, length_textOf_visible, ← h2]
  unfold EditState.oldStartRemote Cursor.item
  cases hf : st.oldFragments.rest with
  | nil => simp
  | cons f rest =>
    have hv : ∀ c ∈ f.cells.take (st.fragmentStart - st.oldFragments.start.1),
        c.visible = f.visible := fun c hc => (cells_uniform (mem_of_mem_take hc)).2.1
    simp only [head?_cons, map_some, getD_some]
    rw [textOf_uniform byte hv]
    have hlen : st.fragmentStart - st.oldFragments.start.1 ≤ f.len := by
      by_cases hlt : st.oldFragments.start.1 < st.fragmentStart
      · obtain ⟨f', rest', hf', -, hle⟩ := h.trim hlt
        obtain ⟨rfl, -⟩ := List.cons.inj (hf.symm.trans hf')
        omega
      · omega
    split
    · rw [length_bytesOf, length_take, Fragment.length_cells]
      omega
    · simp

/-! ## Deleting -/

theorem wasVisible_cells {c : Cell} (h : c ∈ f.cells) (undos : UndoMap) :
    c.wasVisible version undos = f.wasVisible version undos := by
  obtain ⟨h1, -, h3, -⟩ := cells_uniform h
  simp only [Cell.wasVisible, Fragment.wasVisible, h1, h3]

def EditState.remotePiece (version : Global) (undos : UndoMap) (T : Lamport) (stop : Nat)
    (f : Fragment) (st : EditState) : Fragment :=
  let cut := { st.part f stop with id := Locator.between (maxId st.newFragments) f.id }
  if f.wasVisible version undos then
    { cut with deletions := f.deletions ++ [T], visible := false }
  else cut

theorem remotePiece_pieceOf (version : Global) (T : Lamport) (undos : UndoMap)
    (hlt : st.fragmentStart < stop) (hle : stop ≤ st.oldFragments.start.1 + f.len)
    (hs : st.oldFragments.start.1 ≤ st.fragmentStart) :
    PieceOf T st f (st.remotePiece version undos T stop f) ∧
      (st.remotePiece version undos T stop f).len = stop - st.fragmentStart ∧
      (st.remotePiece version undos T stop f).id =
        Locator.between (maxId st.newFragments) f.id := by
  have hp : PieceOf T st f { st.part f stop with
      id := Locator.between (maxId st.newFragments) f.id } := part_pieceOf hlt hle hs
  unfold EditState.remotePiece
  cases f.wasVisible version undos with
  | false => exact ⟨hp, rfl, rfl⟩
  | true =>
    exact ⟨⟨hp.timestamp, hp.offset, hp.maxUndos, hp.len_pos, hp.len_le, .inr ⟨rfl, rfl⟩⟩, rfl, rfl⟩

theorem remotePiece_deletions (version : Global) (T : Lamport) (st : EditState) (undos : UndoMap) (f : Fragment) (stop : Nat) :
    (st.remotePiece version undos T stop f).deletions ≠ f.deletions ↔
      f.wasVisible version undos = true := by
  unfold EditState.remotePiece
  cases f.wasVisible version undos with
  | false => simp [EditState.part]
  | true => simp

/-- What one round of the deletion loop does to a fragment the author had seen. -/
theorem deleteStepRemote_eq (undos : UndoMap) {stop' : Nat}
    (hseen : version.observed f.timestamp = true)
    (hstop : min stop (st.oldFragments.stop (VersionedFullOffset version)) = stop')
    (hlt : st.fragmentStart < stop') :
    let g := st.remotePiece version undos T stop' f
    let oldStart := st.oldFragments.start.2 + (st.fragmentStart - st.oldFragments.start.1)
    st.deleteStepRemote version undos T stop f = { st.pushNew g f.visible with
        insertionSlices := if f.wasVisible version undos
          then st.insertionSlices ++ [.fromFragment T g] else st.insertionSlices
        editsPatch := if f.visible && !g.visible
          then st.editsPatch.push ⟨⟨oldStart, oldStart + g.len⟩,
            ⟨visibleLen st.newFragments, visibleLen st.newFragments⟩⟩
          else st.editsPatch
        fragmentStart := stop' } := by
  intro g oldStart
  have hlen : 0 < stop' - st.fragmentStart := by omega
  simp only [EditState.deleteStepRemote, hseen, hstop, Bool.true_and, if_true, g, oldStart,
    EditState.remotePiece]
  cases f.wasVisible version undos with
  | false =>
    simp only [Bool.false_eq_true, if_false, EditState.part, hlen, if_true]
    cases f.visible <;> simp [EditState.pushNew, EditState.push]
  | true =>
    simp only [if_true, EditState.part, hlen]
    cases f.visible <;> simp [EditState.pushNew, EditState.push]

section

variable (h : EditInv (VersionedFullOffset version) byte s T pre st) (hctx : EditCtx byte s T)
  (undos : UndoMap) {rest : List Fragment}
include h hctx undos

theorem deleteStepRemote_seen {stop' : Nat} (hrest : st.oldFragments.rest = f :: rest)
    (hseen : version.observed f.timestamp = true)
    (hstop : min stop (st.oldFragments.stop (VersionedFullOffset version)) = stop')
    (hlt : st.fragmentStart < stop') :
    Deletes (VersionedFullOffset version) byte s T (hitRemote version undos T) pre st pre
        (st.deleteStepRemote version undos T stop f) ∧
      (st.deleteStepRemote version undos T stop f).oldFragments = st.oldFragments ∧
      (st.deleteStepRemote version undos T stop f).fragmentStart = stop' := by
  have hpos := pos_of_seen hseen
  have hend : stop' ≤ st.oldFragments.start.1 + f.len := by
    have : st.oldFragments.stop (VersionedFullOffset version) = st.oldFragments.start.1 + f.len := by
      simp [Cursor.stop, hrest, hpos]
    omega
  have hls := h.le_start
  obtain ⟨hp, hgl, hgid⟩ := remotePiece_pieceOf version T undos hlt hend hls
  have hgd := remotePiece_deletions version T st undos f stop'
  have hst := deleteStepRemote_eq (T := T) undos hseen hstop hlt
  generalize st.remotePiece version undos T stop' f = g at hp hgl hgid hgd hst
  obtain ⟨st', hst'⟩ : ∃ x, x = st.deleteStepRemote version undos T stop f := ⟨_, rfl⟩
  rw [← hst'] at hst ⊢
  have he : Emits T (st.oldFragments.start.2 + (st.fragmentStart - st.oldFragments.start.1)) st
      st' f g := by
    rw [hst]
    refine ⟨rfl, rfl, rfl, ?_, rfl⟩
    cases hw : f.wasVisible version undos with
    | false =>
      have : g.deletions = f.deletions := by
        by_contra hne
        rw [hgd.mp hne] at hw
        cases hw
      simp [this]
    | true => simp [hgd.mpr hw]
  have hold : f.visible = true → st.oldFragments.start.2 +
      (st.fragmentStart - st.oldFragments.start.1) = oldVisibleLen byte s pre st := by
    intro hv
    rw [← oldStartRemote_eq h]
    simp [EditState.oldStartRemote, Cursor.item, hrest, hv]
  have hinv := h.emit_stay hctx hrest hp he hold hgid hpos (by rw [hst]; rfl)
    (by rw [hst, hgl]; dsimp only; omega)
  refine ⟨deletes_of_emit ?_ he.fragments (by rw [hst]; rfl) hinv, by rw [hst]; rfl, by rw [hst]⟩
  have hcells := h.piece_cells hrest hp
  have hmem : ∀ c ∈ ((cellsOf s.fragments).drop (progress pre st)).take g.len, c ∈ f.cells := by
    intro c hc
    rw [← hcells] at hc
    exact mem_of_mem_drop (mem_of_mem_take hc)
  cases hw : f.wasVisible version undos with
  | false =>
    have hd : g.deletions = f.deletions := by
      by_contra hne
      rw [hgd.mp hne] at hw
      cases hw
    rw [hp.fate_cells.1 hd, hcells]
    rw [map_congr_left (g := id) (fun c hc => ?_), List.map_id]
    simp [hitRemote, wasVisible_cells (hmem c hc), hw]
  | true =>
    rw [hp.fate_cells.2 (hgd.mpr hw), hcells]
    refine map_congr_left (fun c hc => ?_)
    simp [hitRemote, wasVisible_cells (hmem c hc), hw]

theorem deleteStepRemote_unseen (hrest : st.oldFragments.rest = f :: rest) (hun : version.observed f.timestamp = false)
    (hle : st.fragmentStart ≤ stop) :
    let st' := { st.deleteStepRemote version undos T stop f with
      oldFragments :=
        (st.deleteStepRemote version undos T stop f).oldFragments.next (VersionedFullOffset version) }
    Deletes (VersionedFullOffset version) byte s T (hitRemote version undos T) pre st (pre ++ [f])
        st' ∧ st'.oldFragments.rest = rest ∧ st'.fragmentStart = st.fragmentStart ∧
      st'.oldFragments.start.1 = st.fragmentStart := by
  intro st'
  have hlen := hctx.len_pos f (h.mem_of_rest (by rw [hrest]; simp))
  have hpos := pos_of_unseen hun
  have hls := h.le_start
  have hfle := h.le_stop
  have hstop : st.oldFragments.stop (VersionedFullOffset version) = st.oldFragments.start.1 := by
    simp [Cursor.stop, hrest, hpos]
  have hst : st' = { st.pushNew f f.visible with
      oldFragments := st.oldFragments.next (VersionedFullOffset version)
      fragmentStart := st.fragmentStart } := by
    have hmin : min stop (st.oldFragments.stop (VersionedFullOffset version)) = st.fragmentStart := by
      omega
    simp only [st', EditState.deleteStepRemote, hun, hmin, Bool.false_and, Bool.false_eq_true,
      if_false, hlen, if_true]
    cases f.visible <;> simp [EditState.pushNew, EditState.push]
  have hp : PieceOf T st f f :=
    ⟨rfl, by omega, rfl, hlen, by omega, .inl ⟨rfl, rfl⟩⟩
  have he : Emits T (oldVisibleLen byte s pre st) st st' f f := by
    rw [hst]; exact pushNew_emits _ _ _ rfl rfl
  have hnext : (st.oldFragments.next (VersionedFullOffset version)).start.1 = st.fragmentStart := by
    simp only [Cursor.next, hrest, hpos]
    omega
  have hinv := h.emit_last hctx hrest hp he (fun _ => rfl) rfl (by omega) (by rw [hst])
    (by rw [hst]; exact hnext.symm)
  refine ⟨deletes_of_emit ?_ he.fragments (by rw [hst]; rfl) hinv, ?_, by rw [hst],
    by rw [hst]; exact hnext⟩
  · rw [← h.piece_cells hrest hp, show st.fragmentStart - st.oldFragments.start.1 = 0 by omega,
      drop_zero, take_of_length_le (by simp)]
    rw [map_congr_left (g := id) (fun c hc => ?_), List.map_id]
    have : c.wasVisible version undos = false := by
      rw [wasVisible_cells hc, Fragment.wasVisible, hun]; rfl
    simp [hitRemote, this]
  · rw [hst]; simp [Cursor.next, hrest]

end

/--
**The deletion loop of a remote edit** hits every cell up to the last one the author
had seen before `stop`. The induction is on the fragments the cursor has not passed.
-/
theorem deleteRemote_spec (hctx : EditCtx byte s T) (undos : UndoMap) :
    ∀ (rest : List Fragment) (pre : List Fragment) (st : EditState),
      st.oldFragments.rest = rest → EditInv (VersionedFullOffset version) byte s T pre st →
      Ready (VersionedFullOffset version) st → st.fragmentStart ≤ stop →
      stop ≤ (s.fragments.map (VersionedFullOffset version).pos).sum →
      ∃ pre' st', EditState.deleteRemote version undos T stop rest st = some st' ∧
        Deletes (VersionedFullOffset version) byte s T (hitRemote version undos T) pre st pre' st' ∧
        st'.fragmentStart = stop ∧ Ready (VersionedFullOffset version) st' ∧
        (progress pre' st' = progress pre st ∨ Lands version s pre' st')
  | [], pre, st, hrest, h, hready, hle, htotal => by
      have hsum := h.start_add_rest
      rw [hrest] at hsum
      simp only [map_nil, sum_nil, add_zero] at hsum
      have hls := h.le_start
      have hnot : ¬ st.fragmentStart < stop := by omega
      exact ⟨pre, st, by simp [EditState.deleteRemote, hnot], Deletes.refl h, by omega, hready,
        .inl rfl⟩
  | f :: rest, pre, st, hrest, h, hready, hle, htotal => by
      simp only [EditState.deleteRemote]
      by_cases hlt : st.fragmentStart < stop
      swap
      · rw [if_neg hlt]
        exact ⟨pre, st, rfl, Deletes.refl h, by omega, hready, .inl rfl⟩
      rw [if_pos hlt]
      have hls := h.le_start
      have hfle := h.le_stop
      have hlen := hctx.len_pos f (h.mem_of_rest (by rw [hrest]; simp))
      have hstop : st.oldFragments.stop (VersionedFullOffset version) =
          st.oldFragments.start.1 + (VersionedFullOffset version).pos f := by
        simp [Cursor.stop, hrest]
      cases hseen : version.observed f.timestamp with
      | false =>
        -- a concurrent fragment takes no positions
        have hpos := pos_of_unseen hseen
        obtain ⟨hd, hrest', hfs, hstart⟩ := deleteStepRemote_unseen h hctx undos hrest hseen hle
        rw [if_pos (by omega)]
        obtain ⟨pre', st', heq, hd', hst', hready', hlands⟩ := deleteRemote_spec hctx undos rest
          (pre ++ [f]) _ hrest' hd.inv (fun hx => by omega) (by rw [hfs]; exact hle) htotal
        refine ⟨pre', st', heq, hd.trans hd', hst', hready', .inr ?_⟩
        refine hlands.resolve_left (fun hsame => ?_)
        -- there is something left to delete, so the position moves on
        have h1 := remote_count hd.inv hctx
        have h2 := remote_count hd'.inv hctx
        rw [hsame, h1, hfs, hst'] at h2
        omega
      | true =>
        have hpos := pos_of_seen hseen
        have hfresh : st.fragmentStart < st.oldFragments.stop (VersionedFullOffset version) := by
          by_cases hin : st.oldFragments.start.1 < st.fragmentStart
          · exact hready hin
          · omega
        obtain ⟨hd, hold, hfs⟩ := deleteStepRemote_seen h hctx undos hrest hseen rfl
          (lt_min hlt hfresh)
        have hlands := lands_of_inside hd.inv hctx (by rw [hold, hfs]; omega)
        by_cases hend : st.oldFragments.stop (VersionedFullOffset version) ≤ stop
        · -- it ends inside the range: go on with the next one
          rw [if_pos hend]
          obtain ⟨hinv, hprog⟩ := hd.inv.pass hctx (by rw [hold]; exact hrest) hpos
            (by rw [hfs, hold]; omega)
          have hstep : Deletes (VersionedFullOffset version) byte s T (hitRemote version undos T)
              pre st (pre ++ [f])
              { st.deleteStepRemote version undos T stop f with
                oldFragments := (st.deleteStepRemote version undos T stop f).oldFragments.next
                  (VersionedFullOffset version) } :=
            hd.trans ⟨hinv, hprog.ge, by rw [hprog]; simp, rfl⟩
          have hstart : ((st.deleteStepRemote version undos T stop f).oldFragments.next
              (VersionedFullOffset version)).start.1 = st.oldFragments.start.1 + f.len := by
            simp only [hold, Cursor.next, hrest, hpos]
          obtain ⟨pre', st', heq, hd', hst', hready', hlands'⟩ :=
            deleteRemote_spec hctx undos rest (pre ++ [f]) _ (by simp [Cursor.next, hold, hrest])
              hinv (fun hx => by dsimp only at hx; omega) (by dsimp only; omega) htotal
          refine ⟨pre', st', heq, hstep.trans hd', hst', hready', .inr ?_⟩
          rcases hlands' with hsame | hl
          · rw [Lands, hsame, hprog]
            exact hlands
          · exact hl
        · rw [if_neg hend]
          exact ⟨pre, _, rfl, hd, by rw [hfs]; omega, fun _ => by rw [hfs, hold]; omega,
            .inr hlands⟩

/-- **One remote edit** cuts what is left of the old cells as a splice does. -/
theorem editRemote_spec (h : EditInv (VersionedFullOffset version) byte s T pre st)
    (hctx : EditCtx byte s T) (cfg : Profile) (undos : UndoMap)
    (hseen : ∀ t, version.observed t = true → t < T)
    (hready : Ready (VersionedFullOffset version) st) {range : Range} {text : List Char}
    (hle : st.fragmentStart ≤ range.start) (hrange : range.start ≤ range.stop)
    (htotal : range.stop ≤ (s.fragments.map (VersionedFullOffset version).pos).sum)
    (hbyte : (List.range' st.insertionOffset (byteLen text)).map (byte T) = utf8 text) :
    ∃ pre' st' A C E, st.editRemote cfg version undos T range text = some st' ∧
      EditInv (VersionedFullOffset version) byte s T pre' st' ∧ st'.fragmentStart = range.stop ∧
      Ready (VersionedFullOffset version) st' ∧
      st'.insertionOffset = st.insertionOffset + byteLen text ∧
      Splice.Cut (seenBy version) (aboveEdit T) st.fragmentStart
        ⟨range.start, range.stop, (List.range' st.insertionOffset (byteLen text)).map
          (Cell.inserted T)⟩ ((cellsOf s.fragments).drop (progress pre st)) A C E
        ((cellsOf s.fragments).drop (progress pre' st')) ∧
      cellsOf st'.newFragments = cellsOf st.newFragments ++ (A ++ (C ++
        ((List.range' st.insertionOffset (byteLen text)).map (Cell.inserted T) ++
          E.map (hitRemote version undos T)))) := by
  obtain ⟨st₁, st₂, pre₃, st₃, A, C, heq₁, heq₂, heq₃, har⟩ :=
    arrives h hctx hseen hready hle (by omega)
  have hoff : st₃.insertionOffset = st.insertionOffset := har.copies.insertionOffset
  obtain ⟨hinv₄, hprog₄, hold₄, hfs₄, hoff₄, hcells₄⟩ :=
    har.copies.inv.insert hctx cfg (oldStartRemote_eq har.copies.inv) (by rw [hoff]; exact hbyte)
  have hready₄ : Ready (VersionedFullOffset version)
      (st₃.insertText cfg T st₃.oldStartRemote text) := by
    intro hx
    rw [hold₄, hfs₄] at hx ⊢
    exact har.ready hx
  obtain ⟨pre₅, st₅, heq₅, hd₅, hfs₅, hready₅, hlands₅⟩ := deleteRemote_spec hctx undos _ pre₃ _ rfl
    hinv₄ hready₄ (by rw [hfs₄, har.fragmentStart]; exact hrange) htotal
  have hle₃ := har.copies.le
  have hle₅ := hd₅.le
  rw [hprog₄] at hle₅
  -- the three stretches and the rest
  obtain ⟨E, hE⟩ : ∃ E, E = ((cellsOf s.fragments).drop (progress pre₃ st₃)).take
      (progress pre₅ st₅ - progress pre₃ st₃) := ⟨_, rfl⟩
  have hrest : (cellsOf s.fragments).drop (progress pre₃ st₃) =
      E ++ (cellsOf s.fragments).drop (progress pre₅ st₅) := by
    rw [hE, show (cellsOf s.fragments).drop (progress pre₅ st₅) =
      ((cellsOf s.fragments).drop (progress pre₃ st₃)).drop
        (progress pre₅ st₅ - progress pre₃ st₃) by rw [drop_drop]; congr 1; omega,
      take_append_drop]
  have hwhole : (cellsOf s.fragments).drop (progress pre st) =
      A ++ (C ++ (E ++ (cellsOf s.fragments).drop (progress pre₅ st₅))) := by
    rw [← hrest, ← append_assoc, ← har.stretch,
      show (cellsOf s.fragments).drop (progress pre₃ st₃) =
        ((cellsOf s.fragments).drop (progress pre st)).drop
          (progress pre₃ st₃ - progress pre st) by rw [drop_drop]; congr 1; omega,
      take_append_drop]
  have hhead := har.head
  rw [hrest] at hhead
  have hcount : E.countP (seenBy version) = range.stop - range.start := by
    have := countP_stretch har.copies.inv hd₅.inv hctx hle₅
    rw [← hE, har.fragmentStart, hfs₅] at this
    exact this
  have hends : Splice.EndsSeen (seenBy version) E := by
    rw [hE]
    rcases hlands₅ with hsame | hl
    · rw [hsame, hprog₄]
      simp [Splice.EndsSeen]
    · exact endsSeen_stretch hl hle₅
  refine ⟨pre₅, st₅, A, C, E, ?_, hd₅.inv, hfs₅, hready₅, ?_, ⟨hwhole, ?_, ?_, ?_, ?_⟩, ?_⟩
  · simp only [EditState.editRemote, heq₁, heq₂, heq₃, heq₅]
  · rw [hd₅.insertionOffset, hoff₄, hoff]
  · exact Splice.takeSeen_eq hwhole har.count har.ends
  · rw [takeWhile_append_of_pos har.above, Splice.takeWhile_eq_nil_of_head hhead, append_nil]
  · rw [dropWhile_append_of_pos har.above, Splice.dropWhile_eq_self_of_head hhead]
  · exact Splice.takeSeen_eq rfl hcount hends
  · rw [hd₅.cells, hcells₄, har.copies.cells, hprog₄, har.stretch, hoff, ← hE]
    simp only [append_assoc]

theorem editsRemote_spec (hctx : EditCtx byte s T) (cfg : Profile) (undos : UndoMap)
    (hseen : ∀ t, version.observed t = true → t < T) :
    ∀ (ranges : List Range) (texts : List (List Char)) (pre : List Fragment) (st : EditState),
      ranges.length = texts.length → EditInv (VersionedFullOffset version) byte s T pre st →
      Ready (VersionedFullOffset version) st →
      ValidRanges st.fragmentStart ranges (s.fragments.map (VersionedFullOffset version).pos).sum →
      (List.range' st.insertionOffset (byteLen texts.flatten)).map (byte T) = utf8 texts.flatten →
      ∃ pre' st', st.editsRemote cfg version undos T (ranges.zip texts) = some st' ∧
        EditInv (VersionedFullOffset version) byte s T pre' st' ∧
        cellsOf st'.newFragments ++ (cellsOf s.fragments).drop (progress pre' st') =
          cellsOf st.newFragments ++
            Splice.splice (seenBy version) (aboveEdit T) (hitRemote version undos T)
              st.fragmentStart (blocksOf T st.insertionOffset ranges texts)
              ((cellsOf s.fragments).drop (progress pre st))
  | [], texts, pre, st, _, h, _, _, _ => ⟨pre, st, rfl, h, rfl⟩
  | range :: ranges, [], pre, st, hl, _, _, _, _ => absurd hl (by simp)
  | range :: ranges, text :: texts, pre, st, hl, h, hready, hv, hb => by
      obtain ⟨hv1, hv2, hv3⟩ := hv
      simp only [flatten_cons, byteLen_append, utf8, flatMap_append] at hb
      rw [← range'_append_1, map_append] at hb
      obtain ⟨hb1, hb2⟩ := append_inj hb (by
        have := length_utf8 text
        simpa [utf8] using this.symm)
      obtain ⟨pre₁, st₁, A, C, E, heq₁, hinv₁, hfs₁, hready₁, hoff₁, hcut, hcells₁⟩ :=
        editRemote_spec h hctx cfg undos hseen hready hv1 hv2 hv3.le hb1
      obtain ⟨pre₂, st₂, heq₂, hinv₂, hcells₂⟩ := editsRemote_spec hctx cfg undos hseen ranges texts
        pre₁ st₁ (by simpa using hl) hinv₁ hready₁ (by rw [hfs₁]; exact hv3)
        (by rw [hoff₁]; exact hb2)
      refine ⟨pre₂, st₂, ?_, hinv₂, ?_⟩
      · simp only [zip_cons_cons, EditState.editsRemote, heq₁, heq₂]
      · rw [hcells₂, hcells₁, blocksOf, hcut.splice_eq, hoff₁, hfs₁]
        simp only [append_assoc]

theorem jumpTo_appendSlice (h : EditInv (VersionedFullOffset version) byte s T pre st)
    (hctx : EditCtx byte s T) (hz : st.fragmentStart = st.oldFragments.start.1)
    (hle : st.fragmentStart ≤ target)
    (htotal : target ≤ (s.fragments.map (VersionedFullOffset version).pos).sum) :
    (st.appendSlice (VersionedFullOffset version) target .left).jumpTo (VersionedFullOffset version)
      target .left = st.jumpTo (VersionedFullOffset version) target .left := by
  have hfin : st.finishFragment (VersionedFullOffset version) = some st := by
    rw [EditState.finishFragment, if_neg (by omega)]
  by_cases hlt : st.oldFragments.stop (VersionedFullOffset version) < target
  · have hjump : st.jumpTo (VersionedFullOffset version) target .left =
        some (st.appendSlice (VersionedFullOffset version) target .left) := by
      rw [EditState.jumpTo, if_pos hlt, hfin]; rfl
    obtain ⟨-, st₁, heq, -, -, hstop, -⟩ := h.jumpTo hctx hle htotal .left
    rw [hjump] at heq
    cases heq
    rw [hjump, EditState.jumpTo, if_neg (by omega)]
  · -- the first fragment already holds the target
    have hst : st.appendSlice (VersionedFullOffset version) target .left = st := by
      have hslice : st.oldFragments.slice (VersionedFullOffset version) target .left =
          ([], st.oldFragments) := by
        unfold Cursor.slice
        cases hf : st.oldFragments.rest with
        | nil => rw [Cursor.sliceFrom, ← hf]
        | cons f rest =>
          simp only [Cursor.stop, hf] at hlt
          rw [Cursor.sliceFrom, if_neg (by simp [Cursor.passes]; omega), ← hf]
      have happ : st.newRopes.append [] = st.newRopes := by
        simp [RopeBuilder.append, RopeBuilder.push, visibleLen, deletedLen]
      simp only [EditState.appendSlice, hslice, happ, append_nil, ← hz]
    rw [hst]

/-- **`apply_remote_edit` is a splice.** It succeeds on the ranges of an operation that is
valid in what its author had seen. -/
theorem applyRemoteEdit_spec (hctx : EditCtx byte s T) (cfg : Profile)
    (hseen : ∀ t, version.observed t = true → t < T) {ranges : List Range}
    {texts : List (List Char)} (hne : ranges ≠ []) (hlen : ranges.length = texts.length)
    (hv : ValidRanges 0 ranges ((cellsOf s.fragments).countP (seenBy version)))
    (hb : (List.range' 0 (byteLen texts.flatten)).map (byte T) = utf8 texts.flatten) :
    ∃ s' patch newInsertions slices,
      s.applyRemoteEdit cfg ⟨T, version, ranges, texts⟩ = some (s', some patch) ∧
      EditDone byte s T newInsertions slices s' patch ∧
      cellsOf s'.fragments =
        Splice.splice (seenBy version) (aboveEdit T) (hitRemote version s.undoMap T) 0
          (blocksOf T 0 ranges texts) (cellsOf s.fragments) := by
  rw [countP_cellsOf] at hv
  obtain ⟨first, rest, rfl⟩ := exists_cons_of_ne_nil hne
  cases texts with
  | nil => simp at hlen
  | cons text texts =>
    have hnew : EditInv (VersionedFullOffset version) byte s T [] (EditState.new s) :=
      EditInv.new hctx
    obtain ⟨pre₁, st₁, heq₁, hinv₁, hcells₁⟩ := editsRemote_spec hctx cfg s.undoMap hseen
      (first :: rest) (text :: texts) [] (EditState.new s) hlen hnew
      (fun hx => absurd hx (lt_irrefl _)) hv hb
    obtain ⟨s', patch, newInsertions, slices, hfin, hdone, hcells⟩ := hinv₁.finish hctx
    -- the loop starts after the first slice, which its first jump would have made
    have hjump := jumpTo_appendSlice hnew hctx rfl hv.1 (le_trans hv.2.1 hv.2.2.le)
    have hsame : ((EditState.new s).appendSlice (VersionedFullOffset version) first.start
        .left).editsRemote cfg version s.undoMap T ((first :: rest).zip (text :: texts)) =
        some st₁ := by
      rw [← heq₁]
      simp only [zip_cons_cons, EditState.editsRemote, EditState.editRemote, hjump]
    refine ⟨s', patch, newInsertions, slices, ?_, hdone, hcells.trans hcells₁⟩
    simp only [BufferSnapshot.applyRemoteEdit, hsame, hfin, map_some]

end Remote

end SpkEditor
