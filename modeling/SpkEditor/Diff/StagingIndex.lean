import SpkEditor.Diff.StagingGroups

/-!
# The edits of the index

The second loop of `stage_or_unstage_hunks_impl` makes one edit for every group. It infers where a
group is in the index from the last unstaged hunk it has passed, and that is the range of the index
that corresponds to the group.
-/

namespace SpkEditor.Staging

open Cover List

/-! ## Merging gathers a group -/

/-- What merging knows of the group that is gathered: `b` and `t` are where the last unstaged hunk
before it ends, and `n` is where its first hunk would start in the index. -/
structure Tracks (b t n : Nat) (m : Merging) (g : Group) : Prop where
  range : m.range = g.range
  ends : (m.prevBaseEnd, m.prevBufferEnd) = endsOf b t g.unstaged
  indexStart : m.indexStart = (g.unstaged.map (·.base.start)).foldl min n

variable {b t n : Nat} {m : Merging} {g : Group}

theorem endsOf_concat : ∀ (b t : Nat) (hunks : List Hunk) (u : Hunk),
    endsOf b t (hunks ++ [u]) = (u.base.stop, u.buffer.stop)
  | _, _, [], _ => rfl
  | _, _, h :: hunks, u => endsOf_concat h.base.stop h.buffer.stop hunks u

theorem mergeUnstaged_tracks : ∀ {unstaged : List Hunk} {m : Merging} {g : Group},
    Tracks b t n m g →
    (mergeUnstaged unstaged m).1 = (gatherUnstaged unstaged g).1 ∧
      Tracks b t n (mergeUnstaged unstaged m).2 (gatherUnstaged unstaged g).2
  | [], _, _, h => ⟨rfl, h⟩
  | u :: unstaged, m, g, h => by
      rw [mergeUnstaged, gatherUnstaged, h.range]
      split
      · refine mergeUnstaged_tracks ⟨rfl, ?_, ?_⟩
        · simp only [Group.addUnstaged, endsOf_concat]
        · simp only [Group.addUnstaged, map_append, map_cons, map_nil,
            foldl_append, foldl_cons, foldl_nil, h.indexStart]
      · exact ⟨rfl, h⟩

theorem mergeHunks_tracks : ∀ {pending : List PendingHunk} {unstaged : List Hunk} {m : Merging}
    {g : Group}, Tracks b t n m g →
    (mergeHunks pending unstaged m).1 = (gather pending unstaged g).1 ∧
      (mergeHunks pending unstaged m).2.1 = (gather pending unstaged g).2.1 ∧
      Tracks b t n (mergeHunks pending unstaged m).2.2 (gather pending unstaged g).2.2
  | [], unstaged, m, g, h => ⟨rfl, mergeUnstaged_tracks h⟩
  | p :: pending, unstaged, m, g, h => by
      obtain ⟨hu, ht⟩ := @mergeUnstaged_tracks b t n unstaged m g h
      rw [mergeHunks, gather]
      simp only [hu, ht.range]
      split
      · exact mergeHunks_tracks ⟨rfl, ht.ends, ht.indexStart⟩
      · exact ⟨rfl, rfl, ht⟩

/-! ## Where the edits are -/

section

variable {base text : Bytes}

theorem toBaseStart_le_toBaseEnd : ∀ {b t : Nat} {hunks : List Hunk}
    (_ : ExactFrom base text b t hunks) (s : Nat),
    toBaseStart b t hunks s ≤ toBaseEnd b t hunks s
  | _, _, [], _, _ => le_rfl
  | b, t, h :: hunks, he, s => by
      have hbs := he.1.base_start
      have hble := he.1.base_le
      have hle := he.1.buffer_le
      simp only [toBaseStart, toBaseEnd]
      by_cases h1 : s < h.buffer.start
      · rw [if_pos h1, if_pos (.inl h1)]
      · rw [if_neg h1]
        by_cases h2 : s = h.buffer.start ∨ s < h.buffer.stop
        · rw [if_pos h2]
          split
          · omega
          · rw [if_pos (by omega)]
            exact hble
        · rw [if_neg h2, if_neg (by omega)]
          split
          · -- `s` is the end of the hunk
            have hrest := he.2.2
            rw [toBaseStart_before fun k hk => ?_]
            · omega
            · have := he.2.1 k hk
              omega
          · exact toBaseStart_le_toBaseEnd he.2.2 s

theorem lt_toBaseStart {b t : Nat} {hunks : List Hunk} (he : ExactFrom base text b t hunks)
    {s : Nat} (hs : t < s) (hgap : ∀ h ∈ hunks.head?, t < h.buffer.start) :
    b < toBaseStart b t hunks s := by
  cases hunks with
  | nil =>
    simp only [toBaseStart]
    omega
  | cons h hunks =>
    have hlt := hgap h rfl
    have hbs := he.1.base_start
    have hble := he.1.base_le
    simp only [toBaseStart]
    split
    · omega
    · split
      · omega
      · have := (toBaseStart_mono he.2.2 s s (by omega) le_rfl).1
        omega

theorem toBaseEnd_lt_toBaseStart : ∀ {b t : Nat} {hunks : List Hunk}
    (_ : ExactFrom base text b t hunks) {e s : Nat}, t ≤ e → e < s →
    (∀ h ∈ hunks, h.buffer.stop ≤ e ∨ e < h.buffer.start) →
    toBaseEnd b t hunks e < toBaseStart b t hunks s
  | b, t, [], _, e, s, ht, hes, _ => by
      simp only [toBaseStart, toBaseEnd]
      omega
  | b, t, h :: hunks, he, e, s, ht, hes, hout => by
      have hbs := he.1.base_start
      have hstart := he.1.start
      have hble := he.1.base_le
      have hle := he.1.buffer_le
      rcases hout h (mem_cons_self ..) with hlt | hlt
      · have hs : toBaseStart b t (h :: hunks) s =
            toBaseStart h.base.stop h.buffer.stop hunks s := by
          rw [toBaseStart, if_neg (by omega), if_neg (by omega)]
        rw [hs, toBaseEnd, if_neg (by omega)]
        split
        · exact lt_toBaseStart he.2.2 (by omega) he.2.1
        · exact toBaseEnd_lt_toBaseStart he.2.2 (by omega) hes
            fun h' hm => hout h' (mem_cons_of_mem _ hm)
      · simp only [toBaseStart, toBaseEnd]
        rw [if_pos (.inl hlt)]
        split
        · omega
        · split
          · omega
          · have := (toBaseStart_mono he.2.2 s s (by omega) le_rfl).1
            omega

theorem toBaseEnd_taken : ∀ {b t : Nat} {taken rest : List Hunk} {e : Nat},
    ExactFrom base text b t (taken ++ rest) → (∀ u ∈ taken, u.buffer.stop ≤ e) →
    (∀ u ∈ rest, e < u.buffer.start) →
    toBaseEnd b t (taken ++ rest) e = (endsOf b t taken).1 + (e - (endsOf b t taken).2)
  | _, _, [], rest, e, _, _, hrest =>
    toBaseEnd_before fun u hu => hrest u (mem_of_mem_head? hu)
  | b, t, u :: taken, rest, e, he, hle, hrest => by
      have hstop := hle u (mem_cons_self ..)
      have hu := he.1.buffer_le
      rw [cons_append, toBaseEnd, if_neg (by omega)]
      split
      · -- the end of this hunk is the end of the group, so it is the last
        cases taken with
        | nil =>
          simp only [endsOf]
          omega
        | cons v taken =>
          have hgap := he.2.1 v rfl
          have hv := he.2.2.1.buffer_le
          have := hle v (mem_cons_of_mem _ (mem_cons_self ..))
          omega
      · exact toBaseEnd_taken he.2.2 (fun v hv => hle v (mem_cons_of_mem _ hv)) hrest

theorem endsOf_snd_le : ∀ {b t : Nat} {hunks : List Hunk} {x : Nat},
    (∀ h ∈ hunks, h.buffer.stop ≤ x) → t ≤ x → (endsOf b t hunks).2 ≤ x
  | _, _, [], _, _, ht => ht
  | _, _, h :: hunks, x, hle, _ => by
      rw [endsOf]
      exact endsOf_snd_le (fun k hk => hle k (mem_cons_of_mem _ hk)) (hle h (mem_cons_self ..))

theorem endsOf_append : ∀ (b t : Nat) (hunks hunks' : List Hunk),
    endsOf b t (hunks ++ hunks') = endsOf (endsOf b t hunks).1 (endsOf b t hunks).2 hunks'
  | _, _, [], _ => rfl
  | _, _, h :: hunks, hunks' => endsOf_append h.base.stop h.buffer.stop hunks hunks'

theorem foldl_min_eq : ∀ {l : List Nat} {a : Nat}, (∀ x ∈ l, a ≤ x) → l.foldl min a = a
  | [], _, _ => rfl
  | x :: l, a, h => by
      rw [foldl_cons, min_eq_left (h x (mem_cons_self ..))]
      exact foldl_min_eq fun y hy => h y (mem_cons_of_mem _ hy)

end

/-! ## The edits -/

def IsPending (status : SecondaryStatus) : Prop :=
  status = .secondaryHunkRemovalPending ∨ status = .secondaryHunkAdditionPending

def groupText (head buffer : Bytes) (g : Group) : Bytes :=
  if g.first.newStatus = .secondaryHunkRemovalPending then textIn buffer g.range
  else textIn head g.first.base

theorem replacementText_eq {head buffer : Bytes} {g : Group} (h : IsPending g.first.newStatus) :
    replacementText head buffer g.range g.first.base g.first.newStatus =
      some (groupText head buffer g) := by
  rcases h with h | h <;> simp [replacementText, groupText, h]

section

variable {index buffer : Bytes} {p : PendingHunk} {pending : List PendingHunk}
  {unstaged : List Hunk}

theorem indexStart_eq (h : Ahead (p :: pending) unstaged)
    (he : ExactFrom index buffer b t (reached p unstaged)) (ht : t ≤ p.buffer.start) :
    toBaseStart b t (reached p unstaged) (gatherFirst p pending unstaged).2.2.range.start =
      b + ((gatherFirst p pending unstaged).2.2.range.start - t) ∧
    ((gatherFirst p pending unstaged).2.2.unstaged.map (·.base.start)).foldl min
        (b + (p.buffer.start - t)) =
      b + ((gatherFirst p pending unstaged).2.2.range.start - t) := by
  obtain ⟨takenP, takenU, h1, h2, h3, h4, -, hcl, h6, h7, ha⟩ := gatherFirst_spec h
  generalize gatherFirst p pending unstaged = r at *
  obtain ⟨pending', unstaged', g⟩ := r
  simp only at *
  obtain ⟨x, hx, hxs⟩ := exists_start_eq hcl
  simp only [Group.items, h1, h2, mem_append, mem_map] at hx
  have hp : g.range.start ≤ p.buffer.start :=
    (hcl.within p.toHunk.interval (by simp [Group.items, h1])).1
  have hpx : ∀ q ∈ p :: takenP, p.buffer.start ≤ q.buffer.start := by
    intro q hq
    rcases List.mem_cons.mp hq with rfl | hq
    · exact le_rfl
    · refine rel_of_pairwise_cons h.pending_sorted ?_
      rw [h3]
      exact mem_append_left _ hq
  cases takenU with
  | nil =>
    have hstart : g.range.start = p.buffer.start := by
      rcases hx with ⟨q, hq, rfl⟩ | ⟨v, hv, -⟩
      · exact le_antisymm hp (hxs ▸ hpx q hq)
      · simp at hv
    rw [h2, h4, hstart]
    refine ⟨toBaseStart_before fun u hu => ?_, rfl⟩
    have := h6 u (mem_of_mem_head? hu)
    have := hcl.le
    omega
  | cons u takenU =>
    rw [h4] at he
    have hu : g.range.start ≤ u.buffer.start :=
      (hcl.within u.interval (by simp [Group.items, h2])).1
    have hux : ∀ v ∈ takenU, u.buffer.stop < v.buffer.start ∧ u.base.stop ≤ v.base.start :=
      fun v hv => rel_of_pairwise_cons he.sorted.2 (mem_append_left _ hv)
    have hbs := he.1.base_start
    have hule := he.1.buffer_le
    have hubl := he.1.base_le
    have hstart : g.range.start = min p.buffer.start u.buffer.start := by
      refine le_antisymm (le_min hp hu) ?_
      rcases hx with ⟨q, hq, rfl⟩ | ⟨v, hv, rfl⟩
      · exact (min_le_left ..).trans (hxs ▸ hpx q hq)
      · refine (min_le_right ..).trans (hxs ▸ ?_)
        rcases List.mem_cons.mp hv with rfl | hv
        · exact le_rfl
        · have := (hux v hv).1
          simp only [Hunk.interval]
          omega
    constructor
    · rw [h4, cons_append, toBaseStart]
      split
      · rfl
      · rw [if_pos (.inl (by omega))]
        omega
    · rw [h2, map_cons, foldl_cons, foldl_min_eq]
      · omega
      · intro y hy
        obtain ⟨v, hv, rfl⟩ := List.mem_map.mp hy
        have := (hux v hv).2
        omega

/-- The unstaged hunks up to the end of the first group. -/
def passed (p : PendingHunk) (pending : List PendingHunk) (unstaged : List Hunk) : List Hunk :=
  skipped p unstaged ++ (gatherFirst p pending unstaged).2.2.unstaged

section

variable (h : Ahead (p :: pending) unstaged)
include h

theorem passed_split :
    unstaged = passed p pending unstaged ++ (gatherFirst p pending unstaged).2.1 := by
  obtain ⟨takenP, takenU, -, h2, -, h4, -⟩ := gatherFirst_spec h
  have := reached_split p unstaged
  rw [h4] at this
  rw [passed, h2, append_assoc]
  exact this

theorem passed_stop_le {u : Hunk} (hu : u ∈ passed p pending unstaged) :
    u.buffer.stop ≤ (gatherFirst p pending unstaged).2.2.range.stop := by
  obtain ⟨takenP, takenU, -, -, -, -, -, hcl, -⟩ := gatherFirst_spec h
  rcases List.mem_append.mp hu with hu | hu
  · exact (skipped_lt_start h hu).le.trans hcl.le
  · exact (hcl.within u.interval (mem_append_right _ (mem_map_of_mem hu))).2

theorem firstGroup_index (he : ExactFrom index buffer b t unstaged) (ht : t ≤ p.buffer.start) :
    ((gatherFirst p pending unstaged).2.2.unstaged.map (·.base.start)).foldl min
        ((endsOf b t (skipped p unstaged)).1 +
          (p.buffer.start - (endsOf b t (skipped p unstaged)).2)) =
      toBaseStart b t unstaged (gatherFirst p pending unstaged).2.2.range.start ∧
    (endsOf b t (passed p pending unstaged)).1 + ((gatherFirst p pending unstaged).2.2.range.stop -
          (endsOf b t (passed p pending unstaged)).2) =
      toBaseEnd b t unstaged (gatherFirst p pending unstaged).2.2.range.stop := by
  have hsplit := reached_split p unstaged
  have he1 := he
  rw [hsplit] at he1
  constructor
  · have hpt : (endsOf b t (skipped p unstaged)).2 ≤
        p.buffer.start := endsOf_snd_le (fun u hu => (stop_lt_of_mem_skipped hu).le) ht
    obtain ⟨hs1, hs2⟩ := indexStart_eq h he1.drop hpt
    have hskip := toBaseStart_skip he1 fun u hu => skipped_lt_start h hu
    rw [← hsplit] at hskip
    rw [hs2, hskip, hs1]
  · obtain ⟨-, -, -, -, -, -, -, -, h6, -⟩ := gatherFirst_spec h
    have hpassed := passed_split h
    have he2 := he
    rw [hpassed] at he2
    have := toBaseEnd_taken he2 (fun u hu => passed_stop_le h hu) h6
    rw [← hpassed] at this
    exact this.symm

end

theorem Group.stop_le (hcl : Cluster g.first.toHunk.interval g.items g.range.start g.range.stop)
    (hp : ∀ q ∈ g.pending, q.buffer.stop ≤ n) (hu : ∀ u ∈ g.unstaged, u.buffer.stop ≤ n) :
    g.range.stop ≤ n := by
  obtain ⟨x, hx, -, hle⟩ := hcl.covers g.range.stop hcl.le le_rfl
  refine hle.trans ?_
  simp only [Group.items, mem_append, mem_map] at hx
  rcases hx with ⟨q, hq, rfl⟩ | ⟨v, hv, rfl⟩
  · exact hp q hq
  · exact hu v hv

end

/-- One round of the second loop, when the subtraction does not go below zero. -/
theorem computeEdits_cons {head index buffer : Bytes} {fuel b t : Nat} {p : PendingHunk}
    {pending : List PendingHunk} {unstaged : List Hunk}
    (h : (endsOf b t (skipped p unstaged)).2 ≤ p.buffer.start) :
    computeEdits head index buffer (fuel + 1) (p :: pending) unstaged t b =
      let e := endsOf b t (skipped p unstaged)
      let r := mergeHunks pending (reached p unstaged)
        ⟨p.buffer, e.1 + (p.buffer.start - e.2), e.2, e.1⟩
      let indexEnd := min (r.2.2.prevBaseEnd + (r.2.2.range.stop - r.2.2.prevBufferEnd)) index.length
      (computeEdits head index buffer fuel r.1 r.2.1 r.2.2.prevBufferEnd r.2.2.prevBaseEnd).bind
        fun edits =>
          match replacementText head buffer r.2.2.range p.base p.newStatus with
          | some text => some ((⟨min r.2.2.indexStart indexEnd, indexEnd⟩, text) :: edits)
          | none => some edits := by
  have hlast := endsOf_getLast b t (skipped p unstaged)
  simp only [Prod.ext_iff] at hlast
  rw [hlast.2] at h
  rw [computeEdits]
  simp only [hlast.1, hlast.2]
  simp only [skipped] at h ⊢
  rw [if_pos h]
  rfl

/-- The second loop makes an edit for every group: it replaces the range of the index that
corresponds to the group. -/
theorem computeEdits_eq {head index buffer : Bytes} : ∀ {fuel b t : Nat}
    {pending : List PendingHunk} {unstaged : List Hunk},
    pending.length ≤ fuel → Ahead pending unstaged → ExactFrom index buffer b t unstaged →
    b ≤ index.length → t ≤ buffer.length →
    (∀ p ∈ pending, t ≤ p.buffer.start ∧ p.buffer.stop ≤ buffer.length ∧ IsPending p.newStatus) →
    computeEdits head index buffer fuel pending unstaged t b =
      some ((groupsFrom fuel pending unstaged).map fun g =>
        (⟨toBaseStart b t unstaged g.range.start, toBaseEnd b t unstaged g.range.stop⟩,
          groupText head buffer g))
  | 0, _, _, _, _, _, _, _, _, _, _ => rfl
  | fuel + 1, _, _, [], _, _, _, _, _, _, _ => rfl
  | fuel + 1, b, t, p :: pending, unstaged, hf, h, he, hb, ht, hp => by
      obtain ⟨hpt, hpl, hps⟩ := hp p (mem_cons_self ..)
      obtain ⟨takenP, takenU, h1, -, h3, -, h5, hcl, h6, h7, ha⟩ := gatherFirst_spec h
      obtain ⟨hi1, hi2⟩ := firstGroup_index h he hpt
      have hsplit := passed_split h
      have hstop := fun u hu => @passed_stop_le _ _ _ h u hu
      have hsub : ∀ u ∈ (gatherFirst p pending unstaged).2.2.unstaged, u ∈ unstaged := by
        intro u hu
        rw [hsplit]
        exact mem_append_left _ (mem_append_right _ hu)
      have hends : endsOf b t (passed p pending unstaged) =
          endsOf _ _ (gatherFirst p pending unstaged).2.2.unstaged := endsOf_append b t _ _
      rw [computeEdits_cons (endsOf_snd_le (fun u hu => (stop_lt_of_mem_skipped hu).le) hpt),
        groupsFrom]
      -- merging does what gathering does
      have hm0 : Tracks (endsOf b t (skipped p unstaged)).1 (endsOf b t (skipped p unstaged)).2
          ((endsOf b t (skipped p unstaged)).1 +
            (p.buffer.start - (endsOf b t (skipped p unstaged)).2))
          ⟨p.buffer, (endsOf b t (skipped p unstaged)).1 +
            (p.buffer.start - (endsOf b t (skipped p unstaged)).2),
            (endsOf b t (skipped p unstaged)).2, (endsOf b t (skipped p unstaged)).1⟩
          (.single p) := ⟨rfl, rfl, rfl⟩
      obtain ⟨hm1, hm2, hm3⟩ := @mergeHunks_tracks _ _ _ pending (reached p unstaged) _ _ hm0
      change _ = (gatherFirst p pending unstaged).1 at hm1
      change _ = (gatherFirst p pending unstaged).2.1 at hm2
      change Tracks _ _ _ _ (gatherFirst p pending unstaged).2.2 at hm3
      have hm4 := hm3.indexStart
      rw [hi1] at hm4
      have hm5 := hm3.ends
      rw [← hends, Prod.ext_iff] at hm5
      simp only at hm5
      simp only [hm1, hm2, hm3.range, hm4, hm5.1, hm5.2, hi2]
      generalize passed p pending unstaged = gone at *
      generalize gatherFirst p pending unstaged = r at *
      obtain ⟨pending', unstaged', g⟩ := r
      have hsubp : ∀ q ∈ g.pending, q ∈ p :: pending := by
        intro q hq
        rw [h3, ← cons_append, ← h1]
        exact mem_append_left _ hq
      have hts : t ≤ g.range.start := by
        obtain ⟨x, hx, hxs⟩ := exists_start_eq hcl
        rw [← hxs]
        simp only [Group.items, mem_append, mem_map] at hx
        rcases hx with ⟨q, hq, rfl⟩ | ⟨v, hv, rfl⟩
        · exact (hp q (hsubp q hq)).1
        · exact (he.sorted.1 v (hsub v hv)).2
      have hgl : g.range.stop ≤ buffer.length :=
        Group.stop_le hcl (fun q hq => (hp q (hsubp q hq)).2.1)
          fun u hu => (he.valid u (hsub u hu)).2.2.1
      have hle := toBaseEnd_le he hb ht (hts.trans hcl.le) hgl
      have hse : toBaseStart b t unstaged g.range.start ≤ toBaseEnd b t unstaged g.range.stop :=
        (toBaseStart_le_toBaseEnd he _).trans (toBaseEnd_mono he _ _ hts hcl.le).2
      rw [min_eq_left hle, min_eq_left hse]
      -- the rest of the loop, from the end of the last hunk that was passed
      have he2 := he
      rw [hsplit] at he2
      have hlen : pending'.length ≤ fuel := by
        have := congrArg List.length h3
        simp only [length_append] at this
        simp only [length_cons] at hf
        omega
      have hbt := he2.endsOf_le hb ht
      have ht2 : (endsOf b t gone).2 ≤ g.range.stop := endsOf_snd_le hstop (hts.trans hcl.le)
      rw [computeEdits_eq hlen ha he2.drop hbt.1 hbt.2 fun q hq => ⟨?_, (hp q ?_).2⟩]
      · have hnext := (groupsFrom_swept hlen ha).behind g.range.stop h7 h6
        have hrest : ∀ g' ∈ groupsFrom fuel pending' unstaged',
            toBaseStart b t unstaged g'.range.start =
              toBaseStart (endsOf b t gone).1 (endsOf b t gone).2 unstaged' g'.range.start ∧
            toBaseEnd b t unstaged g'.range.stop =
              toBaseEnd (endsOf b t gone).1 (endsOf b t gone).2 unstaged' g'.range.stop := by
          intro g' hg'
          have hlt := hnext g' hg'
          have hle' := ((groupsFrom_swept hlen ha).cluster g' hg').le
          have hs := toBaseStart_skip he2 fun u hu => lt_of_le_of_lt (hstop u hu) hlt
          have he := toBaseEnd_skip he2
            fun u hu => lt_of_le_of_lt (hstop u hu) (lt_of_lt_of_le hlt hle')
          rw [← hsplit] at hs he
          exact ⟨hs, he⟩
        have hmatch : replacementText head buffer g.range p.base p.newStatus =
            some (groupText head buffer g) := by
          rw [← h5] at hps ⊢
          exact replacementText_eq hps
        rw [Option.bind_some, hmatch]
        simp only [map_cons, Option.some.injEq, List.cons.injEq, true_and]
        exact map_congr_left fun g' hg' => by rw [(hrest g' hg').1, (hrest g' hg').2]
      · exact ht2.trans (h7 q hq).le
      · rw [h3]
        exact mem_cons_of_mem _ (mem_append_right _ hq)

end SpkEditor.Staging
