import SpkEditor.Diff.StagingProof

/-!
# When the right bytes are staged

Staging is right if every group of pending hunks is replaced as a whole: by the text of the buffer
when it is staged, by the text of the head when it is unstaged. The source takes the head text of
the first hunk of a group only, and passes over a hunk that looks unstaged without comparing the
index with the head. `staging_right_iff` says that nothing else is wrong.
-/

namespace SpkEditor.Staging

open Cover List

def Group.AllStaged (g : Group) : Prop :=
  ∀ p ∈ g.pending, p.newStatus = .secondaryHunkRemovalPending

def Group.AllUnstaged (g : Group) : Prop :=
  ∀ p ∈ g.pending, p.newStatus = .secondaryHunkAdditionPending

section

variable (head index buffer : Bytes) (hunks unstaged : List Hunk)

def Replaced (g : Group) (text : Bytes) : Prop :=
  (g.AllStaged → text = textIn buffer g.range) ∧
    (g.AllUnstaged → text = textIn head (toBaseRange hunks g.range))

/-- Where the buffer and the head differ, the index gets the text of the one or of the other: the
hunk is part of a group that is staged or unstaged, or the text is there already and is kept. -/
def SettledAt (groups : List Group) (stage : Bool) (h : Hunk) : Prop :=
  (∃ g ∈ groups, (∃ p ∈ g.pending, p.toHunk = h) ∧ ∀ p ∈ g.pending, p.newStatus = newStatusOf stage) ∨
    ((∀ g ∈ groups, g.range.stop < h.buffer.start ∨ h.buffer.stop < g.range.start) ∧
      textIn index (toBaseRange unstaged h.buffer) =
        if stage then textIn buffer h.buffer else textIn head h.base)

/-- A call returns, with edits that are sorted and apart, one for each maximal group of pending
hunks that hang together; and if all hunks were asked for, every one of them is settled. -/
def StagesRight (pending : List PendingHunk) (stage : Bool) (requests : List DiffHunk)
    (fileExists : Bool) : Prop :=
  let pending' := mergeRequests stage requests pending
  let groups := groupsOf pending' unstaged
  ∃ edits newIndex,
    computeEdits head index buffer pending'.length pending' unstaged 0 0 = some edits ∧
    applyEdits index 0 edits = some newIndex ∧
    stageOrUnstageHunksImpl (some head) (some index) buffer unstaged pending stage requests
      fileExists = some (some newIndex, pending') ∧
    Grouping pending' unstaged groups ∧
    (edits.Pairwise fun e e' => e.1.stop < e'.1.start) ∧
    List.Forall₂ (fun g e => e.1 = toBaseRange unstaged g.range ∧ Replaced head buffer hunks g e.2)
      groups edits ∧
    (requests = hunksWithStatus buffer pending unstaged hunks →
      ∀ h ∈ hunks, SettledAt head index buffer unstaged groups stage h)

/-- Every group that is unstaged corresponds to the head range of its first hunk; and if all hunks
are unstaged, the index has the text of the head wherever a hunk looks unstaged. -/
def StagingCondition (pending : List PendingHunk) (stage : Bool) (requests : List DiffHunk) :
    Prop :=
  (∀ g ∈ groupsOf (mergeRequests stage requests pending) unstaged, g.AllUnstaged →
    toBaseRange hunks g.range = g.first.base) ∧
  (stage = false → requests = hunksWithStatus buffer pending unstaged hunks →
    ∀ r ∈ requests, r.secondaryStatus = .hasSecondaryHunk →
      textIn index (toBaseRange unstaged r.buffer) = textIn head r.base)

end

variable {head index buffer : Bytes} {hunks unstaged : List Hunk} {pending : List PendingHunk}
  {stage : Bool} {requests : List DiffHunk} {fileExists : Bool}

section

variable (hd : ExactDiff head buffer hunks) (hu : ExactDiff index buffer unstaged)
include hd hu

/-- The first hunk of a group that is unstaged is one of the diff, and its head text is part of
what corresponds to the group. -/
theorem headRange_of_unstaging (hp : FromDiff hunks pending ∨ Whole buffer pending) {g : Group}
    (hsw : Swept pending unstaged (groupsOf pending unstaged))
    (hg : g ∈ groupsOf pending unstaged) (hun : g.AllUnstaged) :
    textIn head g.first.base = textIn head (toBaseRange hunks g.range) ↔
      toBaseRange hunks g.range = g.first.base := by
  have hmem : ∀ p ∈ g.pending, p ∈ pending := fun p hm => by
    rw [← hsw.partition]
    exact List.mem_flatMap.mpr ⟨g, hg, hm⟩
  have hfm : g.first ∈ g.pending := mem_cons_self ..
  have hst := hun g.first hfm
  -- the hunk for the whole file is never unstaged
  have hf : g.first.toHunk ∈ hunks := by
    rcases hp with hp | ⟨q, rfl, -, hq⟩
    · exact (hp.mem g.first (hmem _ hfm)).1
    · rw [List.mem_singleton.mp (hmem _ hfm), hq] at hst
      cases hst
  have hcl := hsw.cluster g hg
  have hin := hcl.within g.first.toHunk.interval hcl.mem
  have hbase := toBaseRange_hunk hd.exact hf
  have h1 := (toBaseStart_mono hd.exact g.range.start g.first.buffer.start (Nat.zero_le _) hin.1).2
  have h2 := (toBaseEnd_mono hd.exact g.first.buffer.stop g.range.stop (Nat.zero_le _) hin.2).2
  have hstop : g.range.stop ≤ buffer.length :=
    Group.stop_le hcl (fun p hm => (pending_valid hd hp p (hmem p hm)).2.1)
      fun u hm => (hu.exact.valid u (hsw.drawn g hg u hm)).2.2.1
  have hlen := toBaseEnd_le hd.exact (Nat.zero_le _) (Nat.zero_le _) (Nat.zero_le _) hstop
  have hvalid := (hd.exact.valid _ hf).2
  have hb1 : toBaseStart 0 0 hunks g.first.buffer.start = g.first.base.start :=
    congrArg Range.start hbase
  have hb2 : toBaseEnd 0 0 hunks g.first.buffer.stop = g.first.base.stop :=
    congrArg Range.stop hbase
  constructor
  · intro heq
    have hlens := congrArg List.length heq
    rw [textIn_length hvalid.2.2.1, textIn_length hlen] at hlens
    simp only [toBaseRange] at hlens ⊢
    cases hfb : g.first.base
    simp only [hfb] at *
    rw [Range.mk.injEq]
    omega
  · intro heq
    rw [heq]

theorem settled_side (hp : ∀ p ∈ pending, IsPending p.newStatus) {r : DiffHunk}
    (hall : requests = hunksWithStatus buffer pending unstaged hunks) (hm : r ∈ requests)
    (hset : isSettled stage r.secondaryStatus = true) {groups : List Group}
    (hsw : Swept (pushedHunks stage requests) unstaged groups) :
    (∀ g ∈ groups, g.range.stop < r.buffer.start ∨ r.buffer.stop < g.range.start) ∧
      (stage = true → ∀ u ∈ unstaged,
        u.buffer.stop < r.buffer.start ∨ r.buffer.stop < u.buffer.start) := by
  have hmem : r.toHunk ∈ hunks := by
    rw [← (requests_of_all hd hall).1]
    exact List.mem_map_of_mem hm
  obtain ⟨hle, -, hstop, -⟩ := hd.exact.valid r.toHunk hmem
  have hpush := settled_apart hd hall hm hset
  have hsort := hd.exact.sorted.2.imp_of_mem fun {h h'} hm _ hlt =>
    (((hd.exact.valid h hm).1.trans hlt.1.le : h.buffer.start ≤ h'.buffer.start))
  have hstatus : r.secondaryStatus = secondaryStatusOf buffer r.toHunk
      (unstaged.dropWhile fun u => u.buffer.stop < r.buffer.start).head? := by
    refine (hunksWithStatus_status hd.stops hsort hp r (hall ▸ hm)).resolve_left fun hpend => ?_
    rcases hpend with hpend | hpend <;> cases stage <;> simp [isSettled, hpend] at hset
  have hpend : ∀ g ∈ groups, ∀ p ∈ g.pending, p ∈ pushedHunks stage requests :=
    fun g hg p hp => by
      rw [← hsw.partition]
      exact List.mem_flatMap.mpr ⟨g, hg, hp⟩
  cases stage with
  | true =>
    have hst : r.secondaryStatus = .noSecondaryHunk := by simpa [isSettled] using hset
    have hun := untouched_of_noSecondaryHunk hu (hstatus.symm.trans hst)
    refine ⟨fun g hg => ?_, fun _ => hun⟩
    refine (hsw.cluster g hg).side (y := r.toHunk.interval) hle fun x hx ht => ?_
    simp only [Group.items, mem_append, List.mem_map] at hx
    have h1 : x.1 ≤ r.buffer.stop := ht.1
    have h2 : r.buffer.start ≤ x.2 := ht.2
    rcases hx with ⟨p, hp, rfl⟩ | ⟨u, hu', rfl⟩
    · have := hpush p (hpend g hg p hp)
      simp only [Hunk.interval] at h1 h2
      omega
    · have := hun u (hsw.drawn g hg u hu')
      simp only [Hunk.interval] at h1 h2
      omega
  | false =>
    have hst : r.secondaryStatus = .hasSecondaryHunk := by simpa [isSettled] using hset
    obtain ⟨u, hum, hub⟩ := same_of_hasSecondaryHunk hu hstop hle (hstatus.symm.trans hst)
    refine ⟨fun g hg => ?_, fun h => by cases h⟩
    have hnp : ∀ p ∈ g.pending, ¬ Touches p.toHunk.interval r.toHunk.interval := by
      intro p hp ht
      have h1 : p.buffer.start ≤ r.buffer.stop := ht.1
      have h2 : r.buffer.start ≤ p.buffer.stop := ht.2
      have := hpush p (hpend g hg p hp)
      omega
    refine (hsw.cluster g hg).side (y := r.toHunk.interval) hle fun x hx ht => ?_
    -- the way into the unstaged hunk with this range leads through something that touches it
    obtain ⟨a, ha, b, hb, hna, htb, hab⟩ := ((hsw.cluster g hg).chained x hx).leaves
      (P := fun y => ¬ Touches y r.toHunk.interval) (hnp g.first (mem_cons_self ..))
      (not_not.mpr ht)
    rw [not_not] at htb
    simp only [Group.items, mem_append, List.mem_map] at hb
    rcases hb with ⟨p, hp, rfl⟩ | ⟨v, hv, rfl⟩
    · exact hnp p hp htb
    · have h1 : v.buffer.start ≤ r.buffer.stop := htb.1
      have h2 : r.buffer.start ≤ v.buffer.stop := htb.2
      rw [← hub] at h1 h2
      have heq : v = u := by
        refine (hu.exact.apart (hsw.drawn g hg v hv) hum).resolve_right fun h => ?_
        omega
      rw [heq, Hunk.interval, hub] at hab
      exact hna hab

/-- Every hunk is settled when all hunks are asked for, but for the text of those that look
unstaged. -/
theorem settledAt_of_all (hp : FromDiff hunks pending ∨ Whole buffer pending) (hr : Requests hunks requests)
    (hall : requests = hunksWithStatus buffer pending unstaged hunks)
    (hsw : Swept (mergeRequests stage requests pending) unstaged
      (groupsOf (mergeRequests stage requests pending) unstaged)) :
    (∀ h ∈ hunks, SettledAt head index buffer unstaged
      (groupsOf (mergeRequests stage requests pending) unstaged) stage h) ↔
    (stage = false → ∀ r ∈ requests, r.secondaryStatus = .hasSecondaryHunk →
      textIn index (toBaseRange unstaged r.buffer) = textIn head r.base) := by
  by_cases hne : hunks = []
  · have hnil : requests = [] := by
      have := (requests_of_all hd hall).1
      rw [hne] at this
      exact List.map_eq_nil_iff.mp this
    simp [hne, hnil]
  have hmerge : mergeRequests stage requests pending = pushedHunks stage requests :=
    merge_of_all hd hp hr hall hne
  have hmap := (requests_of_all hd hall).1
  rw [hmerge] at hsw ⊢
  have hpend : ∀ p ∈ pending, IsPending p.newStatus := fun p hm => (pending_valid hd hp p hm).2.2
  have hside := fun r hm hset =>
    @settled_side head index buffer hunks unstaged pending stage requests hd hu hpend r hall hm hset
      _ hsw
  constructor
  · rintro hset rfl r hm hst
    have hs : isSettled false r.secondaryStatus = true := by simp [isSettled, hst]
    have hmem : r.toHunk ∈ hunks := hr.mem r hm
    rcases hset r.toHunk hmem with ⟨g, hg, ⟨p, hpm, hpe⟩, -⟩ | ⟨-, htext⟩
    · have hp' : p ∈ pushedHunks false requests := by
        rw [← hsw.partition]
        exact List.mem_flatMap.mpr ⟨g, hg, hpm⟩
      have := settled_apart hd hall hm hs p hp'
      have hle := (hd.exact.valid r.toHunk hmem).1
      rw [hpe] at this
      omega
    · simpa using htext
  · intro htext h hm
    rw [← hmap, List.mem_map] at hm
    obtain ⟨r, hrm, rfl⟩ := hm
    by_cases hset : isSettled stage r.secondaryStatus = true
    · obtain ⟨hs1, hs2⟩ := hside r hrm hset
      refine .inr ⟨hs1, ?_⟩
      cases stage with
      | true =>
        obtain ⟨hle, -, hstop, -⟩ := hd.exact.valid r.toHunk (hr.mem r hrm)
        exact textIn_toBaseRange hu.exact (Nat.zero_le _) (Nat.zero_le _) (Nat.zero_le _) hle hstop
          (hs2 rfl)
      | false => exact htext rfl r hrm (by simpa [isSettled] using hset)
    · have hp' : (⟨r.toHunk, newStatusOf stage⟩ : PendingHunk) ∈ pushedHunks stage requests :=
        List.mem_map.mpr ⟨r, List.mem_filter.mpr ⟨hrm, by simpa using hset⟩, rfl⟩
      have hall' : ∀ p ∈ pushedHunks stage requests, p.newStatus = newStatusOf stage := by
        intro p hpm
        obtain ⟨r', -, rfl⟩ := List.mem_map.mp hpm
        rfl
      rw [← hsw.partition, mem_flatMap] at hp'
      obtain ⟨g, hg, hpm⟩ := hp'
      refine .inl ⟨g, hg, ⟨_, hpm, rfl⟩, fun p hp => hall' p ?_⟩
      rw [← hsw.partition]
      exact List.mem_flatMap.mpr ⟨g, hg, hp⟩

end

/-- The right bytes are written to the index if and only if the groups that are unstaged reach no
further into the head than their first hunks, and no hunk only looks unstaged. -/
theorem staging_right_iff (head index buffer : Bytes) (hunks unstaged : List Hunk)
    (hd : ExactDiff head buffer hunks) (hu : ExactDiff index buffer unstaged)
    (pending : List PendingHunk) (hl : Left head index buffer hunks unstaged pending)
    (stage : Bool) (requests : List DiffHunk) (hr : Requests hunks requests)
    (fileExists : Bool) (hf : (fileExists || !stage) = true) :
    StagesRight head index buffer hunks unstaged pending stage requests fileExists ↔
      StagingCondition head index buffer hunks unstaged pending stage requests := by
  have hp := hl.fromDiff hd
  obtain ⟨newIndex, hedits, happly, hcall, hsw⟩ := stage_call hd hu hp hr hf
  have hp' : FromDiff hunks (mergeRequests stage requests pending) ∨
      Whole buffer (mergeRequests stage requests pending) := pending_of_merge hd hp hr
  -- what the source replaces a group with
  have htext : ∀ g ∈ groupsOf (mergeRequests stage requests pending) unstaged,
      Replaced head buffer hunks g (groupText head buffer g) ↔
        (g.AllUnstaged → toBaseRange hunks g.range = g.first.base) := by
    intro g hg
    have hfm : g.first ∈ g.pending := mem_cons_self ..
    constructor
    · intro h hun
      refine (headRange_of_unstaging hd hu hp' hsw hg hun).mp ?_
      have := h.2 hun
      rwa [groupText, if_neg (by simp [hun g.first hfm])] at this
    · refine fun h => ⟨fun hst => by rw [groupText, if_pos (hst g.first hfm)], fun hun => ?_⟩
      rw [groupText, if_neg (by simp [hun g.first hfm])]
      exact (headRange_of_unstaging hd hu hp' hsw hg hun).mpr (h hun)
  constructor
  · rintro ⟨edits, _, hedits', -, -, -, -, hall, hset⟩
    obtain rfl := Option.some.inj (hedits.symm.trans hedits')
    rw [forall₂_map_right_iff, forall₂_same] at hall
    refine ⟨fun g hg => (htext g hg).mp (hall g hg).2, fun hst hreq => ?_⟩
    exact (settledAt_of_all hd hu hp hr hreq hsw).mp (hset hreq) hst
  · rintro ⟨hgroups, hhas⟩
    refine ⟨_, newIndex, hedits, happly, hcall, hsw.grouping, groupEdits_sorted hu hsw, ?_, ?_⟩
    · rw [forall₂_map_right_iff, forall₂_same]
      exact fun g hg => ⟨rfl, (htext g hg).mpr (hgroups g hg)⟩
    · exact fun hreq => (settledAt_of_all hd hu hp hr hreq hsw).mpr fun hst => hhas hst hreq

/-! Two hunks that one unstaged hunk connects. -/

/-- `1`, `2` and `3`, each on a line. -/
def threeHead : Bytes := [49, 10, 50, 10, 51, 10]

/-- The first and the last line changed. -/
def threeBuffer : Bytes := [65, 10, 50, 10, 67, 10]

def threeIndex : Bytes := [120, 10, 121, 10, 122, 10]

def threeHunks : List Hunk := [⟨⟨0, 2⟩, ⟨0, 2⟩⟩, ⟨⟨4, 6⟩, ⟨4, 6⟩⟩]

def threeUnstaged : List Hunk := [⟨⟨0, 6⟩, ⟨0, 6⟩⟩]

def threeRequests : List DiffHunk :=
  threeHunks.map fun h => ⟨h, .overlapsWithSecondaryHunk⟩

theorem three_exact : ExactDiff threeHead threeBuffer threeHunks :=
  ⟨by decide, by decide, by decide⟩

theorem three_unstaged_exact : ExactDiff threeIndex threeBuffer threeUnstaged :=
  ⟨by decide, by decide, by decide⟩

theorem three_requests : Requests threeHunks threeRequests := ⟨by decide, by decide⟩

/-- When both are staged, the text of the buffer is written. -/
theorem staging_right_iff_three :
    StagesRight threeHead threeIndex threeBuffer threeHunks threeUnstaged [] true threeRequests
      true ↔
    StagingCondition threeHead threeIndex threeBuffer threeHunks threeUnstaged [] true
      threeRequests :=
  staging_right_iff threeHead threeIndex threeBuffer threeHunks threeUnstaged three_exact
    three_unstaged_exact [] .start true threeRequests three_requests true rfl

/-- When both are unstaged, only the first line of the head is written, and the other two are
lost. -/
theorem staging_wrong :
    threeRequests = hunksWithStatus threeBuffer [] threeUnstaged threeHunks ∧
    (stageOrUnstageHunksImpl (some threeHead) (some threeIndex) threeBuffer threeUnstaged [] false
      threeRequests true).map Prod.fst = some (some [49, 10]) ∧
    ¬ StagesRight threeHead threeIndex threeBuffer threeHunks threeUnstaged [] false threeRequests
      true := by
  refine ⟨by decide, by decide, ?_⟩
  rintro ⟨edits, newIndex, hedits, -, -, -, -, hall, -⟩
  have hgroups : groupsOf (mergeRequests false threeRequests []) threeUnstaged =
      [⟨⟨⟨⟨0, 2⟩, ⟨0, 2⟩⟩, .secondaryHunkAdditionPending⟩,
        [⟨⟨⟨4, 6⟩, ⟨4, 6⟩⟩, .secondaryHunkAdditionPending⟩], threeUnstaged, ⟨0, 6⟩⟩] := rfl
  have hvalue : computeEdits threeHead threeIndex threeBuffer
      (mergeRequests false threeRequests []).length (mergeRequests false threeRequests [])
      threeUnstaged 0 0 = some [(⟨0, 6⟩, [49, 10])] := by decide
  obtain rfl := Option.some.inj (hvalue.symm.trans hedits)
  rw [hgroups, forall₂_cons] at hall
  have := hall.1.2.2 (by
    intro p hp
    simp only [Group.pending, mem_cons, not_mem_nil, or_false] at hp
    rcases hp with rfl | rfl <;> rfl)
  exact absurd this (by decide)

end SpkEditor.Staging
