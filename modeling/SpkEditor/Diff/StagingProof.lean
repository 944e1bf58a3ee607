import SpkEditor.Diff.StagingStatus

/-!
# What is written to the index

The hunks that are asked for become pending, and their groups one edit of the index each (`stage_call`).
-/

namespace SpkEditor.Staging

open Cover List

/-! ## The pending hunks -/

/-- Hunks of a diff that are asked for, in their order. -/
structure Requests (hunks : List Hunk) (requests : List DiffHunk) : Prop where
  sorted : requests.Pairwise fun r r' => r.buffer.start ≤ r'.buffer.start
  mem : ∀ r ∈ requests, r.toHunk ∈ hunks

inductive Left (head index buffer : Bytes) (hunks unstaged : List Hunk) : List PendingHunk → Prop
  | start : Left head index buffer hunks unstaged []
  | call {pending : List PendingHunk} {stage fileExists : Bool} {requests : List DiffHunk}
      {newIndex : Option Bytes} {pending' : List PendingHunk} :
      Left head index buffer hunks unstaged pending → Requests hunks requests →
      stageOrUnstageHunksImpl (some head) (some index) buffer unstaged pending stage requests
        fileExists = some (newIndex, pending') →
      Left head index buffer hunks unstaged pending'

structure FromDiff (hunks : List Hunk) (pending : List PendingHunk) : Prop where
  sorted : pending.Pairwise fun p q => p.buffer.start ≤ q.buffer.start
  mem : ∀ p ∈ pending, p.toHunk ∈ hunks ∧ IsPending p.newStatus

/-- Or there is only the one for a file that was deleted. -/
def Whole (buffer : Bytes) (pending : List PendingHunk) : Prop :=
  ∃ p, pending = [p] ∧ p.buffer = ⟨0, buffer.length⟩ ∧ p.newStatus = .secondaryHunkRemovalPending

theorem isPending_newStatusOf (stage : Bool) : IsPending (newStatusOf stage) := by
  cases stage
  · exact .inr rfl
  · exact .inl rfl

theorem mem_mergeRequests (stage : Bool) : ∀ {requests : List DiffHunk} {old : List PendingHunk}
    {p : PendingHunk}, p ∈ mergeRequests stage requests old →
    p ∈ old ∨ ∃ r ∈ requests, p = ⟨r.toHunk, newStatusOf stage⟩
  | [], _, _, h => .inl h
  | r :: requests, old, p, h => by
      simp only [mergeRequests, mem_append] at h
      rcases h with h | h | h
      · exact .inl (takeWhile_subset _ h)
      · split at h
        · simp at h
        · exact .inr ⟨r, mem_cons_self .., List.mem_singleton.mp h⟩
      · rcases mem_mergeRequests stage h with h | ⟨r', hr', rfl⟩
        · exact .inl (dropWhile_subset _ (dropWhile_subset _ h))
        · exact .inr ⟨r', mem_cons_of_mem _ hr', rfl⟩

theorem lt_of_mem_dropWhile {old : List PendingHunk}
    (hs : old.Pairwise fun p q => p.buffer.start ≤ q.buffer.start) (n : Nat) {p : PendingHunk}
    (hp : p ∈ old.dropWhile fun p => p.buffer.start ≤ n) : n < p.buffer.start := by
  refine lt_start_of_head_pending (hs.sublist (dropWhile_sublist _)) (fun q hq => ?_) p hp
  have := List.head?_dropWhile_not (fun p : PendingHunk => decide (p.buffer.start ≤ n)) old
  rw [hq] at this
  simpa using this

theorem mergeRequests_sorted (stage : Bool) : ∀ {requests : List DiffHunk}
    {old : List PendingHunk}, (old.Pairwise fun p q => p.buffer.start ≤ q.buffer.start) →
    (∀ p ∈ old, p.buffer.start ≤ p.buffer.stop) →
    (requests.Pairwise fun r r' => r.buffer.start ≤ r'.buffer.start) →
    (∀ r ∈ requests, r.buffer.start ≤ r.buffer.stop) →
    (mergeRequests stage requests old).Pairwise fun p q => p.buffer.start ≤ q.buffer.start
  | [], _, hs, _, _, _ => hs
  | r :: requests, old, hs, hv, hrs, hrv => by
      have hsd : (old.dropWhile fun p => p.buffer.stop < r.buffer.start).Pairwise
          fun p q => p.buffer.start ≤ q.buffer.start := hs.sublist (dropWhile_sublist _)
      have hrest := mergeRequests_sorted stage
        (hsd.sublist (dropWhile_sublist fun p => p.buffer.start ≤ r.buffer.stop))
        (fun p hp => hv p (dropWhile_subset _ (dropWhile_subset _ hp)))
        (List.pairwise_cons.mp hrs).2 fun r' hr' => hrv r' (mem_cons_of_mem _ hr')
      have hrle := hrv r (mem_cons_self ..)
      -- everything behind the request starts at or behind it
      have hbehind : ∀ q ∈ mergeRequests stage requests
          ((old.dropWhile fun p => p.buffer.stop < r.buffer.start).dropWhile
            fun p => p.buffer.start ≤ r.buffer.stop), r.buffer.start ≤ q.buffer.start := by
        intro q hq
        rcases mem_mergeRequests stage hq with hq | ⟨r', hr', rfl⟩
        · have := lt_of_mem_dropWhile hsd r.buffer.stop hq
          omega
        · exact (List.pairwise_cons.mp hrs).1 r' hr'
      refine List.pairwise_append.mpr ⟨hs.sublist (takeWhile_sublist _), ?_, ?_⟩
      · split
        · exact hrest
        · exact List.pairwise_cons.mpr ⟨hbehind, hrest⟩
      · intro p hp q hq
        have hpr : p.buffer.stop < r.buffer.start := by simpa using mem_takeWhile_imp hp
        have hpv := hv p (takeWhile_subset _ hp)
        have hq' : r.buffer.start ≤ q.buffer.start := by
          rcases List.mem_append.mp hq with hq | hq
          · split at hq
            · simp at hq
            · rw [List.mem_singleton.mp hq]
          · exact hbehind q hq
        omega

section

variable {head index buffer : Bytes} {hunks unstaged : List Hunk} {pending : List PendingHunk}
  {stage : Bool} {requests : List DiffHunk}

section

variable (hd : ExactDiff head buffer hunks)
include hd

theorem FromDiff.mergeRequests (hp : FromDiff hunks pending) (hr : Requests hunks requests) :
    FromDiff hunks (Staging.mergeRequests stage requests pending) where
  sorted := mergeRequests_sorted stage hp.sorted
    (fun p hm => (hd.exact.valid p.toHunk (hp.mem p hm).1).1) hr.sorted
    fun r hm => (hd.exact.valid r.toHunk (hr.mem r hm)).1
  mem := fun p hm => by
    rcases mem_mergeRequests stage hm with hm' | ⟨r, hm', rfl⟩
    · exact hp.mem p hm'
    · exact ⟨hr.mem r hm', isPending_newStatusOf stage⟩

theorem mergeRequests_whole (hw : Whole buffer pending)
    (hr : Requests hunks requests) (hne : requests ≠ []) :
    mergeRequests stage requests pending = mergeRequests stage requests [] := by
  obtain ⟨p, rfl, hp, -⟩ := hw
  cases requests with
  | nil => exact absurd rfl hne
  | cons r requests =>
    obtain ⟨hle, -, hstop, -⟩ := hd.exact.valid r.toHunk (hr.mem r (mem_cons_self ..))
    have h1 : ¬ p.buffer.stop < r.buffer.start := by
      rw [hp]
      simp only
      omega
    have h2 : p.buffer.start ≤ r.buffer.stop := by
      rw [hp]
      exact Nat.zero_le _
    simp [mergeRequests, h1, h2]

theorem pending_of_merge (hp : FromDiff hunks pending ∨ Whole buffer pending) (hr : Requests hunks requests) :
    FromDiff hunks (mergeRequests stage requests pending) ∨
      Whole buffer (mergeRequests stage requests pending) := by
  rcases hp with hp | hp
  · exact .inl (hp.mergeRequests hd hr)
  · by_cases hne : requests = []
    · subst hne
      exact .inr hp
    · rw [mergeRequests_whole hd hp hr hne]
      exact .inl (FromDiff.mergeRequests hd ⟨.nil, by simp⟩ hr)

theorem Left.fromDiff (h : Left head index buffer hunks unstaged pending) :
    FromDiff hunks pending ∨ Whole buffer pending := by
  induction h with
  | start => exact .inl ⟨.nil, by simp⟩
  | @call pending stage fileExists requests newIndex pending' _ hr hcall ih =>
    unfold stageOrUnstageHunksImpl at hcall
    split at hcall
    · next heq =>
      simp only [Option.bind_eq_bind, Option.bind_eq_some_iff, Option.some.injEq,
        Prod.mk.injEq] at hcall
      obtain ⟨_, _, _, _, _, rfl⟩ := hcall
      exact pending_of_merge hd ih hr
    · next hne =>
      -- only a file that does not exist is staged as a whole
      obtain ⟨-, rfl⟩ := hcall
      refine .inr ⟨_, rfl, rfl, ?_⟩
      cases stage with
      | true => rfl
      | false => exact (hne index head rfl rfl (by simp)).elim

theorem pending_valid (hp : FromDiff hunks pending ∨ Whole buffer pending) : ∀ p ∈ pending,
    p.buffer.start ≤ p.buffer.stop ∧ p.buffer.stop ≤ buffer.length ∧ IsPending p.newStatus := by
  intro p hm
  rcases hp with hp | ⟨q, rfl, hq, hst⟩
  · obtain ⟨hle, -, hstop, -⟩ := hd.exact.valid p.toHunk (hp.mem p hm).1
    exact ⟨hle, hstop, (hp.mem p hm).2⟩
  · obtain rfl := List.mem_singleton.mp hm
    rw [hq]
    exact ⟨Nat.zero_le _, le_rfl, .inl hst⟩

theorem ahead_of_pending (hu : ExactDiff index buffer unstaged)
    (hp : FromDiff hunks pending ∨ Whole buffer pending) : Ahead pending unstaged where
  pending_sorted := by
    rcases hp with hp | ⟨q, rfl, -⟩
    · exact hp.sorted
    · exact pairwise_singleton _ _
  pending_valid := fun p hm => (pending_valid hd hp p hm).1
  unstaged_sorted := hu.exact.sorted.2.imp fun h => h.1
  unstaged_valid := fun u hm => (hu.exact.valid u hm).1

end

/-! ## The new text of the index -/

def groupEdit (head buffer : Bytes) (unstaged : List Hunk) (g : Group) : IndexEdit :=
  (toBaseRange unstaged g.range, groupText head buffer g)

theorem Swept.not_beyond {groups : List Group} (h : Swept pending unstaged groups) {g : Group}
    (hg : g ∈ groups) {u : Hunk} (hu : u ∈ unstaged) :
    u.buffer.stop ≤ g.range.stop ∨ g.range.stop < u.buffer.start := by
  have hle := (h.cluster g hg).le
  rcases h.outside u hu with ⟨g', hg', hm⟩ | hout
  · have hin := (h.cluster g' hg').within u.interval (mem_append_right _ (List.mem_map_of_mem hm))
    simp only [Hunk.interval] at hin
    rcases pairwise_cases h.apart hg' hg with rfl | hlt | hlt
    · exact .inl hin.2
    · exact .inl (by omega)
    · exact .inr (by omega)
  · have := hout g hg
    omega

theorem groupEdits_sorted {groups : List Group} (hu : ExactDiff index buffer unstaged)
    (h : Swept pending unstaged groups) :
    (groups.map (groupEdit head buffer unstaged)).Pairwise fun e e' => e.1.stop < e'.1.start := by
  rw [pairwise_map]
  refine h.apart.imp_of_mem fun {g g'} hg _ hlt => ?_
  exact toBaseEnd_lt_toBaseStart hu.exact (Nat.zero_le _) hlt fun u hm => h.not_beyond hg hm

theorem groupEdit_valid {g : Group} (hu : ExactDiff index buffer unstaged)
    (h : g.range.start ≤ g.range.stop) :
    (groupEdit head buffer unstaged g).1.start ≤ (groupEdit head buffer unstaged g).1.stop :=
  (toBaseStart_le_toBaseEnd hu.exact _).trans (toBaseEnd_mono hu.exact _ _ (Nat.zero_le _) h).2

theorem applyEdits_isSome : ∀ {offset : Nat} {edits : List IndexEdit},
    (∀ e ∈ edits, offset ≤ e.1.start ∧ e.1.start ≤ e.1.stop) →
    (edits.Pairwise fun e e' => e.1.stop < e'.1.start) →
    ∃ newIndex, applyEdits index offset edits = some newIndex
  | offset, [], _, _ => ⟨_, rfl⟩
  | offset, (range, text) :: edits, hv, hs => by
      have hs' := List.pairwise_cons.mp hs
      obtain ⟨rest, hrest⟩ := @applyEdits_isSome range.stop edits
        (fun e he => ⟨(hs'.1 e he).le, (hv e (mem_cons_of_mem _ he)).2⟩) hs'.2
      refine ⟨textIn index ⟨offset, range.start⟩ ++ (text ++ rest), ?_⟩
      rw [applyEdits, if_pos (hv _ (mem_cons_self ..)), hrest]
      rfl

/-- A call that does not stage a file that is gone: no subtraction goes below zero, and the edits
are those of the groups. -/
theorem stage_call (hd : ExactDiff head buffer hunks) (hu : ExactDiff index buffer unstaged)
    (hp : FromDiff hunks pending ∨ Whole buffer pending) (hr : Requests hunks requests)
    {fileExists : Bool} (hf : (fileExists || !stage) = true) :
    ∃ newIndex, computeEdits head index buffer (mergeRequests stage requests pending).length
          (mergeRequests stage requests pending) unstaged 0 0 =
        some ((groupsOf (mergeRequests stage requests pending) unstaged).map
          (groupEdit head buffer unstaged)) ∧
      applyEdits index 0 ((groupsOf (mergeRequests stage requests pending) unstaged).map
        (groupEdit head buffer unstaged)) = some newIndex ∧
      stageOrUnstageHunksImpl (some head) (some index) buffer unstaged pending stage requests
        fileExists = some (some newIndex, mergeRequests stage requests pending) ∧
      Swept (mergeRequests stage requests pending) unstaged
        (groupsOf (mergeRequests stage requests pending) unstaged) := by
  have hp' : FromDiff hunks (mergeRequests stage requests pending) ∨
      Whole buffer (mergeRequests stage requests pending) := pending_of_merge hd hp hr
  generalize hm : mergeRequests stage requests pending = pending' at *
  have ha := ahead_of_pending hd hu hp'
  have hsw : Swept pending' unstaged (groupsOf pending' unstaged) := groupsFrom_swept le_rfl ha
  have hedits : computeEdits head index buffer pending'.length pending' unstaged 0 0 =
      some ((groupsOf pending' unstaged).map (groupEdit head buffer unstaged)) :=
    computeEdits_eq le_rfl ha hu.exact (Nat.zero_le _) (Nat.zero_le _)
      fun p hp => ⟨Nat.zero_le _, (pending_valid hd hp' p hp).2⟩
  obtain ⟨newIndex, hnew⟩ : ∃ newIndex, applyEdits index 0
      ((groupsOf pending' unstaged).map (groupEdit head buffer unstaged)) = some newIndex := by
    refine applyEdits_isSome (fun e he => ?_) (groupEdits_sorted hu hsw)
    obtain ⟨g, hg, rfl⟩ := List.mem_map.mp he
    exact ⟨Nat.zero_le _, groupEdit_valid hu (hsw.cluster g hg).le⟩
  refine ⟨newIndex, hedits, hnew, ?_, hsw⟩
  simp only [stageOrUnstageHunksImpl, hf, hm, hedits, hnew, Option.bind_eq_bind, Option.bind_some]

/-! ## All hunks at once -/

/-- Two hunks of a diff are the same, or there is something between them. -/
theorem ExactFrom.apart (he : ExactFrom head buffer 0 0 hunks) {h h' : Hunk} (hm : h ∈ hunks)
    (hm' : h' ∈ hunks) :
    h = h' ∨ h.buffer.stop < h'.buffer.start ∨ h'.buffer.stop < h.buffer.start :=
  pairwise_cases (he.sorted.2.imp fun hlt => hlt.1) hm hm'

def pushedHunks (stage : Bool) (requests : List DiffHunk) : List PendingHunk :=
  (requests.filter fun r => !isSettled stage r.secondaryStatus).map
    fun r => ⟨r.toHunk, newStatusOf stage⟩

theorem mergeRequests_all : ∀ {requests : List DiffHunk} {old : List PendingHunk},
    (requests.Pairwise fun r r' => r.buffer.stop < r'.buffer.start) →
    (∀ r ∈ requests, r.buffer.start ≤ r.buffer.stop) →
    (old.Pairwise fun p q => p.buffer.start ≤ q.buffer.start) →
    (∀ p ∈ old, ∃ r ∈ requests, p.toHunk = r.toHunk) →
    mergeRequests stage requests old = pushedHunks stage requests
  | [], old, _, _, _, hold => by
      cases old with
      | nil => rfl
      | cons p old =>
        obtain ⟨r, hr, -⟩ := hold p (mem_cons_self ..)
        simp at hr
  | r :: requests, old, hs, hv, hos, hold => by
      have hs' := List.pairwise_cons.mp hs
      have hrv := hv r (mem_cons_self ..)
      -- no pending hunk comes before the first of all hunks
      have hge : ∀ p ∈ old, r.buffer.start ≤ p.buffer.start ∧ p.buffer.start ≤ p.buffer.stop := by
        intro p hp
        obtain ⟨r', hr', heq⟩ := hold p hp
        have hv' := hv r' hr'
        rw [← heq] at hv'
        refine ⟨?_, hv'⟩
        rcases List.mem_cons.mp hr' with rfl | hr'
        · rw [heq]
        · have := hs'.1 r' hr'
          rw [← heq] at this
          omega
      have hfirst : (old.takeWhile fun p => p.buffer.stop < r.buffer.start) = [] ∧
          (old.dropWhile fun p => p.buffer.stop < r.buffer.start) = old := by
        cases old with
        | nil => exact ⟨rfl, rfl⟩
        | cons p old =>
          have := hge p (mem_cons_self ..)
          have hn : ¬ decide (p.buffer.stop < r.buffer.start) = true := by
            simp only [decide_eq_true_eq]
            omega
          exact ⟨takeWhile_cons_of_neg hn, dropWhile_cons_of_neg hn⟩
      rw [mergeRequests]
      simp only [hfirst.1, hfirst.2, nil_append]
      rw [mergeRequests_all hs'.2 (fun r' hr' => hv r' (mem_cons_of_mem _ hr'))
        (hos.sublist (dropWhile_sublist _)) ?_]
      · unfold pushedHunks
        rw [filter_cons]
        cases isSettled stage r.secondaryStatus <;> rfl
      · intro p hp
        have hlt := lt_of_mem_dropWhile hos r.buffer.stop hp
        obtain ⟨r', hr', heq⟩ := hold p (dropWhile_subset _ hp)
        rcases List.mem_cons.mp hr' with rfl | hr'
        · rw [heq] at hlt
          omega
        · exact ⟨r', hr', heq⟩

section

variable (hd : ExactDiff head buffer hunks)
include hd

theorem requests_of_all (hall : requests = hunksWithStatus buffer pending unstaged hunks) :
    requests.map DiffHunk.toHunk = hunks ∧
      requests.Pairwise fun r r' => r.buffer.stop < r'.buffer.start := by
  have hmap : requests.map DiffHunk.toHunk = hunks := by
    rw [hall]
    exact hunksWithStatus_map hd.stops
  refine ⟨hmap, ?_⟩
  have := hd.exact.sorted.2
  rw [← hmap, pairwise_map] at this
  exact this.imp fun h => h.1

theorem merge_of_all (hp : FromDiff hunks pending ∨ Whole buffer pending) (hr : Requests hunks requests)
    (hall : requests = hunksWithStatus buffer pending unstaged hunks) (hne : hunks ≠ []) :
    mergeRequests stage requests pending = pushedHunks stage requests := by
  obtain ⟨hmap, hs⟩ := requests_of_all hd hall
  have hv : ∀ r ∈ requests, r.buffer.start ≤ r.buffer.stop :=
    fun r hm => (hd.exact.valid r.toHunk (hr.mem r hm)).1
  rcases hp with hp | hp
  · refine mergeRequests_all hs hv hp.sorted fun p hm => ?_
    have := (hp.mem p hm).1
    rw [← hmap, List.mem_map] at this
    obtain ⟨r, hr, heq⟩ := this
    exact ⟨r, hr, heq.symm⟩
  · have hne' : requests ≠ [] := by
      rintro rfl
      exact hne hmap.symm
    rw [mergeRequests_whole hd hp hr hne']
    exact mergeRequests_all hs hv .nil (by simp)

/-- A hunk with nothing to do is not among the pending ones, and does not touch any. -/
theorem settled_apart (hall : requests = hunksWithStatus buffer pending unstaged hunks) {r : DiffHunk}
    (hm : r ∈ requests) (hset : isSettled stage r.secondaryStatus = true) :
    ∀ p ∈ pushedHunks stage requests,
      p.buffer.stop < r.buffer.start ∨ r.buffer.stop < p.buffer.start := by
  intro p hp
  simp only [pushedHunks, List.mem_map, mem_filter] at hp
  obtain ⟨r', ⟨hm', hns⟩, rfl⟩ := hp
  rcases pairwise_cases (requests_of_all hd hall).2 hm' hm with rfl | h
  · rw [hset] at hns
    cases hns
  · exact h

end

end

end SpkEditor.Staging
