import Mathlib.Data.List.TakeWhile
import SpkEditor.Lib.Cover
import SpkEditor.Diff.ExactDiff

/-!
# Groups of pending hunks

Pending hunks that are connected through unstaged hunks are replaced in the index as one. A group
is gathered the way the source merges hunks, but keeps its members; `Grouping` says that this gives
exactly the maximal groups that hang together.
-/

namespace SpkEditor.Staging

open Cover List

/-- The range of a hunk in the buffer, with both of its ends. -/
def Hunk.interval (h : Hunk) : Nat × Nat := (h.buffer.start, h.buffer.stop)

structure Group where
  first : PendingHunk
  others : List PendingHunk
  unstaged : List Hunk
  range : Range

def Group.pending (g : Group) : List PendingHunk := g.first :: g.others

def Group.items (g : Group) : List (Nat × Nat) :=
  g.pending.map (fun p => p.toHunk.interval) ++ g.unstaged.map Hunk.interval

def Group.addUnstaged (g : Group) (u : Hunk) : Group :=
  { g with
    unstaged := g.unstaged ++ [u]
    range := ⟨min g.range.start u.buffer.start, max g.range.stop u.buffer.stop⟩ }

def Group.addPending (g : Group) (p : PendingHunk) : Group :=
  { g with
    others := g.others ++ [p]
    range := ⟨g.range.start, max g.range.stop p.buffer.stop⟩ }

def gatherUnstaged : List Hunk → Group → List Hunk × Group
  | [], g => ([], g)
  | u :: unstaged, g =>
    if u.buffer.start ≤ g.range.stop then gatherUnstaged unstaged (g.addUnstaged u)
    else (u :: unstaged, g)

def gather : List PendingHunk → List Hunk → Group → List PendingHunk × List Hunk × Group
  | [], unstaged, g => ([], gatherUnstaged unstaged g)
  | p :: pending, unstaged, g =>
    let (unstaged, g) := gatherUnstaged unstaged g
    if p.buffer.start ≤ g.range.stop then gather pending unstaged (g.addPending p)
    else (p :: pending, unstaged, g)

def skipped (p : PendingHunk) (unstaged : List Hunk) : List Hunk :=
  unstaged.takeWhile fun u => u.buffer.stop < p.buffer.start

def reached (p : PendingHunk) (unstaged : List Hunk) : List Hunk :=
  unstaged.dropWhile fun u => u.buffer.stop < p.buffer.start

def Group.single (p : PendingHunk) : Group := ⟨p, [], [], p.buffer⟩

def gatherFirst (p : PendingHunk) (pending : List PendingHunk) (unstaged : List Hunk) :
    List PendingHunk × List Hunk × Group :=
  gather pending (reached p unstaged) (.single p)

def groupsFrom : Nat → List PendingHunk → List Hunk → List Group
  | 0, _, _ => []
  | _ + 1, [], _ => []
  | fuel + 1, p :: pending, unstaged =>
    let r := gatherFirst p pending unstaged
    r.2.2 :: groupsFrom fuel r.1 r.2.1

def groupsOf (pending : List PendingHunk) (unstaged : List Hunk) : List Group :=
  groupsFrom pending.length pending unstaged

/-- The groups are the maximal ones that hang together. -/
structure Grouping (pending : List PendingHunk) (unstaged : List Hunk) (groups : List Group) :
    Prop where
  partition : groups.flatMap Group.pending = pending
  drawn : ∀ g ∈ groups, ∀ u ∈ g.unstaged, u ∈ unstaged
  cluster : ∀ g ∈ groups,
    Cluster g.first.toHunk.interval g.items g.range.start g.range.stop
  maximal : ∀ g ∈ groups, ∀ x ∈ g.items, ∀ y,
    y ∈ pending.map (fun p => p.toHunk.interval) ++ unstaged.map Hunk.interval →
    Touches x y → y ∈ g.items

/-! ## Gathering one group -/

/-- The inner loop: what has been gathered hangs together, and what is left is behind it or
meets it. -/
structure Gathering (pending : List PendingHunk) (unstaged : List Hunk) (g : Group) : Prop where
  cluster : Cluster g.first.toHunk.interval g.items g.range.start g.range.stop
  pending_start : ∀ p ∈ pending, g.range.start ≤ p.buffer.start ∧ p.buffer.start ≤ p.buffer.stop
  unstaged_stop : ∀ u ∈ unstaged, g.range.start ≤ u.buffer.stop ∧ u.buffer.start ≤ u.buffer.stop

variable {pending : List PendingHunk} {unstaged : List Hunk} {g : Group} {u : Hunk}
  {p : PendingHunk}

theorem mem_items_addUnstaged (x : Nat × Nat) :
    x ∈ (g.addUnstaged u).items ↔ x ∈ u.interval :: g.items := by
  simp only [Group.items, Group.addUnstaged, Group.pending, map_append, map_cons,
    map_nil, mem_append, mem_cons, not_mem_nil, or_false]
  tauto

theorem mem_items_addPending (x : Nat × Nat) :
    x ∈ (g.addPending p).items ↔ x ∈ p.toHunk.interval :: g.items := by
  simp only [Group.items, Group.addPending, Group.pending, map_append, map_cons,
    map_nil, mem_append, mem_cons, not_mem_nil, or_false]
  tauto

theorem Gathering.addUnstaged (h : Gathering pending (u :: unstaged) g)
    (hu : u.buffer.start ≤ g.range.stop) : Gathering pending unstaged (g.addUnstaged u) where
  cluster := (h.cluster.add (h.unstaged_stop u (mem_cons_self ..)).2 hu
    (h.unstaged_stop u (mem_cons_self ..)).1).congr mem_items_addUnstaged
  pending_start := fun p hp =>
    ⟨(min_le_left ..).trans (h.pending_start p hp).1, (h.pending_start p hp).2⟩
  unstaged_stop := fun v hv => by
    have := h.unstaged_stop v (mem_cons_of_mem _ hv)
    exact ⟨(min_le_left ..).trans this.1, this.2⟩

theorem Gathering.addPending (h : Gathering (p :: pending) unstaged g)
    (hp : p.buffer.start ≤ g.range.stop) : Gathering pending unstaged (g.addPending p) where
  cluster := by
    have hs := h.pending_start p (mem_cons_self ..)
    have hc := (h.cluster.add hs.2 hp (hs.1.trans hs.2)).congr mem_items_addPending
    rwa [show min g.range.start p.toHunk.interval.1 = g.range.start from
      min_eq_left hs.1] at hc
  pending_start := fun q hq => h.pending_start q (mem_cons_of_mem _ hq)
  unstaged_stop := h.unstaged_stop

theorem gatherUnstaged_spec : ∀ {unstaged : List Hunk} {g : Group},
    Gathering pending unstaged g → ∃ taken,
      unstaged = taken ++ (gatherUnstaged unstaged g).1 ∧
      (gatherUnstaged unstaged g).2.first = g.first ∧
      (gatherUnstaged unstaged g).2.others = g.others ∧
      (gatherUnstaged unstaged g).2.unstaged = g.unstaged ++ taken ∧
      Gathering pending (gatherUnstaged unstaged g).1 (gatherUnstaged unstaged g).2 ∧
      ∀ u ∈ (gatherUnstaged unstaged g).1.head?,
        (gatherUnstaged unstaged g).2.range.stop < u.buffer.start
  | [], g, h => ⟨[], rfl, rfl, rfl, by simp [gatherUnstaged], h, by simp [gatherUnstaged]⟩
  | u :: unstaged, g, h => by
      rw [gatherUnstaged]
      split
      · next hu =>
        obtain ⟨taken, h1, h2, h3, h4, h5⟩ := gatherUnstaged_spec (h.addUnstaged hu)
        exact ⟨u :: taken, by rw [cons_append, ← h1], h2, h3,
          by rw [h4, Group.addUnstaged, append_assoc]; rfl, h5⟩
      · next hu =>
        refine ⟨[], rfl, rfl, rfl, by simp, h, ?_⟩
        simp only [head?_cons, Option.mem_def, Option.some.injEq]
        rintro v rfl
        exact Nat.lt_of_not_le hu

/-- The inner loop takes hunks from both lists as long as they meet the group. -/
theorem gather_spec : ∀ {pending : List PendingHunk} {unstaged : List Hunk} {g : Group},
    Gathering pending unstaged g → ∃ takenP takenU,
      pending = takenP ++ (gather pending unstaged g).1 ∧
      unstaged = takenU ++ (gather pending unstaged g).2.1 ∧
      (gather pending unstaged g).2.2.first = g.first ∧
      (gather pending unstaged g).2.2.others = g.others ++ takenP ∧
      (gather pending unstaged g).2.2.unstaged = g.unstaged ++ takenU ∧
      Gathering (gather pending unstaged g).1 (gather pending unstaged g).2.1
        (gather pending unstaged g).2.2 ∧
      (∀ u ∈ (gather pending unstaged g).2.1.head?,
        (gather pending unstaged g).2.2.range.stop < u.buffer.start) ∧
      ∀ p ∈ (gather pending unstaged g).1.head?,
        (gather pending unstaged g).2.2.range.stop < p.buffer.start
  | [], unstaged, g, h => by
      obtain ⟨taken, h1, h2, h3, h4, h5, h6⟩ := gatherUnstaged_spec h
      exact ⟨[], taken, rfl, h1, h2, by simpa [gather] using h3, h4, h5, h6, by simp [gather]⟩
  | p :: pending, unstaged, g, h => by
      obtain ⟨taken, h1, h2, h3, h4, h5, h6⟩ := gatherUnstaged_spec h
      rw [gather]
      simp only
      split
      · next hp =>
        obtain ⟨takenP, takenU, k1, k2, k3, k4, k5, k6⟩ := gather_spec (h5.addPending hp)
        refine ⟨p :: takenP, taken ++ takenU, by rw [cons_append, ← k1], ?_, ?_, ?_, ?_, k6⟩
        · rw [append_assoc, ← k2, ← h1]
        · rw [k3, Group.addPending, h2]
        · rw [k4, Group.addPending, h3, append_assoc]
          rfl
        · rw [k5, Group.addPending, h4, append_assoc]
      · next hp =>
        refine ⟨[], taken, rfl, h1, h2, by rw [h3, append_nil], h4, h5, h6, ?_⟩
        simp only [head?_cons, Option.mem_def, Option.some.injEq]
        rintro q rfl
        exact Nat.lt_of_not_le hp

/-! ## All groups -/

/-- The hunks that the outer loop has left, none of them at or before `bound`. -/
structure Ahead (pending : List PendingHunk) (unstaged : List Hunk) : Prop where
  pending_sorted : pending.Pairwise fun p q => p.buffer.start ≤ q.buffer.start
  pending_valid : ∀ p ∈ pending, p.buffer.start ≤ p.buffer.stop
  unstaged_sorted : unstaged.Pairwise fun u v => u.buffer.stop < v.buffer.start
  unstaged_valid : ∀ u ∈ unstaged, u.buffer.start ≤ u.buffer.stop

theorem Ahead.of_append {takenP : List PendingHunk} {takenU : List Hunk}
    (h : Ahead (takenP ++ pending) (takenU ++ unstaged)) : Ahead pending unstaged where
  pending_sorted := (List.pairwise_append.mp h.pending_sorted).2.1
  pending_valid := fun p hp => h.pending_valid p (mem_append_right _ hp)
  unstaged_sorted := (List.pairwise_append.mp h.unstaged_sorted).2.1
  unstaged_valid := fun u hu => h.unstaged_valid u (mem_append_right _ hu)

theorem reached_split (p : PendingHunk) (unstaged : List Hunk) :
    unstaged = skipped p unstaged ++ reached p unstaged :=
  List.takeWhile_append_dropWhile.symm

theorem stop_lt_of_mem_skipped {p : PendingHunk} {unstaged : List Hunk} {u : Hunk}
    (h : u ∈ skipped p unstaged) :
    u.buffer.stop < p.buffer.start := by
  simpa using mem_takeWhile_imp h

theorem lt_start_of_head {unstaged : List Hunk}
    (hs : unstaged.Pairwise fun u v => u.buffer.stop < v.buffer.start)
    (hv : ∀ u ∈ unstaged, u.buffer.start ≤ u.buffer.stop) {n : Nat}
    (h : ∀ u ∈ unstaged.head?, n < u.buffer.start) : ∀ u ∈ unstaged, n < u.buffer.start := by
  intro u hu
  cases unstaged with
  | nil => simp at hu
  | cons v unstaged =>
    have hn := h v rfl
    rcases List.mem_cons.mp hu with rfl | hu
    · exact hn
    · have := rel_of_pairwise_cons hs hu
      have := hv v (mem_cons_self ..)
      omega

theorem lt_start_of_head_pending {pending : List PendingHunk}
    (hs : pending.Pairwise fun p q => p.buffer.start ≤ q.buffer.start) {n : Nat}
    (h : ∀ p ∈ pending.head?, n < p.buffer.start) : ∀ p ∈ pending, n < p.buffer.start := by
  intro p hp
  cases pending with
  | nil => simp at hp
  | cons q pending =>
    have hn := h q rfl
    rcases List.mem_cons.mp hp with rfl | hp
    · exact hn
    · have := rel_of_pairwise_cons hs hp
      omega

section

variable (h : Ahead (p :: pending) unstaged)
include h

theorem start_le_of_mem_reached (hu : u ∈ reached p unstaged) :
    p.buffer.start ≤ u.buffer.stop := by
  have hsplit := reached_split p unstaged
  have ha : Ahead [] (reached p unstaged) :=
    { pending_sorted := .nil
      pending_valid := by simp
      unstaged_sorted := (List.pairwise_append.mp (hsplit ▸ h.unstaged_sorted)).2.1
      unstaged_valid := fun v hv => h.unstaged_valid v (by
        rw [hsplit]
        exact mem_append_right _ hv) }
  cases hr : reached p unstaged with
  | nil => simp [hr] at hu
  | cons v rest =>
    have hv : p.buffer.start ≤ v.buffer.stop := by
      have := head?_dropWhile_not (fun u : Hunk => decide (u.buffer.stop < p.buffer.start))
        unstaged
      rw [show unstaged.dropWhile _ = v :: rest from hr] at this
      simpa using this
    rw [hr] at hu ha
    rcases List.mem_cons.mp hu with rfl | hu
    · exact hv
    · have := rel_of_pairwise_cons ha.unstaged_sorted hu
      have := ha.unstaged_valid u (mem_cons_of_mem _ hu)
      omega

theorem gathering_single :
    Gathering pending (reached p unstaged) (.single p) where
  cluster := Cluster.single (h.pending_valid p (mem_cons_self ..))
  pending_start := fun q hq => ⟨rel_of_pairwise_cons h.pending_sorted hq,
    h.pending_valid q (mem_cons_of_mem _ hq)⟩
  unstaged_stop := fun u hu => ⟨start_le_of_mem_reached h hu, h.unstaged_valid u (by
    rw [reached_split p unstaged]
    exact mem_append_right _ hu)⟩

theorem gatherFirst_spec :
    ∃ takenP takenU,
      (gatherFirst p pending unstaged).2.2.pending = p :: takenP ∧
      (gatherFirst p pending unstaged).2.2.unstaged = takenU ∧
      pending = takenP ++ (gatherFirst p pending unstaged).1 ∧
      reached p unstaged = takenU ++ (gatherFirst p pending unstaged).2.1 ∧
      (gatherFirst p pending unstaged).2.2.first = p ∧
      Cluster (gatherFirst p pending unstaged).2.2.first.toHunk.interval
        (gatherFirst p pending unstaged).2.2.items
        (gatherFirst p pending unstaged).2.2.range.start
        (gatherFirst p pending unstaged).2.2.range.stop ∧
      (∀ u ∈ (gatherFirst p pending unstaged).2.1,
        (gatherFirst p pending unstaged).2.2.range.stop < u.buffer.start) ∧
      (∀ q ∈ (gatherFirst p pending unstaged).1,
        (gatherFirst p pending unstaged).2.2.range.stop < q.buffer.start) ∧
      Ahead (gatherFirst p pending unstaged).1
        (gatherFirst p pending unstaged).2.1 := by
  obtain ⟨takenP, takenU, h1, h2, h3, h4, h5, h6, h7, h8⟩ := gather_spec (gathering_single h)
  have ha : Ahead (gatherFirst p pending unstaged).1 (gatherFirst p pending unstaged).2.1 := by
    have hsplit : Ahead ((p :: takenP) ++ (gatherFirst p pending unstaged).1)
        ((skipped p unstaged ++ takenU) ++
          (gatherFirst p pending unstaged).2.1) := by
      rw [cons_append, gatherFirst, ← h1, append_assoc, ← h2, ← reached_split]
      exact h
    exact hsplit.of_append
  refine ⟨takenP, takenU, ?_, by rw [gatherFirst, h5]; rfl, h1, h2, h3, h6.cluster, ?_, ?_, ha⟩
  · rw [gatherFirst, Group.pending, h3, h4]
    rfl
  · exact lt_start_of_head ha.unstaged_sorted ha.unstaged_valid h7
  · exact lt_start_of_head_pending ha.pending_sorted h8

end

theorem exists_start_eq {g : Group}
    (h : Cluster g.first.toHunk.interval g.items g.range.start g.range.stop) :
    ∃ x ∈ g.items, x.1 = g.range.start := by
  obtain ⟨x, hx, hle, -⟩ := h.covers g.range.start le_rfl h.le
  exact ⟨x, hx, le_antisymm hle (h.within x hx).1⟩

theorem skipped_lt_start (h : Ahead (p :: pending) unstaged)
    (hu : u ∈ skipped p unstaged) :
    u.buffer.stop < (gatherFirst p pending unstaged).2.2.range.start := by
  obtain ⟨takenP, takenU, h1, h2, h3, h4, -, hcl, -⟩ := gatherFirst_spec h
  have hlt := stop_lt_of_mem_skipped hu
  have hsorted := h.unstaged_sorted
  rw [reached_split p unstaged, h4, pairwise_append] at hsorted
  obtain ⟨x, hx, hxs⟩ := exists_start_eq hcl
  rw [← hxs]
  simp only [Group.items, h1, h2, mem_append, mem_map, mem_cons] at hx
  rcases hx with ⟨q, rfl | hq, rfl⟩ | ⟨v, hv, rfl⟩
  · exact hlt
  · have hq' : q ∈ pending := by
      rw [h3]
      exact mem_append_left _ hq
    exact lt_of_lt_of_le hlt (rel_of_pairwise_cons h.pending_sorted hq')
  · exact hsorted.2.2 u hu v (mem_append_left _ hv)

/-- The groups come one after the other, and an unstaged hunk outside of them touches none. -/
structure Swept (pending : List PendingHunk) (unstaged : List Hunk) (groups : List Group) :
    Prop where
  partition : groups.flatMap Group.pending = pending
  drawn : ∀ g ∈ groups, ∀ u ∈ g.unstaged, u ∈ unstaged
  cluster : ∀ g ∈ groups,
    Cluster g.first.toHunk.interval g.items g.range.start g.range.stop
  apart : groups.Pairwise fun g g' => g.range.stop < g'.range.start
  outside : ∀ u ∈ unstaged, (∃ g ∈ groups, u ∈ g.unstaged) ∨
    ∀ g ∈ groups, u.buffer.stop < g.range.start ∨ g.range.stop < u.buffer.start
  behind : ∀ n, (∀ p ∈ pending, n < p.buffer.start) → (∀ u ∈ unstaged, n < u.buffer.start) →
    ∀ g ∈ groups, n < g.range.start

theorem groupsFrom_swept : ∀ {fuel : Nat} {pending : List PendingHunk} {unstaged : List Hunk},
    pending.length ≤ fuel → Ahead pending unstaged →
    Swept pending unstaged (groupsFrom fuel pending unstaged)
  | 0, pending, unstaged, hf, h => by
      obtain rfl := eq_nil_of_length_eq_zero (Nat.le_zero.mp hf)
      exact ⟨rfl, by simp [groupsFrom], by simp [groupsFrom], .nil, by simp [groupsFrom],
        by simp [groupsFrom]⟩
  | fuel + 1, [], unstaged, hf, h =>
    ⟨rfl, by simp [groupsFrom], by simp [groupsFrom], .nil, by simp [groupsFrom],
      by simp [groupsFrom]⟩
  | fuel + 1, p :: pending, unstaged, hf, h => by
      obtain ⟨takenP, takenU, h1, h2, h3, h4, -, hcl, h6, h7, ha⟩ := gatherFirst_spec h
      have hskip := fun u => @skipped_lt_start pending unstaged u p h
      rw [groupsFrom]
      generalize gatherFirst p pending unstaged = r at *
      obtain ⟨pending', unstaged', g⟩ := r
      simp only at *
      -- the hunks that were skipped, those of the group, and the rest
      have hsplit := reached_split p unstaged
      rw [h4] at hsplit
      have hlen : pending'.length ≤ fuel := by
        have := congrArg List.length h3
        simp only [length_append] at this
        simp only [length_cons] at hf
        omega
      have ih := groupsFrom_swept hlen ha
      have hnext := ih.behind g.range.stop h7 h6
      have hsub : ∀ u ∈ g.unstaged, u ∈ unstaged := fun u hu => by
        rw [hsplit]
        exact mem_append_right _ (mem_append_left _ (h2 ▸ hu))
      refine ⟨?_, ?_, ?_, ?_, ?_, ?_⟩
      · rw [flatMap_cons, ih.partition, h1, cons_append, ← h3]
      · intro g' hg' u hu
        rcases List.mem_cons.mp hg' with rfl | hg'
        · exact hsub u hu
        · rw [hsplit]
          exact mem_append_right _ (mem_append_right _ (ih.drawn g' hg' u hu))
      · intro g' hg'
        rcases List.mem_cons.mp hg' with rfl | hg'
        · exact hcl
        · exact ih.cluster g' hg'
      · exact List.pairwise_cons.mpr ⟨hnext, ih.apart⟩
      · intro u hu
        rw [hsplit, mem_append, mem_append] at hu
        rcases hu with hu | hu | hu
        · refine .inr fun g' hg' => .inl ?_
          rcases List.mem_cons.mp hg' with rfl | hg'
          · exact hskip u hu
          · have := hnext g' hg'
            have := hskip u hu
            have := hcl.le
            omega
        · exact .inl ⟨g, mem_cons_self .., h2 ▸ hu⟩
        · rcases ih.outside u hu with ⟨g', hg', hm⟩ | hout
          · exact .inl ⟨g', mem_cons_of_mem _ hg', hm⟩
          · refine .inr fun g' hg' => ?_
            rcases List.mem_cons.mp hg' with rfl | hg'
            · exact .inr (h6 u hu)
            · exact hout g' hg'
      · intro n hp hu g' hg'
        have hg : n < g.range.start := by
          obtain ⟨x, hx, hxs⟩ := exists_start_eq hcl
          rw [← hxs]
          simp only [Group.items, h1, mem_append, mem_map] at hx
          rcases hx with ⟨q, hq, rfl⟩ | ⟨v, hv, rfl⟩
          · refine hp q ?_
            rw [h3, ← cons_append]
            exact mem_append_left _ hq
          · exact hu v (hsub v hv)
        rcases List.mem_cons.mp hg' with rfl | hg'
        · exact hg
        · have := hnext g' hg'
          have := hcl.le
          omega

/-- The groups are the maximal ones that hang together. -/
theorem Swept.grouping {groups : List Group} (h : Swept pending unstaged groups) :
    Grouping pending unstaged groups where
  partition := h.partition
  drawn := h.drawn
  cluster := h.cluster
  maximal := fun g hg x hx y hy ht => by
    have hx' := (h.cluster g hg).within x hx
    -- a member of another group lies on one side of this one
    have hother : ∀ g' ∈ groups, y ∈ g'.items → y ∈ g.items := by
      intro g' hg' hy'
      have hy'' := (h.cluster g' hg').within y hy'
      rcases pairwise_cases h.apart hg' hg with rfl | hlt | hlt
      · exact hy'
      · have := ht.1
        omega
      · have := ht.2
        omega
    rcases List.mem_append.mp hy with hy | hy
    · obtain ⟨q, hq, rfl⟩ := List.mem_map.mp hy
      rw [← h.partition, mem_flatMap] at hq
      obtain ⟨g', hg', hq⟩ := hq
      exact hother g' hg' (mem_append_left _ (mem_map_of_mem hq))
    · obtain ⟨v, hv, rfl⟩ := List.mem_map.mp hy
      rcases h.outside v hv with ⟨g', hg', hm⟩ | hout
      · exact hother g' hg' (mem_append_right _ (mem_map_of_mem hm))
      · have h1 : x.1 ≤ v.buffer.stop := ht.1
        have h2 : v.buffer.start ≤ x.2 := ht.2
        have := hout g hg
        omega

end SpkEditor.Staging
