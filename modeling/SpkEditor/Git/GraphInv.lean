import SpkEditor.Git.GraphStep

/-!
# The invariants of the graph

The lanes know which edges still wait for a parent (`LanesOk`), and the lines are the edges whose
parents have come (`LinesOk`). That lines do not get into each other's way is seen with a ghost:
`owner row lane` is the parent that a lane waited for in a row (`OwnerOk`). A commit is only put
into a lane that waited for it or for nobody, and the vertical parts of a line are in lanes that
waited for its parent.
-/

namespace SpkEditor.Graph

open List

variable {Oid : Type} {a : ActiveLane Oid} {g : GraphData Oid} {l : Nat}

def GraphData.Loaded (g : GraphData Oid) (sha : Oid) : Prop := ∃ e ∈ g.commits, e.data.sha = sha

structure LanesOk (g : GraphData Oid) : Prop where
  mem_iff : ∀ p l, l ∈ g.parentToLanes p ↔ ∃ a, g.lane l = some a ∧ a.parent = p
  nodup : ∀ p, (g.parentToLanes p).Nodup
  /-- the lanes of a parent are in the order in which they were opened -/
  sorted : ∀ p, (g.parentToLanes p).Pairwise fun l m =>
    ∀ a b, g.lane l = some a → g.lane m = some b → a.startingRow ≤ b.startingRow
  active : ∀ l a, g.lane l = some a → a.Waits l ∧ ¬ g.Loaded a.parent ∧
    ∃ e, g.commits[a.startingRow]? = some e ∧ e.data.sha = a.child ∧ e.lane = a.startingCol ∧
      a.parent ∈ e.data.parents
  /-- every edge that waits has a lane -/
  edge : ∀ e ∈ g.commits, ∀ p ∈ e.data.parents, ¬ g.Loaded p →
    ∃ l a, g.lane l = some a ∧ a.child = e.data.sha ∧ a.parent = p
  /-- and only one -/
  one : ∀ l m a b, g.lane l = some a → g.lane m = some b → a.child = b.child →
    a.parent = b.parent → l = m

def Joined (g : GraphData Oid) (line : CommitLine Oid) : Prop :=
  ∃ child parent, g.commits[line.startRow]? = some child ∧ g.commits[line.endRow]? = some parent ∧
    child.data.sha = line.child ∧ parent.data.sha = line.parent ∧
    line.parent ∈ child.data.parents ∧ line.childColumn = child.lane ∧
    Drawn line.startRow line.endRow line.childColumn parent.lane line.segments

structure LinesOk (g : GraphData Oid) : Prop where
  nodup : (g.lines.map fun line => (line.child, line.parent)).Nodup
  joined : ∀ line ∈ g.lines, Joined g line
  edge : ∀ e ∈ g.commits, ∀ p ∈ e.data.parents, g.Loaded p →
    ∃ line ∈ g.lines, line.child = e.data.sha ∧ line.parent = p

structure OwnerOk (owner : Nat → Nat → Option Oid) (g : GraphData Oid) : Prop where
  lane : ∀ l a, g.lane l = some a → ∀ row, a.startingRow < row → row < g.commits.length →
    owner row l = some a.parent
  line : ∀ line ∈ g.lines, ∀ c r, line.OnVertical c r → line.startRow < r → r < line.endRow →
    owner r c = some line.parent
  commit : ∀ k e, g.commits[k]? = some e → ∀ p, owner k e.lane = some p → p = e.data.sha

structure Next (g : GraphData Oid) (commit : Commit Oid) : Prop where
  fresh : ¬ g.Loaded commit.sha
  self : commit.sha ∉ commit.parents
  parents : ∀ p ∈ commit.parents, ¬ g.Loaded p
  nodup : commit.parents.Nodup

theorem LanesOk.startingRow_lt (h : LanesOk g)
    (ha : g.lane l = some a) : a.startingRow < g.commits.length := by
  obtain ⟨-, -, e, he, -⟩ := h.active l a ha
  exact (List.getElem?_eq_some_iff.mp he).1

theorem LanesOk.child_loaded (h : LanesOk g) (ha : g.lane l = some a) : g.Loaded a.child := by
  obtain ⟨-, -, e, he, hsha, -⟩ := h.active l a ha
  exact ⟨e, mem_of_getElem? he, hsha⟩

/-- The lines of the lanes that waited for the commit. -/
def ClosedTo (g : GraphData Oid) (row column l : Nat) (line : CommitLine Oid) : Prop :=
  ∃ a, g.lane l = some a ∧ IsLine a l row column line

section

variable {row column : Nat} {lanes : List Nat} {lines : List (CommitLine Oid)}
  (h : List.Forall₂ (ClosedTo g row column) lanes lines)
include h

theorem exists_lane_of_mem {line : CommitLine Oid}
    (hline : line ∈ lines) : ∃ l ∈ lanes, ClosedTo g row column l line := by
  induction h with
  | nil => cases hline
  | cons hhead _ ih =>
    rcases List.mem_cons.mp hline with rfl | hline
    · exact ⟨_, by simp, hhead⟩
    · obtain ⟨l, hl, hclosed⟩ := ih hline
      exact ⟨l, mem_cons_of_mem _ hl, hclosed⟩

theorem exists_line_of_mem (hl : l ∈ lanes) : ∃ line ∈ lines, ClosedTo g row column l line := by
  induction h with
  | nil => cases hl
  | cons hhead _ ih =>
    rcases List.mem_cons.mp hl with rfl | hl
    · exact ⟨_, by simp, hhead⟩
    · obtain ⟨line, hline, hclosed⟩ := ih hl
      exact ⟨line, mem_cons_of_mem _ hline, hclosed⟩

theorem map_edge_eq : lines.map (fun line => some (line.child, line.parent)) =
      lanes.map fun l => (g.lane l).map fun a => (a.child, a.parent) := by
  induction h with
  | nil => rfl
  | cons hhead _ ih =>
    obtain ⟨a, ha, hline⟩ := hhead
    rw [map_cons, map_cons, ih, ha, hline.child, hline.parent]
    rfl

end

section

variable [DecidableEq Oid] {g g' : GraphData Oid} {commit : Commit Oid} {lane : Nat}
  {opened : List (Nat × Oid)}

namespace Added

section

variable (h : Added g commit lane opened g')
include h

theorem loaded_iff {p : Oid} : g'.Loaded p ↔ g.Loaded p ∨ p = commit.sha := by
  obtain ⟨color, hcommits⟩ := h.commits
  simp only [GraphData.Loaded, hcommits, mem_append, mem_singleton, or_and_right,
    exists_or, exists_eq_left, eq_comm]

theorem getElem?_of_old {k : Nat} {e : CommitEntry Oid}
    (he : g.commits[k]? = some e) : g'.commits[k]? = some e := by
  obtain ⟨color, hcommits⟩ := h.commits
  rw [hcommits, List.getElem?_append_left (List.getElem?_eq_some_iff.mp he).1, he]

theorem getElem?_last :
    ∃ e, g'.commits[g.commits.length]? = some e ∧ e.data = commit ∧ e.lane = lane := by
  obtain ⟨color, hcommits⟩ := h.commits
  exact ⟨_, by rw [hcommits, List.getElem?_concat_length], rfl, rfl⟩

theorem getElem?_cases {k : Nat} {e : CommitEntry Oid} (he : g'.commits[k]? = some e) :
    g.commits[k]? = some e ∨ (k = g.commits.length ∧ e.data = commit ∧ e.lane = lane) := by
  obtain ⟨color, hcommits⟩ := h.commits
  rw [hcommits, List.getElem?_append] at he
  split at he
  · exact .inl he
  · next hk =>
    obtain ⟨hlt, rfl⟩ := List.getElem?_eq_some_iff.mp he
    simp only [length_singleton] at hlt
    exact .inr ⟨by omega, by simp, by simp⟩

theorem mem_commits {e : CommitEntry Oid} : e ∈ g'.commits → e ∈ g.commits ∨ e.data = commit := by
  obtain ⟨color, hcommits⟩ := h.commits
  rw [hcommits, mem_append, mem_singleton]
  exact Or.imp_right fun he => by rw [he]

theorem length_commits : g'.commits.length = g.commits.length + 1 := by
  obtain ⟨color, hcommits⟩ := h.commits
  rw [hcommits, length_append, length_singleton]

theorem lane_cases (hok : LanesOk g) (ha : g'.lane l = some a) :
    ((l, a.parent) ∈ opened ∧ a.Waits l ∧ a.child = commit.sha ∧
        a.startingRow = g.commits.length ∧ a.startingCol = lane) ∨
      (g.lane l = some a ∧ a.parent ≠ commit.sha) := by
  by_cases hopened : l ∈ opened.map Prod.fst
  · obtain ⟨x, hx, rfl⟩ := List.mem_map.mp hopened
    obtain ⟨b, hb, hwaits, hchild, hparent, hrow, hcol⟩ := h.opens x hx
    cases ha.symm.trans hb
    exact .inl ⟨by rw [hparent]; exact hx, hwaits, hchild, hrow, hcol⟩
  · by_cases hclosed : l ∈ g.parentToLanes commit.sha
    · rw [h.closes l hclosed hopened] at ha
      cases ha
    · rw [h.other l hclosed hopened] at ha
      exact .inr ⟨ha, fun heq => hclosed ((hok.mem_iff _ _).mpr ⟨a, ha, heq⟩)⟩

section

variable (hok : LanesOk g) (ha : g.lane l = some a) (hne : a.parent ≠ commit.sha)
include hok ha hne

theorem not_opened : l ∉ g.parentToLanes commit.sha ∧ l ∉ opened.map Prod.fst := by
  have hnot : l ∉ g.parentToLanes commit.sha := by
    intro hmem
    obtain ⟨b, hb, hp⟩ := (hok.mem_iff _ _).mp hmem
    cases ha.symm.trans hb
    exact hne hp
  refine ⟨hnot, fun hmem => ?_⟩
  obtain ⟨x, hx, rfl⟩ := List.mem_map.mp hmem
  rcases h.empty x hx with hmem | hnone
  · exact hnot hmem
  · rw [ha] at hnone
    cases hnone

theorem lane_kept : g'.lane l = some a := by
  obtain ⟨h1, h2⟩ := h.not_opened hok ha hne
  rw [h.other l h1 h2, ha]

end

theorem mem_parentToLanes {p : Oid} :
    l ∈ g'.parentToLanes p ↔ (p ≠ commit.sha ∧ l ∈ g.parentToLanes p) ∨ (l, p) ∈ opened := by
  rw [h.parentToLanes, mem_append]
  have hopened : l ∈ (opened.filter (·.2 = p)).map Prod.fst ↔ (l, p) ∈ opened := by simp
  by_cases hp : p = commit.sha <;> simp [hp]

theorem startingRow_of_opened {p : Oid} (hl : l ∈ (opened.filter (·.2 = p)).map Prod.fst)
    (ha : g'.lane l = some a) : a.startingRow = g.commits.length := by
  obtain ⟨x, hx, rfl⟩ := List.mem_map.mp hl
  obtain ⟨b, hb, -, -, -, hrow, -⟩ := h.opens x (mem_of_mem_filter hx)
  cases ha.symm.trans hb
  exact hrow

theorem mem_parents {p : Oid} : p ∈ commit.parents ↔ ∃ l, (l, p) ∈ opened := by
  rw [← h.parents]
  simp

end

end Added

theorem LanesOk.step (hok : LanesOk g) (hnext : Next g commit)
    (h : Added g commit lane opened g') : LanesOk g' where
  mem_iff := by
    intro p l
    rw [h.mem_parentToLanes]
    constructor
    · rintro (⟨hp, hl⟩ | hl)
      · obtain ⟨a, ha, rfl⟩ := (hok.mem_iff p l).mp hl
        exact ⟨a, h.lane_kept hok ha hp, rfl⟩
      · obtain ⟨a, ha, -, -, hparent, -⟩ := h.opens _ hl
        exact ⟨a, ha, hparent⟩
    · rintro ⟨a, ha, rfl⟩
      rcases h.lane_cases hok ha with ⟨hmem, -⟩ | ⟨ha, hne⟩
      · exact .inr hmem
      · exact .inl ⟨hne, (hok.mem_iff _ _).mpr ⟨a, ha, rfl⟩⟩
  nodup := by
    intro p
    rw [h.parentToLanes]
    refine List.Nodup.append ?_ (h.nodup.sublist (List.filter_sublist.map _)) ?_
    · split
      · exact nodup_nil
      · exact hok.nodup p
    · intro l hl hnew
      split at hl
      · cases hl
      · next hp =>
        obtain ⟨a, ha, rfl⟩ := (hok.mem_iff p l).mp hl
        refine (h.not_opened hok ha hp).2 ?_
        exact (List.filter_sublist.map _).subset hnew
  sorted := by
    intro p
    rw [h.parentToLanes, pairwise_append]
    refine ⟨?_, ?_, ?_⟩
    · split
      · exact List.Pairwise.nil
      · next hp =>
        refine (hok.sorted p).imp_of_mem ?_
        intro l m hl hm hlm a b ha hb
        obtain ⟨a', ha', rfl⟩ := (hok.mem_iff p l).mp hl
        obtain ⟨b', hb', hpb⟩ := (hok.mem_iff _ m).mp hm
        cases ha.symm.trans (h.lane_kept hok ha' hp)
        cases hb.symm.trans (h.lane_kept hok hb' (hpb ▸ hp))
        exact hlm a b ha' hb'
    · refine (h.nodup.sublist (List.filter_sublist.map _)).imp_of_mem ?_
      intro l m hl hm _ a b ha hb
      exact Nat.le_of_eq ((h.startingRow_of_opened hl ha).trans (h.startingRow_of_opened hm hb).symm)
    · intro l hl m hm a b ha hb
      split at hl
      · cases hl
      · next hp =>
        obtain ⟨a', ha', rfl⟩ := (hok.mem_iff p l).mp hl
        cases ha.symm.trans (h.lane_kept hok ha' hp)
        rw [h.startingRow_of_opened hm hb]
        exact Nat.le_of_lt (hok.startingRow_lt ha')
  active := by
    intro l a ha
    rcases h.lane_cases hok ha with ⟨hmem, hwaits, hchild, hrow, hcol⟩ | ⟨ha, hne⟩
    · have hp : a.parent ∈ commit.parents := h.mem_parents.mpr ⟨l, hmem⟩
      refine ⟨hwaits, ?_, ?_⟩
      · rw [h.loaded_iff, not_or]
        exact ⟨hnext.parents _ hp, fun heq => hnext.self (heq ▸ hp)⟩
      · obtain ⟨e, he, hdata, hlane⟩ := h.getElem?_last
        rw [hrow]
        exact ⟨e, he, by rw [hdata, hchild], hlane.trans hcol.symm, hdata ▸ hp⟩
    · obtain ⟨hwaits, hnot, e, he, hrest⟩ := hok.active l a ha
      refine ⟨hwaits, ?_, e, h.getElem?_of_old he, hrest⟩
      rw [h.loaded_iff, not_or]
      exact ⟨hnot, hne⟩
  edge := by
    intro e he p hp hnot
    rw [h.loaded_iff, not_or] at hnot
    rcases h.mem_commits he with he | hdata
    · obtain ⟨l, a, ha, hchild, hparent⟩ := hok.edge e he p hp hnot.1
      exact ⟨l, a, h.lane_kept hok ha (hparent ▸ hnot.2), hchild, hparent⟩
    · rw [hdata] at hp
      obtain ⟨l, hl⟩ := h.mem_parents.mp hp
      obtain ⟨a, ha, -, hchild, hparent, -⟩ := h.opens _ hl
      exact ⟨l, a, ha, by rw [hchild, hdata], hparent⟩
  one := by
    intro l m a b ha hb hchild hparent
    rcases h.lane_cases hok ha with ⟨hl, -, hca, -⟩ | ⟨ha, -⟩ <;>
      rcases h.lane_cases hok hb with ⟨hm, -, hcb, -⟩ | ⟨hb, -⟩
    · -- the parents of a commit are distinct
      have hinj := inj_on_of_nodup_map (h.parents ▸ hnext.nodup) hl hm hparent
      exact congrArg Prod.fst hinj
    · exact absurd (hca ▸ hchild ▸ hok.child_loaded hb) hnext.fresh
    · exact absurd (hcb ▸ hchild ▸ hok.child_loaded ha) hnext.fresh
    · exact hok.one l m a b ha hb hchild hparent

theorem LinesOk.step (hok : LinesOk g) (hlanes : LanesOk g) (hnext : Next g commit)
    (h : Added g commit lane opened g') : LinesOk g' := by
  obtain ⟨newLines, hlines, hnew⟩ := h.lines
  -- every new line ends at the commit
  have hof : ∀ line ∈ newLines, ∃ l a, g.lane l = some a ∧ a.parent = commit.sha ∧
      IsLine a l g.commits.length lane line := by
    intro line hline
    obtain ⟨l, hl, a, ha, hclosed⟩ := exists_lane_of_mem hnew hline
    obtain ⟨b, hb, hparent⟩ := (hlanes.mem_iff _ l).mp hl
    cases ha.symm.trans hb
    exact ⟨l, a, ha, hparent, hclosed⟩
  refine ⟨?_, ?_, ?_⟩
  · rw [hlines, map_append]
    refine List.Nodup.append hok.nodup ?_ ?_
    · refine List.Nodup.of_map some ?_
      rw [List.map_map]
      change (newLines.map fun line => some (line.child, line.parent)).Nodup
      rw [map_edge_eq hnew]
      refine (hlanes.nodup commit.sha).map_on ?_
      intro l hl m hm heq
      obtain ⟨a, ha, -⟩ := (hlanes.mem_iff _ l).mp hl
      obtain ⟨b, hb, -⟩ := (hlanes.mem_iff _ m).mp hm
      rw [ha, hb, Option.map_some, Option.map_some, Option.some.injEq, Prod.mk.injEq] at heq
      exact hlanes.one l m a b ha hb heq.1 heq.2
    · -- the parents of the old lines had come before
      intro x hold hnew
      obtain ⟨line, hline, rfl⟩ := List.mem_map.mp hold
      obtain ⟨line', hline', heq⟩ := List.mem_map.mp hnew
      obtain ⟨-, p, -, hp, -, hsha, -⟩ := hok.joined line hline
      obtain ⟨l, a, -, hparent, hl⟩ := hof line' hline'
      have heq' := congrArg Prod.snd heq
      refine hnext.fresh ⟨p, mem_of_getElem? hp, ?_⟩
      rw [hsha, ← hparent, ← hl.parent]
      exact heq'.symm
  · intro line hline
    rw [hlines, mem_append] at hline
    rcases hline with hline | hline
    · obtain ⟨c, p, hc, hp, hrest⟩ := hok.joined line hline
      exact ⟨c, p, h.getElem?_of_old hc, h.getElem?_of_old hp, hrest⟩
    · obtain ⟨l, a, ha, hparent, hl⟩ := hof line hline
      obtain ⟨-, -, e, he, hsha, hcol, hmem⟩ := hlanes.active l a ha
      obtain ⟨p, hp, hdata, hplane⟩ := h.getElem?_last
      refine ⟨e, p, by rw [hl.startRow]; exact h.getElem?_of_old he, by rw [hl.endRow]; exact hp,
        by rw [hsha, hl.child], by rw [hdata, hl.parent, hparent], by rw [hl.parent]; exact hmem,
        by rw [hl.childColumn, hcol], ?_⟩
      rw [hl.startRow, hl.endRow, hl.childColumn, hplane]
      exact hl.drawn
  · intro e he p hp hloaded
    rw [h.loaded_iff] at hloaded
    rcases h.mem_commits he with he | hdata
    · by_cases hold : g.Loaded p
      · obtain ⟨line, hline, hrest⟩ := hok.edge e he p hp hold
        exact ⟨line, by rw [hlines]; exact mem_append_left _ hline, hrest⟩
      · -- the lane of the edge was closed now
        obtain rfl := hloaded.resolve_left hold
        obtain ⟨l, a, ha, hchild, hparent⟩ := hlanes.edge e he _ hp hold
        obtain ⟨line, hline, b, hb, hl⟩ :=
          exists_line_of_mem hnew ((hlanes.mem_iff _ l).mpr ⟨a, ha, hparent⟩)
        cases ha.symm.trans hb
        exact ⟨line, by rw [hlines]; exact mem_append_right _ hline, hl.child.trans hchild,
          hl.parent.trans hparent⟩
    · rw [hdata] at hp
      rcases hloaded with hloaded | rfl
      · exact absurd hloaded (hnext.parents p hp)
      · exact absurd hp hnext.self

def ownerAfter (owner : Nat → Nat → Option Oid) (g : GraphData Oid) (row l : Nat) : Option Oid :=
  if row = g.commits.length then (g.lane l).map ActiveLane.parent else owner row l

variable {owner : Nat → Nat → Option Oid}

omit [DecidableEq Oid] in
theorem ownerAfter_of_lt {row : Nat} (h : row < g.commits.length) (l : Nat) :
    ownerAfter owner g row l = owner row l :=
  if_neg (Nat.ne_of_lt h)

omit [DecidableEq Oid] in
theorem OwnerOk.first {sha : Oid} (hok : OwnerOk owner g) (hlanes : LanesOk g)
    (hhead : (g.parentToLanes sha).head? = some lane) (hl : l ∈ g.parentToLanes sha)
    (ha : g.lane l = some a) {row : Nat} (hrow : a.startingRow < row)
    (hlt : row < g.commits.length) : owner row lane = some sha := by
  obtain ⟨lanes, heq⟩ : ∃ lanes, g.parentToLanes sha = lane :: lanes := by
    cases hcases : g.parentToLanes sha with
    | nil => rw [hcases] at hhead; cases hhead
    | cons m lanes =>
      rw [hcases] at hhead
      cases hhead
      exact ⟨lanes, rfl⟩
  obtain ⟨b, hb, hparent⟩ := (hlanes.mem_iff sha lane).mp (by rw [heq]; simp)
  have hle : b.startingRow ≤ a.startingRow := by
    rw [heq] at hl
    rcases List.mem_cons.mp hl with rfl | hl
    · cases ha.symm.trans hb
      exact Nat.le_refl _
    · have hsorted := hlanes.sorted sha
      rw [heq] at hsorted
      exact (List.pairwise_cons.mp hsorted).1 l hl b a hb ha
  rw [← hparent]
  exact hok.lane lane b hb row (by omega) hlt

theorem OwnerOk.step (hok : OwnerOk owner g) (hlanes : LanesOk g) (hlines : LinesOk g)
    (h : Added g commit lane opened g') : OwnerOk (ownerAfter owner g) g' where
  lane := by
    intro l a ha row hrow hlt
    rw [h.length_commits] at hlt
    rcases h.lane_cases hlanes ha with ⟨-, -, -, heq, -⟩ | ⟨ha, -⟩
    · omega
    · by_cases hlast : row = g.commits.length
      · rw [ownerAfter, if_pos hlast, ha]
        rfl
      · have hlt : row < g.commits.length := by omega
        rw [ownerAfter_of_lt hlt]
        exact hok.lane l a ha row hrow hlt
  line := by
    intro line hline c r hon hstart hend
    obtain ⟨newLines, heq, hnew⟩ := h.lines
    rw [heq, mem_append] at hline
    rcases hline with hline | hline
    · obtain ⟨-, p, -, hp, -⟩ := hlines.joined line hline
      have hlt := (List.getElem?_eq_some_iff.mp hp).1
      rw [ownerAfter_of_lt (by omega)]
      exact hok.line line hline c r hon hstart hend
    · obtain ⟨l, hl, a, ha, hline⟩ := exists_lane_of_mem hnew hline
      obtain ⟨b, hb, hparent⟩ := (hlanes.mem_iff _ l).mp hl
      cases ha.symm.trans hb
      rw [CommitLine.OnVertical, hline.childColumn, hline.startRow] at hon
      rw [hline.startRow] at hstart
      rw [hline.endRow] at hend
      rw [ownerAfter_of_lt hend, hline.parent]
      rcases (hline.drawn.onVertical hon).2.2 with ⟨rfl, r', rest, hstraight, -⟩ | ⟨rfl, -, -⟩
      · -- in its own lane
        rw [← hline.straight ⟨r', rest, hstraight⟩]
        exact hok.lane l a ha r hstart hend
      · -- in the lane of the commit
        rw [hparent]
        rcases h.place with hhead | ⟨hnil, -⟩
        · exact hok.first hlanes hhead hl ha hstart hend
        · rw [hnil] at hl
          cases hl
  commit := by
    intro k e he p hp
    rcases h.getElem?_cases he with he | ⟨rfl, hdata, hlane⟩
    · rw [ownerAfter_of_lt (List.getElem?_eq_some_iff.mp he).1] at hp
      exact hok.commit k e he p hp
    · rw [ownerAfter, if_pos rfl, hlane] at hp
      rw [hdata]
      rcases h.place with hhead | ⟨-, hnone⟩
      · obtain ⟨a, ha, hparent⟩ := (hlanes.mem_iff _ lane).mp (List.mem_of_mem_head? hhead)
        rw [ha] at hp
        cases hp
        exact hparent
      · rw [hnone] at hp
        cases hp

omit [DecidableEq Oid] in
/-- No commit is in the way of a merge curve: the lane of the parent was kept for it. -/
theorem closable (hok : OwnerOk owner g) (hlanes : LanesOk g) (hfresh : ¬ g.Loaded commit.sha)
    (hl : l ∈ g.parentToLanes commit.sha) :
    Closable g g.commits.length (g.commitLane commit.sha).1 l := by
  obtain ⟨a, ha, hparent⟩ := (hlanes.mem_iff _ l).mp hl
  refine ⟨a, ha, (hlanes.active l a ha).1, hlanes.startingRow_lt ha, ?_⟩
  rw [GraphData.bendMerge]
  split
  · refine if_neg ?_
    rintro ⟨-, hlt, hany⟩
    obtain ⟨e, hmem, heq⟩ := List.any_eq_true.mp hany
    obtain ⟨k, hk⟩ := List.getElem?_of_mem hmem
    rw [take_length, List.getElem?_drop] at hk
    have hlt := (List.getElem?_eq_some_iff.mp hk).1
    have hhead : (g.parentToLanes commit.sha).head? = some (g.commitLane commit.sha).1 := by
      rw [GraphData.commitLane]
      cases hlanes : g.parentToLanes commit.sha with
      | nil => rw [hlanes] at hl; cases hl
      | cons m lanes => rfl
    have howner : owner (a.startingRow + 1 + k) (g.commitLane commit.sha).1 = some commit.sha :=
      hok.first hlanes hhead hl ha (by omega) hlt
    rw [← of_decide_eq_true heq] at howner
    exact hfresh ⟨e, mem_of_getElem? hk, (hok.commit _ e hk _ howner).symm⟩
  · rfl

end

end SpkEditor.Graph
