import SpkEditor.Git.GraphInv

/-!
# The layout of the commit graph

What `LayoutRight` says about a graph holds after any batches of commits in which the children come
before the parents.
-/

namespace SpkEditor.Graph

open List

variable {Oid : Type}

variable {g : GraphData Oid}

/-- Commits as `git log` gives them: no commit comes twice, no parent is named twice, and children
come before parents. -/
structure History (cs : List (Commit Oid)) : Prop where
  shas : (cs.map Commit.sha).Nodup
  parents : ∀ c ∈ cs, c.parents.Nodup
  order : ∀ (i j : Nat) (c d : Commit Oid), cs[i]? = some c → cs[j]? = some d → d.sha ∈ c.parents → i < j

/-- A line runs from the row and the lane of the child to those of the parent, and nothing of it is
left open. -/
structure Runs (line : CommitLine Oid) (childRow childLane parentRow parentLane : Nat) : Prop where
  startRow : line.startRow = childRow
  childColumn : line.childColumn = childLane
  endRow : line.endRow = parentRow
  endColumn : line.endColumn = parentLane
  rows : line.RowsIncrease
  finished : ∀ s ∈ line.segments, s.Finished

/-- The invariants together. -/
structure Inv (g : GraphData Oid) : Prop where
  lanes : LanesOk g
  lines : LinesOk g
  owner : ∃ owner, OwnerOk owner g

theorem inv_new (count : Nat) : Inv (GraphData.new count : GraphData Oid) where
  lanes := by constructor <;> simp [GraphData.new, GraphData.lane]
  lines := by constructor <;> simp [GraphData.new]
  owner := ⟨fun _ _ => none, by constructor <;> simp [GraphData.new, GraphData.lane]⟩

theorem Joined.runs {line : CommitLine Oid} (h : Joined g line) :
    ∃ child parent, g.commits[line.startRow]? = some child ∧
      g.commits[line.endRow]? = some parent ∧ child.data.sha = line.child ∧
      parent.data.sha = line.parent ∧ line.parent ∈ child.data.parents ∧
      Runs line line.startRow child.lane line.endRow parent.lane := by
  obtain ⟨c, p, hc, hp, hchild, hparent, hmem, hcol, hdrawn⟩ := h
  exact ⟨c, p, hc, hp, hchild, hparent, hmem, rfl, hcol, rfl, hdrawn.endColumn, hdrawn.rows,
    hdrawn.finished⟩

theorem row_unique (h : (g.commits.map (·.data.sha)).Nodup) {i j : Nat}
    {c d : CommitEntry Oid} (hi : g.commits[i]? = some c) (hj : g.commits[j]? = some d)
    (heq : c.data.sha = d.data.sha) : i = j := by
  have hlt : i < (g.commits.map (·.data.sha)).length := by
    simpa using (List.getElem?_eq_some_iff.mp hi).1
  refine (List.getElem?_inj hlt h).mp ?_
  rw [List.getElem?_map, List.getElem?_map, hi, hj, Option.map_some, Option.map_some, heq]

theorem filter_edge_eq {α β : Type} [DecidableEq β] (f : α → β) {x : α} :
    ∀ {xs : List α}, (xs.map f).Nodup → x ∈ xs → xs.filter (fun y => f y = f x) = [x]
  | [], _, hx => by cases hx
  | y :: xs, h, hx => by
      obtain ⟨hy, h⟩ := List.nodup_cons.mp h
      rcases List.mem_cons.mp hx with rfl | hx
      · have hnil : xs.filter (fun z => f z = f x) = [] := by
          refine List.filter_eq_nil_iff.mpr fun z hz => ?_
          rw [decide_eq_true_eq]
          exact fun heq => hy (heq ▸ List.mem_map_of_mem hz)
        rw [filter_cons_of_pos (by simp), hnil]
      · have hne : f y ≠ f x := fun heq => hy (heq ▸ List.mem_map_of_mem hx)
        rw [filter_cons_of_neg (by simpa using hne), filter_edge_eq f h hx]

theorem History.next {commit : Commit Oid} {cs : List (Commit Oid)}
    (h : History (g.commits.map CommitEntry.data ++ commit :: cs)) : Next g commit := by
  have hlast : (g.commits.map CommitEntry.data ++ commit :: cs)[g.commits.length]? = some commit := by
    simp
  have hloaded : ∀ {p}, g.Loaded p → ∃ (k : Nat) (d : Commit Oid), k < g.commits.length ∧
      (g.commits.map CommitEntry.data ++ commit :: cs)[k]? = some d ∧ d.sha = p := by
    rintro p ⟨e, he, rfl⟩
    obtain ⟨k, hk⟩ := List.getElem?_of_mem he
    have hlt := (List.getElem?_eq_some_iff.mp hk).1
    refine ⟨k, e.data, hlt, ?_, rfl⟩
    rw [List.getElem?_append_left (by simpa using hlt), List.getElem?_map, hk]
    rfl
  refine ⟨?_, ?_, ?_, h.parents commit (by simp)⟩
  · rintro ⟨e, he, heq⟩
    have hnodup := h.shas
    rw [map_append, map_cons] at hnodup
    refine (List.nodup_append.mp hnodup).2.2 e.data.sha ?_ commit.sha (by simp) heq
    simpa using ⟨e, he, rfl⟩
  · intro hself
    exact Nat.lt_irrefl _ (h.order _ _ commit commit hlast hlast hself)
  · intro p hp hl
    obtain ⟨k, d, hk, hd, rfl⟩ := hloaded hl
    have hlt := h.order _ _ commit d hlast hd hp
    omega

section

variable [DecidableEq Oid]

/-- The layout of the commits `cs`. -/
structure LayoutRight (g : GraphData Oid) (cs : List (Commit Oid)) : Prop where
  /-- every commit has one row, and with it one lane -/
  commits : g.commits.map CommitEntry.data = cs
  /-- an edge between two commits has one line -/
  line : ∀ i j child parent, g.commits[i]? = some child → g.commits[j]? = some parent →
    parent.data.sha ∈ child.data.parents →
    ∃ line, g.lines.filter (fun x => x.child = child.data.sha ∧ x.parent = parent.data.sha) = [line] ∧
      Runs line i child.lane j parent.lane
  /-- and every line is that of an edge -/
  edge : ∀ line ∈ g.lines, ∃ child parent, g.commits[line.startRow]? = some child ∧
    g.commits[line.endRow]? = some parent ∧ child.data.sha = line.child ∧
    parent.data.sha = line.parent ∧ parent.data.sha ∈ child.data.parents
  /-- an edge to a parent that has not come occupies one lane -/
  lane : ∀ child ∈ g.commits, ∀ p ∈ child.data.parents, ¬ g.Loaded p →
    ∃ l a, g.lane l = some a ∧ a.child = child.data.sha ∧ a.parent = p ∧
      (∀ m b, g.lane m = some b → b.child = child.data.sha → b.parent = p → m = l) ∧
      (g.parentToLanes p).count l = 1 ∧ ∀ q, q ≠ p → l ∉ g.parentToLanes q
  /-- no other commit is on a vertical part of a line -/
  free : ∀ line ∈ g.lines, ∀ k e, g.commits[k]? = some e → line.OnVertical e.lane k →
    k = line.startRow ∨ k = line.endRow
  /-- between their ends two lines to different parents do not share a vertical cell -/
  apart : ∀ x ∈ g.lines, ∀ y ∈ g.lines, x.parent ≠ y.parent → ∀ c r, x.startRow < r → r < x.endRow →
    y.startRow < r → r < y.endRow → x.OnVertical c r → ¬ y.OnVertical c r
  visible : ∀ line ∈ g.lines, ∀ row ≤ line.endRow,
    ∃ found, line.getFirstVisibleSegmentIdx row = some found ∧ line.FirstReaching row found

theorem Inv.layoutRight {cs : List (Commit Oid)} (h : Inv g)
    (hcs : g.commits.map CommitEntry.data = cs) (hhist : History cs) : LayoutRight g cs := by
  have hshas : (g.commits.map (·.data.sha)).Nodup := by
    have := hhist.shas
    rwa [← hcs, List.map_map] at this
  obtain ⟨owner, howner⟩ := h.owner
  constructor
  · exact hcs
  · intro i j child parent hi hj hmem
    obtain ⟨line, hline, hc, hp⟩ := h.lines.edge child (mem_of_getElem? hi) _ hmem
      ⟨parent, mem_of_getElem? hj, rfl⟩
    obtain ⟨c, p, hci, hpj, hchild, hparent, -, hruns⟩ := (h.lines.joined line hline).runs
    -- the rows of the line are those of the two commits
    have hstart := row_unique hshas hci hi (hchild.trans hc)
    have hend := row_unique hshas hpj hj (hparent.trans hp)
    rw [hstart, hi, Option.some.injEq] at hci
    rw [hend, hj, Option.some.injEq] at hpj
    rw [← hci, ← hpj, hstart, hend] at hruns
    refine ⟨line, ?_, hruns⟩
    rw [← filter_edge_eq (fun x => (x.child, x.parent)) h.lines.nodup hline]
    refine filter_congr fun x _ => ?_
    rw [hc, hp, decide_eq_decide, Prod.mk.injEq]
  · intro line hline
    obtain ⟨c, p, hc, hp, hchild, hparent, hmem, -⟩ := h.lines.joined line hline
    exact ⟨c, p, hc, hp, hchild, hparent, hparent ▸ hmem⟩
  · intro child hchild p hp hnot
    obtain ⟨l, a, ha, hca, rfl⟩ := h.lanes.edge child hchild p hp hnot
    refine ⟨l, a, ha, hca, rfl, ?_, ?_, ?_⟩
    · intro m b hb hcb hpb
      exact h.lanes.one m l b a hb ha (hcb.trans hca.symm) hpb
    · exact count_eq_one_of_mem (h.lanes.nodup _) ((h.lanes.mem_iff _ l).mpr ⟨a, ha, rfl⟩)
    · intro q hq hmem
      obtain ⟨b, hb, hpb⟩ := (h.lanes.mem_iff q l).mp hmem
      cases ha.symm.trans hb
      exact hq hpb.symm
  · intro line hline k e hk hon
    obtain ⟨c, p, hc, hp, hchild, hparent, -, -, hdrawn⟩ := h.lines.joined line hline
    obtain ⟨hstart, hend, -⟩ := hdrawn.onVertical hon
    by_contra hne
    rw [not_or] at hne
    -- strictly between the ends the lane was kept for the parent
    have hkept := howner.line line hline _ _ hon (by omega) (by omega)
    have hsha := howner.commit k e hk _ hkept
    exact hne.2 (row_unique hshas hk hp (hsha.symm.trans hparent.symm))
  · intro x hx y hy hne c r h1 h2 h3 h4 honx hony
    have hxo := howner.line x hx c r honx h1 h2
    have hyo := howner.line y hy c r hony h3 h4
    exact hne (Option.some.inj (hxo.symm.trans hyo))
  · intro line hline row hrow
    obtain ⟨c, p, -, -, -, -, -, -, hdrawn⟩ := h.lines.joined line hline
    exact getFirstVisibleSegmentIdx_spec hdrawn hrow

theorem Inv.addCommit {commit : Commit Oid} (h : Inv g) (hnext : Next g commit) :
    (g.addCommit commit = .error .remainder ∧ g.accentColorsCount % 256 = 0) ∨
      ∃ g', g.addCommit commit = .ok g' ∧ Inv g' ∧
        g'.commits.map CommitEntry.data = g.commits.map CommitEntry.data ++ [commit] ∧
        g'.accentColorsCount = g.accentColorsCount := by
  obtain ⟨owner, howner⟩ := h.owner
  rcases addCommit_spec (h.lanes.nodup commit.sha)
      (fun l hl => closable howner h.lanes hnext.fresh hl) with herr | ⟨g', opened, hok, hadded⟩
  · exact .inl herr
  · refine .inr ⟨g', hok, ⟨h.lanes.step hnext hadded, h.lines.step h.lanes hnext hadded, _,
      howner.step h.lanes h.lines hadded⟩, ?_, hadded.accentColorsCount⟩
    obtain ⟨color, hcommits⟩ := hadded.commits
    rw [hcommits, map_append]
    rfl

theorem Inv.addCommits : ∀ (cs : List (Commit Oid)) {g : GraphData Oid}, Inv g →
    History (g.commits.map CommitEntry.data ++ cs) →
    (g.addCommits cs = .error .remainder ∧ g.accentColorsCount % 256 = 0) ∨
      ∃ g', g.addCommits cs = .ok g' ∧ Inv g' ∧
        g'.commits.map CommitEntry.data = g.commits.map CommitEntry.data ++ cs ∧
        g'.accentColorsCount = g.accentColorsCount
  | [], g, h, _ => .inr ⟨g, rfl, h, by rw [append_nil], rfl⟩
  | c :: cs, g, h, hhist => by
      rw [GraphData.addCommits, foldlM_cons]
      rcases h.addCommit hhist.next with ⟨herr, hzero⟩ | ⟨g₁, hok, h₁, hcommits, hcount⟩
      · rw [herr]
        exact .inl ⟨rfl, hzero⟩
      · rw [hok]
        rw [← singleton_append, ← append_assoc, ← hcommits] at hhist
        rcases Inv.addCommits cs h₁ hhist with ⟨herr, hzero⟩ | ⟨g', hok', h', hcommits', hcount'⟩
        · exact .inl ⟨herr, hcount ▸ hzero⟩
        · refine .inr ⟨g', hok', h', ?_, hcount'.trans hcount⟩
          rw [hcommits', hcommits, append_assoc, singleton_append]

theorem foldlM_addCommits : ∀ (batches : List (List (Commit Oid))) (g : GraphData Oid),
    batches.foldlM GraphData.addCommits g = g.addCommits batches.flatten
  | [], _ => rfl
  | cs :: batches, g => by
      rw [flatten_cons, foldlM_cons, GraphData.addCommits, GraphData.addCommits,
        foldlM_append]
      congr 1
      funext g₁
      exact foldlM_addCommits batches g₁

/-- **The layout of a history is right**, whatever the batches are. No index and no subtraction
fails; the remainder of a colour does if the number of accent colours is a multiple of 256. -/
theorem layout_right (count : Nat) (batches : List (List (Commit Oid)))
    (h : History batches.flatten) :
    (batches.foldlM GraphData.addCommits (GraphData.new count) = .error .remainder ∧
        count % 256 = 0) ∨
      ∃ g, batches.foldlM GraphData.addCommits (GraphData.new count) = .ok g ∧
        LayoutRight g batches.flatten := by
  rw [foldlM_addCommits]
  rcases Inv.addCommits batches.flatten (inv_new count) h with herr | ⟨g, hok, hinv, hcommits, -⟩
  · exact .inl herr
  · exact .inr ⟨g, hok, hinv.layoutRight hcommits h⟩

/-- A merge of two branches, in two batches. -/
def mergeHistory : List (List (Commit Nat)) := [[⟨4, [3, 2]⟩, ⟨3, [1]⟩], [⟨2, [1]⟩, ⟨1, [0]⟩]]

theorem mergeHistory_history : History mergeHistory.flatten where
  shas := by decide
  parents := by decide
  order := by
    intro i j c d hc hd hmem
    have hi := (List.getElem?_eq_some_iff.mp hc).1
    have hj := (List.getElem?_eq_some_iff.mp hd).1
    have hall : ∀ i < mergeHistory.flatten.length, ∀ j < mergeHistory.flatten.length,
        ∀ c ∈ mergeHistory.flatten[i]?, ∀ d ∈ mergeHistory.flatten[j]?,
          d.sha ∈ c.parents → i < j := by decide
    exact hall i hi j hj c hc d hd hmem

/-- The four edges that are there have a line each, and the one to the commit `0` has a lane. -/
theorem layout_right_merge :
    ∃ g, mergeHistory.foldlM GraphData.addCommits (GraphData.new 8) = .ok g ∧
      LayoutRight g mergeHistory.flatten ∧ g.lines.length = 4 := by
  rcases layout_right 8 mergeHistory mergeHistory_history with ⟨-, hzero⟩ | ⟨g, hok, hright⟩
  · cases hzero
  · refine ⟨g, hok, hright, ?_⟩
    have heval : (mergeHistory.foldlM GraphData.addCommits (GraphData.new 8)).toOption.map
        (fun g => g.lines.length) = some 4 := by decide
    rw [hok] at heval
    simpa [Except.toOption] using heval

end

end SpkEditor.Graph
