import SpkEditor.Git.GraphLines
import Mathlib.Data.List.Nodup

/-!
# What one commit does to the graph

The lanes are looked at through `GraphData.lane`, and `Added` says everything that a round of
`add_commits` does: where the commit goes, which lanes are closed and which are opened.
-/

namespace SpkEditor.Graph

open List

variable {Oid : Type}

/-- The lane in a column. A column behind the last one is empty. -/
def GraphData.lane (g : GraphData Oid) (l : Nat) : Option (ActiveLane Oid) :=
  (g.laneStates[l]?).join

section

variable {g : GraphData Oid} {l : Nat} {a : ActiveLane Oid} (h : g.lane l = some a)
include h

theorem lane_lt :
    l < g.laneStates.length := by
  by_contra hge
  rw [GraphData.lane, getElem?_eq_none (by omega)] at h
  cases h

theorem getElem?_of_lane : g.laneStates[l]? = some (some a) :=
  Option.join_eq_some_iff.mp h

end

theorem lane_set_self {g : GraphData Oid} {l : Nat} (h : l < g.laneStates.length)
    (x : Option (ActiveLane Oid)) : ((g.laneStates.set l x)[l]?).join = x := by
  rw [getElem?_set_self h]
  rfl

theorem lane_set_ne {g : GraphData Oid} {l m : Nat} (h : m ≠ l) (x : Option (ActiveLane Oid)) :
    ((g.laneStates.set l x)[m]?).join = g.lane m := by
  rw [getElem?_set_ne (Ne.symm h)]
  rfl

/-! ## Lanes are closed -/

/-- The line that a lane becomes when its parent comes in column `column` of row `row`. -/
structure IsLine (a : ActiveLane Oid) (lane row column : Nat) (line : CommitLine Oid) : Prop where
  child : line.child = a.child
  parent : line.parent = a.parent
  childColumn : line.childColumn = a.startingCol
  startRow : line.startRow = a.startingRow
  endRow : line.endRow = row
  drawn : Drawn a.startingRow row a.startingCol column line.segments
  /-- a straight line is in the column of its lane -/
  straight : (∃ r rest, line.segments = .straight r :: rest) → lane = a.startingCol

theorem isLine_of_waits {a : ActiveLane Oid} {lane : Nat} (h : a.Waits lane) {row column : Nat}
    (hlt : a.startingRow < row) (color : Nat) :
    ∃ line, a.toCommitLines row lane column color = .ok line ∧ IsLine a lane row column line := by
  obtain ⟨line, hok, h1, h2, h3, h4, h5, h6, h7⟩ := @ActiveLane.Waits.toCommitLines _ a lane h
    row column hlt color
  exact ⟨line, hok, h1, h2, h3, h4, h5, h6, h7⟩

/-- A lane that can be closed: the merge curve that it may start with is not bent. -/
def Closable (g : GraphData Oid) (row column l : Nat) : Prop :=
  ∃ a, g.lane l = some a ∧ a.Waits l ∧ a.startingRow < row ∧
    GraphData.bendMerge g.commits row column l a = a

/-- Only the lanes and the lines change. -/
def closed (g : GraphData Oid) (states : List (Option (ActiveLane Oid)))
    (newLines : List (CommitLine Oid)) : GraphData Oid :=
  { g with laneStates := states, lines := g.lines ++ newLines }

theorem closeLane_spec {g : GraphData Oid} {row column l : Nat} (h : Closable g row column l)
    (color : Nat) :
    ∃ a line, g.lane l = some a ∧ IsLine a l row column line ∧
      g.closeLane row column color l = .ok (closed g (g.laneStates.set l none) [line]) := by
  obtain ⟨a, hlane, hwaits, hlt, hbend⟩ := h
  obtain ⟨line, hok, hline⟩ := @isLine_of_waits _ a l hwaits row column hlt color
  refine ⟨a, line, hlane, hline, ?_⟩
  rw [GraphData.closeLane, getElem?_of_lane hlane]
  simp only [hbend, hok]
  rfl

theorem closeLanes_spec (row column color : Nat) : ∀ (lanes : List Nat) (g : GraphData Oid),
    lanes.Nodup → (∀ l ∈ lanes, Closable g row column l) →
    ∃ states newLines,
      lanes.foldlM (GraphData.closeLane row column color) g = .ok (closed g states newLines) ∧
      states.length = g.laneStates.length ∧
      (∀ l, (states[l]?).join = if l ∈ lanes then none else g.lane l) ∧
      List.Forall₂ (fun l line => ∃ a, g.lane l = some a ∧ IsLine a l row column line)
        lanes newLines
  | [], g, _, _ => by
      refine ⟨g.laneStates, [], ?_, rfl, fun l => by simp [GraphData.lane], .nil⟩
      rw [closed, append_nil]
      rfl
  | l :: lanes, g, hnodup, h => by
      obtain ⟨hl, hnodup⟩ := List.nodup_cons.mp hnodup
      obtain ⟨a, line, hlane, hline, hclose⟩ := closeLane_spec (h l (by simp)) color
      -- the other lanes are as they were
      have hother : ∀ m, m ≠ l →
          (closed g (g.laneStates.set l none) [line]).lane m = g.lane m :=
        fun m hm => lane_set_ne hm none
      have hrest : ∀ m ∈ lanes, Closable (closed g (g.laneStates.set l none) [line]) row column m := by
        intro m hm
        obtain ⟨b, hb, hrest⟩ := h m (mem_cons_of_mem _ hm)
        exact ⟨b, (hother m fun heq => hl (heq ▸ hm)).trans hb, hrest⟩
      obtain ⟨states, newLines, hfold, hlen, hstates, hlines⟩ :=
        closeLanes_spec row column color lanes _ hnodup hrest
      refine ⟨states, line :: newLines, ?_, hlen.trans (by simp [closed]), ?_,
        .cons ⟨a, hlane, hline⟩ ?_⟩
      · rw [foldlM_cons, hclose]
        change lanes.foldlM _ (closed g _ [line]) = _
        rw [hfold]
        simp [closed]
      · intro m
        rw [hstates]
        by_cases hm : m = l
        · subst hm
          rw [if_neg hl, if_pos (by simp)]
          exact lane_set_self (lane_lt hlane) none
        · rw [hother m hm]
          simp [hm]
      · have hne : ∀ m ∈ lanes, m ≠ l := fun m hm heq => hl (heq ▸ hm)
        refine ((forall₂_and_left lanes newLines).mpr ⟨hne, hlines⟩).imp ?_
        rintro m x ⟨hm, b, hb, hx⟩
        exact ⟨b, (hother m hm).symm.trans hb, hx⟩

/-! ## Lanes are opened -/

theorem firstEmptyLaneIdx_spec (g : GraphData Oid) :
    ∃ states, g.firstEmptyLaneIdx.2 = { g with laneStates := states } ∧
      (∀ l, (states[l]?).join = g.lane l) ∧ g.lane g.firstEmptyLaneIdx.1 = none ∧
      g.firstEmptyLaneIdx.1 < states.length := by
  rw [GraphData.firstEmptyLaneIdx]
  split
  · next h =>
    refine ⟨g.laneStates, rfl, fun l => rfl, ?_, h⟩
    have hnone := @List.findIdx_getElem _ Option.isNone g.laneStates h
    rw [GraphData.lane, getElem?_eq_getElem h]
    simpa using hnone
  · refine ⟨g.laneStates ++ [none], rfl, fun l => ?_, ?_, by simp⟩
    · rw [GraphData.lane, getElem?_append]
      split
      · rfl
      · next hl =>
        rw [List.getElem?_eq_none (Nat.le_of_not_lt hl)]
        cases l - g.laneStates.length <;> simp
    · rw [GraphData.lane, List.getElem?_eq_none (Nat.le_refl _)]
      rfl

theorem commitLane_spec {g : GraphData Oid} {sha : Oid}
    (hactive : ∀ l ∈ g.parentToLanes sha, ∃ a, g.lane l = some a) :
    ∃ states, (g.commitLane sha).2 = { g with laneStates := states } ∧
      (∀ l, (states[l]?).join = g.lane l) ∧ (g.commitLane sha).1 < states.length ∧
      ((g.parentToLanes sha).head? = some (g.commitLane sha).1 ∨
        g.parentToLanes sha = [] ∧ g.lane (g.commitLane sha).1 = none) := by
  rw [GraphData.commitLane]
  cases hlanes : g.parentToLanes sha with
  | nil =>
    obtain ⟨states, h1, h2, h3, h4⟩ := firstEmptyLaneIdx_spec g
    exact ⟨states, h1, h2, h4, .inr ⟨rfl, h3⟩⟩
  | cons l lanes =>
    obtain ⟨a, ha⟩ := hactive l (by simp [hlanes])
    exact ⟨g.laneStates, rfl, fun _ => rfl, lane_lt ha, .inl rfl⟩

theorem getLaneColor_spec (g : GraphData Oid) (lane : Nat) :
    (g.getLaneColor lane = .error .remainder ∧ g.accentColorsCount % 256 = 0) ∨
      ∃ color colors next, g.getLaneColor lane =
        .ok (color, { g with laneColors := colors, nextColor := next }) := by
  rw [GraphData.getLaneColor]
  split
  · exact .inr ⟨_, _, _, rfl⟩
  · split
    · next h => exact .inl ⟨rfl, h⟩
    · exact .inr ⟨_, _, _, rfl⟩

section

variable [DecidableEq Oid]

/-- The lanes `opened`, each with its parent, are opened by the commit `sha` in row `row` and column
`column`. -/
structure Opens (sha : Oid) (row column : Nat) (opened : List (Nat × Oid)) (g g' : GraphData Oid) :
    Prop where
  nodup : (opened.map Prod.fst).Nodup
  empty : ∀ x ∈ opened, g.lane x.1 = none
  opens : ∀ x ∈ opened, ∃ a, g'.lane x.1 = some a ∧ a.Waits x.1 ∧ a.child = sha ∧ a.parent = x.2 ∧
    a.startingRow = row ∧ a.startingCol = column
  other : ∀ l, l ∉ opened.map Prod.fst → g'.lane l = g.lane l
  parentToLanes : ∀ p, g'.parentToLanes p =
    g.parentToLanes p ++ (opened.filter (·.2 = p)).map Prod.fst
  commits : g'.commits = g.commits
  lines : g'.lines = g.lines
  accentColorsCount : g'.accentColorsCount = g.accentColorsCount

namespace Opens

variable {sha : Oid} {row column : Nat} {g g₁ g₂ : GraphData Oid}

theorem nil : Opens sha row column [] g g where
  nodup := nodup_nil
  empty := by simp
  opens := by simp
  other _ _ := rfl
  parentToLanes := by simp
  commits := rfl
  lines := rfl
  accentColorsCount := rfl

theorem append {xs ys : List (Nat × Oid)} (h₁ : Opens sha row column xs g g₁)
    (h₂ : Opens sha row column ys g₁ g₂) : Opens sha row column (xs ++ ys) g g₂ := by
  -- a lane that is opened is not empty, so it is not opened again
  have hdisjoint : ∀ l, l ∈ xs.map Prod.fst → l ∉ ys.map Prod.fst := by
    intro l hl hl'
    obtain ⟨x, hx, rfl⟩ := List.mem_map.mp hl
    obtain ⟨y, hy, heq⟩ := List.mem_map.mp hl'
    obtain ⟨a, ha, -⟩ := h₁.opens x hx
    have hnone := h₂.empty y hy
    rw [heq, ha] at hnone
    cases hnone
  have hempty : ∀ y ∈ ys, g.lane y.1 = none := by
    intro y hy
    rw [← h₁.other y.1 fun hx => hdisjoint _ hx (mem_map_of_mem hy)]
    exact h₂.empty y hy
  refine ⟨?_, ?_, ?_, ?_, ?_, h₂.commits.trans h₁.commits, h₂.lines.trans h₁.lines,
    h₂.accentColorsCount.trans h₁.accentColorsCount⟩
  · rw [map_append]
    exact List.Nodup.append h₁.nodup h₂.nodup fun l hx hy => hdisjoint l hx hy
  · intro x hx
    rcases List.mem_append.mp hx with hx | hx
    · exact h₁.empty x hx
    · exact hempty x hx
  · intro x hx
    rcases List.mem_append.mp hx with hx | hx
    · rw [h₂.other x.1 (hdisjoint _ (mem_map_of_mem hx))]
      exact h₁.opens x hx
    · exact h₂.opens x hx
  · intro l hl
    rw [map_append, mem_append, not_or] at hl
    exact (h₂.other l hl.2).trans (h₁.other l hl.1)
  · intro p
    rw [h₂.parentToLanes, h₁.parentToLanes, filter_append, map_append, append_assoc]

end Opens

theorem openLane_spec {l : Nat} {g g₁ : GraphData Oid} {states : List (Option (ActiveLane Oid))}
    (hg₁ : g₁ = { g with laneStates := states }) (hstates : ∀ m, (states[m]?).join = g.lane m)
    (hempty : g.lane l = none) (hl : l < states.length) (a : ActiveLane Oid) (hwaits : a.Waits l) :
    ∃ g', g₁.openLane l a = .ok g' ∧
      Opens a.child a.startingRow a.startingCol [(l, a.parent)] g g' := by
  subst hg₁
  refine ⟨_, if_pos hl, by simp, by simpa using hempty, ?_, ?_, ?_, rfl, rfl, rfl⟩
  · simp only [mem_singleton, forall_eq]
    refine ⟨a, ?_, hwaits, rfl, rfl, rfl, rfl⟩
    simp [GraphData.lane, getElem?_set_self hl]
  · intro m hm
    simp only [map_cons, map_nil, mem_singleton] at hm
    rw [GraphData.lane, getElem?_set_ne (Ne.symm hm)]
    exact hstates m
  · intro p
    by_cases hp : a.parent = p
    · subst hp
      simp
    · simp [hp, Function.update_of_ne (Ne.symm hp)]

theorem openMerges_spec (commit : Commit Oid) (row column : Nat) :
    ∀ (parents : List Oid) (g : GraphData Oid), ∃ g' opened,
      parents.foldlM (GraphData.openMerge commit row column) g = .ok g' ∧
      opened.map Prod.snd = parents ∧ Opens commit.sha row column opened g g'
  | [], g => ⟨g, [], rfl, rfl, .nil⟩
  | p :: parents, g => by
      obtain ⟨states, hg₁, hstates, hempty, hl⟩ := firstEmptyLaneIdx_spec g
      obtain ⟨g₁, hopen, hopens⟩ := openLane_spec hg₁ hstates hempty hl
        ⟨commit.sha, p, none, row, column, none, [.curve none none .merge]⟩ ⟨rfl, .inr rfl⟩
      obtain ⟨g', opened, hfold, hparents, hrest⟩ := openMerges_spec commit row column parents g₁
      refine ⟨g', (g.firstEmptyLaneIdx.1, p) :: opened, ?_, by simp [hparents],
        hopens.append hrest⟩
      rw [foldlM_cons, GraphData.openMerge]
      simp only [hopen]
      exact hfold

theorem openParents_spec (commit : Commit Oid) (row color : Nat) {column : Nat} {g : GraphData Oid}
    (hempty : g.lane column = none) (hl : column < g.laneStates.length) :
    ∃ g' opened, g.openParents commit row column color = .ok g' ∧
      opened.map Prod.snd = commit.parents ∧ Opens commit.sha row column opened g g' := by
  rw [GraphData.openParents]
  cases commit.parents with
  | nil => exact ⟨g, [], rfl, rfl, .nil⟩
  | cons p parents =>
    obtain ⟨g₁, hopen, hopens⟩ := @openLane_spec _ _ _ g g g.laneStates rfl (fun _ => rfl) hempty hl
      ⟨commit.sha, p, some color, row, column, none, [.straight none]⟩ ⟨rfl, .inl ⟨rfl, rfl⟩⟩
    obtain ⟨g', opened, hfold, hparents, hrest⟩ := openMerges_spec commit row column parents g₁
    refine ⟨g', (column, p) :: opened, ?_, by simp [hparents], hopens.append hrest⟩
    simp only [GraphData.openFirst, hopen]
    exact hfold

/-! ## A commit is added -/

/-- Everything that a round of `add_commits` does. -/
structure Added (g : GraphData Oid) (commit : Commit Oid) (lane : Nat) (opened : List (Nat × Oid))
    (g' : GraphData Oid) : Prop where
  /-- the commit goes to the first lane that waits for it, or to an empty one -/
  place : (g.parentToLanes commit.sha).head? = some lane ∨
    g.parentToLanes commit.sha = [] ∧ g.lane lane = none
  nodup : (opened.map Prod.fst).Nodup
  parents : opened.map Prod.snd = commit.parents
  /-- a lane that is opened was empty, or it waited for the commit -/
  empty : ∀ x ∈ opened, x.1 ∈ g.parentToLanes commit.sha ∨ g.lane x.1 = none
  opens : ∀ x ∈ opened, ∃ a, g'.lane x.1 = some a ∧ a.Waits x.1 ∧ a.child = commit.sha ∧
    a.parent = x.2 ∧ a.startingRow = g.commits.length ∧ a.startingCol = lane
  closes : ∀ l ∈ g.parentToLanes commit.sha, l ∉ opened.map Prod.fst → g'.lane l = none
  other : ∀ l, l ∉ g.parentToLanes commit.sha → l ∉ opened.map Prod.fst → g'.lane l = g.lane l
  parentToLanes : ∀ p, g'.parentToLanes p = (if p = commit.sha then [] else g.parentToLanes p) ++
    (opened.filter (·.2 = p)).map Prod.fst
  lines : ∃ newLines, g'.lines = g.lines ++ newLines ∧
    List.Forall₂ (fun l line => ∃ a, g.lane l = some a ∧ IsLine a l g.commits.length lane line)
      (g.parentToLanes commit.sha) newLines
  commits : ∃ color, g'.commits = g.commits ++ [⟨commit, lane, color⟩]
  accentColorsCount : g'.accentColorsCount = g.accentColorsCount

/-- The graph in which the lanes that wait for a commit are closed. -/
def taken (g : GraphData Oid) (sha : Oid) (states : List (Option (ActiveLane Oid)))
    (colors : List (Nat × Nat)) (next : Nat) : GraphData Oid :=
  { g with
    laneStates := states
    laneColors := colors
    nextColor := next
    parentToLanes := Function.update g.parentToLanes sha [] }

/-- The end of a round. -/
def pushed (g : GraphData Oid) (commit : Commit Oid) (lane color : Nat) : GraphData Oid :=
  { g with
    maxLanes := max g.maxLanes g.laneStates.length
    commits := g.commits ++ [⟨commit, lane, color⟩] }

theorem addCommit_eq {g : GraphData Oid} {commit : Commit Oid} {lane color next : Nat}
    {states : List (Option (ActiveLane Oid))} {colors : List (Nat × Nat)}
    (hlane : g.commitLane commit.sha = (lane, { g with laneStates := states }))
    (hcolor : GraphData.getLaneColor { g with laneStates := states } lane =
      .ok (color, { g with laneStates := states, laneColors := colors, nextColor := next }))
    {g₁ g₂ : GraphData Oid}
    (hclose : (g.parentToLanes commit.sha).foldlM
      (GraphData.closeLane g.commits.length lane color) (taken g commit.sha states colors next) =
      .ok g₁)
    (hopen : g₁.openParents commit g.commits.length lane color = .ok g₂) :
    g.addCommit commit = .ok (pushed g₂ commit lane color) := by
  rw [GraphData.addCommit, hlane]
  simp only [hcolor]
  change ((g.parentToLanes commit.sha).foldlM (GraphData.closeLane g.commits.length lane color)
    (taken g commit.sha states colors next) >>= fun g₁ =>
      g₁.openParents commit g.commits.length lane color >>= fun g₂ =>
        .ok (pushed g₂ commit lane color)) = _
  rw [hclose]
  change (g₁.openParents commit g.commits.length lane color >>= _) = _
  rw [hopen]
  rfl

theorem added_of_opens {g g' : GraphData Oid} {commit : Commit Oid} {lane color next : Nat}
    {states states₂ : List (Option (ActiveLane Oid))} {colors : List (Nat × Nat)}
    {newLines : List (CommitLine Oid)} {opened : List (Nat × Oid)}
    (hplace : (g.parentToLanes commit.sha).head? = some lane ∨
      g.parentToLanes commit.sha = [] ∧ g.lane lane = none)
    (hview : ∀ l, (states₂[l]?).join = if l ∈ g.parentToLanes commit.sha then none else g.lane l)
    (hlines : List.Forall₂
      (fun l line => ∃ a, g.lane l = some a ∧ IsLine a l g.commits.length lane line)
      (g.parentToLanes commit.sha) newLines)
    (hparents : opened.map Prod.snd = commit.parents)
    (hopens : Opens commit.sha g.commits.length lane opened
      (closed (taken g commit.sha states colors next) states₂ newLines) g') :
    Added g commit lane opened (pushed g' commit lane color) where
  place := hplace
  nodup := hopens.nodup
  parents := hparents
  empty := by
    intro x hx
    by_cases hmem : x.1 ∈ g.parentToLanes commit.sha
    · exact .inl hmem
    · have hnone := (hview x.1).symm.trans (hopens.empty x hx)
      rw [if_neg hmem] at hnone
      exact .inr hnone
  opens := hopens.opens
  closes := by
    intro l hl hnot
    refine (hopens.other l hnot).trans ((hview l).trans ?_)
    rw [if_pos hl]
  other := by
    intro l hl hnot
    refine (hopens.other l hnot).trans ((hview l).trans ?_)
    rw [if_neg hl]
  parentToLanes := by
    intro p
    refine (hopens.parentToLanes p).trans ?_
    congr 1
    change Function.update g.parentToLanes commit.sha [] p = _
    rw [Function.update_apply]
  lines := ⟨newLines, hopens.lines, hlines⟩
  commits := by
    refine ⟨color, ?_⟩
    change g'.commits ++ _ = _
    rw [hopens.commits]
    rfl
  accentColorsCount := hopens.accentColorsCount

theorem addCommit_spec {g : GraphData Oid} {commit : Commit Oid}
    (hnodup : (g.parentToLanes commit.sha).Nodup)
    (hclosable : ∀ l ∈ g.parentToLanes commit.sha,
      Closable g g.commits.length (g.commitLane commit.sha).1 l) :
    (g.addCommit commit = .error .remainder ∧ g.accentColorsCount % 256 = 0) ∨
      ∃ g' opened, g.addCommit commit = .ok g' ∧
        Added g commit (g.commitLane commit.sha).1 opened g' := by
  obtain ⟨states, hg₁, hview, hlt, hplace⟩ := @commitLane_spec _ g commit.sha
    fun l hl => (hclosable l hl).imp fun _ h => h.1
  have hlane : g.commitLane commit.sha =
      ((g.commitLane commit.sha).1, { g with laneStates := states }) := by rw [← hg₁]
  generalize (g.commitLane commit.sha).1 = lane at *
  rcases getLaneColor_spec { g with laneStates := states } lane with ⟨herr, hzero⟩ |
    ⟨color, colors, next, hcolor⟩
  · left
    refine ⟨?_, hzero⟩
    rw [GraphData.addCommit, hlane]
    simp only [herr]
    rfl
  · right
    -- the lanes that wait for the commit are closed
    obtain ⟨states₂, newLines, hclose, hlen, hview₂, hlines⟩ :=
      closeLanes_spec g.commits.length lane color (g.parentToLanes commit.sha)
        (taken g commit.sha states colors next) hnodup fun l hl =>
          (hclosable l hl).imp fun a ha => ⟨(hview l).trans ha.1, ha.2⟩
    have hview₃ : ∀ l, (states₂[l]?).join =
        if l ∈ g.parentToLanes commit.sha then none else g.lane l := by
      intro l
      rw [hview₂, ← hview]
      rfl
    have hempty : (states₂[lane]?).join = none := by
      rw [hview₃]
      rcases hplace with hhead | ⟨-, hnone⟩
      · rw [if_pos (mem_of_mem_head? hhead)]
      · rw [hnone, ite_self]
    -- and the parents get theirs
    obtain ⟨g', opened, hopen, hparents, hopens⟩ :=
      @openParents_spec _ _ commit g.commits.length color lane
        (closed (taken g commit.sha states colors next) states₂ newLines) hempty
        (Nat.lt_of_lt_of_eq hlt hlen.symm)
    refine ⟨_, opened, addCommit_eq hlane hcolor hclose hopen,
      added_of_opens hplace hview₃ ?_ hparents hopens⟩
    refine hlines.imp ?_
    rintro l line ⟨a, ha, hline⟩
    exact ⟨a, (hview l).symm.trans ha, hline⟩

end

end SpkEditor.Graph
