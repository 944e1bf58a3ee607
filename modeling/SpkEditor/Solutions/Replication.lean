import Mathlib.Data.Finset.Basic
import SpkEditor.Solutions.Config
import SpkEditor.Lib.Run

/-!
# Replicating the open solutions

A client takes a snapshot of the workspace and follows it by the numbered events
(`workspace_events/src/snapshot.rs`, `editor_mcp/src/workspace_seq.rs`). Which solutions are
open is a set of its own beside the list of solutions (`open_solutions` in
`solutions/src/store.rs`), and the snapshot shows what is in both.

Deleting a solution announces it and leaves its id in the set. A later solution of the same
slug is then open from the start, and nobody is told.
-/

namespace SpkEditor.Solutions

open List

inductive WorkspaceEvent where
  /-- `workspace.solution_opened`; the solution is null if the store does not know it. -/
  | solutionOpened (solution : Option (List Char))
  | solutionClosed (id : List Char)
  | solutionDeleted (id : List Char)
  /-- An event about a session. -/
  | session

/-- The store with the coordinator's counter and the notifications sent so far. -/
structure Workspace where
  config : Config
  openSolutions : Finset (List Char)
  seq : Nat
  sent : List (Nat × WorkspaceEvent)

/-- A workspace after startup: nothing is open and nothing was sent. -/
def Workspace.load (config : Config) : Workspace := ⟨config, ∅, 0, []⟩

/-- `next_seq` and the notification. -/
def Workspace.emit (w : Workspace) (e : WorkspaceEvent) : Workspace :=
  { w with seq := w.seq + 1, sent := w.sent ++ [(w.seq + 1, e)] }

/-- What is done to the workspace. A call that touches the disk or the database says
whether that worked. -/
inductive WorkspaceOp where
  | create (name : List Char) (rootBase : Path) (dirOk dbOk : Bool)
  | rename (id newName : List Char)
  | delete (id : List Char) (dbOk : Bool)
  | markOpen (id : List Char)
  | markClosed (id : List Char)
  /-- A session is opened, closed or changes its state. -/
  | session

namespace Workspace

variable (sha : List Char → Nat) (w : Workspace)

/-- `create_solution`: a failing write to the database leaves the solution in memory. -/
def create (name : List Char) (rootBase : Path) (dirOk : Bool) : Workspace :=
  if dirOk then { w with config := (w.config.createSolution sha name rootBase).2 } else w

/-- `rename_solution`. -/
def rename (id newName : List Char) : Workspace :=
  { w with config := ((w.config.renameSolution id newName).map (·.2)).getD w.config }

/-- `delete_solution`: the solution goes, and then the row and the event; a failing write
returns in between. -/
def delete (id : List Char) (dbOk : Bool) : Workspace :=
  match w.config.deleteSolution id with
  | none => w
  | some config =>
    if dbOk then { w with config }.emit (.solutionDeleted id) else { w with config }

/-- `mark_open`. -/
def markOpen (id : List Char) : Workspace :=
  if id ∈ w.openSolutions then w
  else
    { w with openSolutions := insert id w.openSolutions }.emit
      (.solutionOpened ((w.config.find id).map Solution.id))

/-- `mark_closed`. -/
def markClosed (id : List Char) : Workspace :=
  if id ∈ w.openSolutions then
    { w with openSolutions := w.openSolutions.erase id }.emit (.solutionClosed id)
  else w

def step : WorkspaceOp → Workspace
  | .create name rootBase dirOk _ => w.create sha name rootBase dirOk
  | .rename id newName => w.rename id newName
  | .delete id dbOk => w.delete id dbOk
  | .markOpen id => w.markOpen id
  | .markClosed id => w.markClosed id
  | .session => w.emit .session

def run (ops : List WorkspaceOp) : Workspace := ops.foldl (step sha) w

/-- The ids of `build_snapshot`: the solutions the store knows and has open. -/
def snapshotIds : Finset (List Char) :=
  (w.config.solutionIds.filter (· ∈ w.openSolutions)).toFinset

end Workspace

def WorkspaceEvent.apply (ids : Finset (List Char)) : WorkspaceEvent → Finset (List Char)
  | .solutionOpened (some id) => insert id ids
  | .solutionOpened none => ids
  | .solutionClosed id => ids.erase id
  | .solutionDeleted id => ids.erase id
  | .session => ids

/-- The events behind a sequence number, applied in order. -/
def replay (ids : Finset (List Char)) (seq : Nat) (sent : List (Nat × WorkspaceEvent)) :
    Finset (List Char) :=
  ((sent.filter (seq < ·.1)).map (·.2)).foldl WorkspaceEvent.apply ids

/-- The operation announces what it changes: a new solution is not open already, and an
open one does not go with a failing write. -/
def Announced (sha : List Char → Nat) (w : Workspace) : WorkspaceOp → Prop
  | .create name rootBase dirOk _ =>
    dirOk = true → (w.config.createSolution sha name rootBase).1.id ∉ w.openSolutions
  | .delete id dbOk => dbOk = true ∨ id ∉ w.openSolutions
  | _ => True

/-- Every operation of a run, in the state it starts from, announces what it changes. -/
def AllAnnounced (sha : List Char → Nat) : Workspace → List WorkspaceOp → Prop
  | _, [] => True
  | w, op :: ops => Announced sha w op ∧ AllAnnounced sha (w.step sha op) ops

/-! ## One operation -/

section

variable {sha : List Char → Nat} {w : Workspace}

theorem mem_snapshotIds {id : List Char} :
    id ∈ w.snapshotIds ↔ id ∈ w.config.solutionIds ∧ id ∈ w.openSolutions := by
  simp [Workspace.snapshotIds]

/-- The events of one operation: at most one, with the next number. -/
def newEvents (w : Workspace) (w' : Workspace) (es : List WorkspaceEvent) : Prop :=
  es.length ≤ 1 ∧ w'.seq = w.seq + es.length ∧ w'.sent = w.sent ++ es.map fun e => (w.seq + 1, e)

theorem newEvents_nil {w' : Workspace} (hseq : w'.seq = w.seq) (hsent : w'.sent = w.sent) :
    newEvents w w' [] := by
  simp [newEvents, hseq, hsent]

theorem newEvents_emit {v : Workspace} (hseq : v.seq = w.seq) (hsent : v.sent = w.sent)
    (e : WorkspaceEvent) : newEvents w (v.emit e) [e] := by
  simp [newEvents, Workspace.emit, hseq, hsent]

theorem mem_solutionIds_of_find {c : Config} {id : List Char} {s : Solution}
    (h : c.find id = some s) : s.id = id ∧ id ∈ c.solutionIds := by
  have hid : s.id = id := by simpa using find?_some h
  exact ⟨hid, hid ▸ List.mem_map.mpr ⟨s, mem_of_find?_eq_some h, rfl⟩⟩

theorem find_eq_none {c : Config} {id : List Char} (h : c.find id = none) : id ∉ c.solutionIds := by
  intro hm
  obtain ⟨s, hs, rfl⟩ := List.mem_map.mp hm
  have := List.find?_eq_none.mp h s hs
  simp at this

/-- The operation from `w` to `w'` sends at most one event, and under `h` the event takes the
snapshot along. -/
def Follows (w w' : Workspace) (h : Prop) : Prop :=
  ∃ es, newEvents w w' es ∧ (h → w'.snapshotIds = es.foldl WorkspaceEvent.apply w.snapshotIds)

theorem create_follows (name : List Char) (rootBase : Path) (dirOk : Bool) :
    Follows w (w.create sha name rootBase dirOk)
      (dirOk = true → (w.config.createSolution sha name rootBase).1.id ∉ w.openSolutions) := by
  cases dirOk with
  | false => exact ⟨[], newEvents_nil rfl rfl, fun _ => rfl⟩
  | true =>
    refine ⟨[], newEvents_nil rfl rfl, fun h => ?_⟩
    have hids : (w.create sha name rootBase true).config.solutionIds =
        w.config.solutionIds ++ [(w.config.createSolution sha name rootBase).1.id] := by
      simp [Workspace.create, Config.createSolution, Config.solutionIds]
    ext id
    rw [foldl_nil, mem_snapshotIds, mem_snapshotIds, hids]
    constructor
    · rintro ⟨hm, ho⟩
      rcases List.mem_append.mp hm with hm | hm
      · exact ⟨hm, ho⟩
      · obtain rfl := List.mem_singleton.mp hm
        exact absurd ho (h rfl)
    · rintro ⟨hm, ho⟩
      exact ⟨mem_append_left _ hm, ho⟩

theorem rename_follows (id newName : List Char) : Follows w (w.rename id newName) True := by
  refine ⟨[], newEvents_nil rfl rfl, fun _ => ?_⟩
  have hids : (w.rename id newName).config.solutionIds = w.config.solutionIds := by
    rw [Workspace.rename]
    cases hf : w.config.find id with
    | none => simp [Config.renameSolution, hf]
    | some s =>
      simp only [Config.renameSolution, hf, Option.map_some, Option.getD_some]
      exact Config.solutionIds_update _ _ fun _ => rfl
  rw [Workspace.snapshotIds, hids]
  rfl

theorem delete_follows (id : List Char) (dbOk : Bool) :
    Follows w (w.delete id dbOk) (dbOk = true ∨ id ∉ w.openSolutions) := by
  rw [Workspace.delete, Config.deleteSolution]
  by_cases hm : id ∈ w.config.solutionIds
  · rw [if_pos hm]
    have hids : ∀ id', id' ∈ (w.config.solutions.filter (·.id ≠ id)).map (·.id) ↔
        id' ∈ w.config.solutionIds ∧ id' ≠ id := by
      intro id'
      simp only [Config.solutionIds, mem_map, mem_filter, decide_eq_true_eq]
      constructor
      · rintro ⟨s, ⟨hs, hne⟩, rfl⟩
        exact ⟨⟨s, hs, rfl⟩, hne⟩
      · rintro ⟨⟨s, hs, rfl⟩, hne⟩
        exact ⟨s, ⟨hs, hne⟩, rfl⟩
    cases dbOk with
    | true =>
      refine ⟨[.solutionDeleted id], newEvents_emit rfl rfl _, fun _ => ?_⟩
      ext id'
      simp only [foldl_cons, foldl_nil, WorkspaceEvent.apply, Finset.mem_erase, mem_snapshotIds]
      refine (and_congr_left' (hids id')).trans ?_
      tauto
    | false =>
      refine ⟨[], newEvents_nil rfl rfl, fun h => ?_⟩
      rcases h with h | h
      · simp at h
      · ext id'
        rw [foldl_nil, mem_snapshotIds, mem_snapshotIds]
        refine (and_congr_left' (hids id')).trans ?_
        constructor
        · rintro ⟨⟨hm', -⟩, ho⟩
          exact ⟨hm', ho⟩
        · rintro ⟨hm', ho⟩
          exact ⟨⟨hm', fun he => h (he ▸ ho)⟩, ho⟩
  · rw [if_neg hm]
    exact ⟨[], newEvents_nil rfl rfl, fun _ => rfl⟩

theorem markOpen_follows (id : List Char) : Follows w (w.markOpen id) True := by
  rw [Workspace.markOpen]
  by_cases ho : id ∈ w.openSolutions
  · rw [if_pos ho]
    exact ⟨[], newEvents_nil rfl rfl, fun _ => rfl⟩
  · rw [if_neg ho]
    refine ⟨[_], newEvents_emit rfl rfl _, fun _ => ?_⟩
    ext id'
    rw [foldl_cons, foldl_nil, mem_snapshotIds]
    simp only [Workspace.emit, Finset.mem_insert]
    cases hf : w.config.find id with
    | none =>
      -- the store does not know it, and the snapshot does not show it
      have hno := find_eq_none hf
      simp only [Option.map_none, WorkspaceEvent.apply, mem_snapshotIds]
      constructor
      · rintro ⟨hm, rfl | ho'⟩
        · exact absurd hm hno
        · exact ⟨hm, ho'⟩
      · rintro ⟨hm, ho'⟩
        exact ⟨hm, .inr ho'⟩
    | some s =>
      obtain ⟨hid, hm⟩ := mem_solutionIds_of_find hf
      simp only [Option.map_some, WorkspaceEvent.apply, Finset.mem_insert, mem_snapshotIds, hid]
      constructor
      · rintro ⟨hm', rfl | ho'⟩
        · exact .inl rfl
        · exact .inr ⟨hm', ho'⟩
      · rintro (rfl | ⟨hm', ho'⟩)
        · exact ⟨hm, .inl rfl⟩
        · exact ⟨hm', .inr ho'⟩

theorem markClosed_follows (id : List Char) : Follows w (w.markClosed id) True := by
  rw [Workspace.markClosed]
  by_cases ho : id ∈ w.openSolutions
  · rw [if_pos ho]
    refine ⟨[.solutionClosed id], newEvents_emit rfl rfl _, fun _ => ?_⟩
    ext id'
    simp only [Workspace.emit, foldl_cons, foldl_nil, WorkspaceEvent.apply,
      Finset.mem_erase, mem_snapshotIds]
    tauto
  · rw [if_neg ho]
    exact ⟨[], newEvents_nil rfl rfl, fun _ => rfl⟩

/-- **Every operation that announces what it changes takes the snapshot along.** -/
theorem step_follows (op : WorkspaceOp) : Follows w (w.step sha op) (Announced sha w op) := by
  cases op with
  | create name rootBase dirOk dbOk => exact create_follows name rootBase dirOk
  | rename id newName => exact rename_follows id newName
  | delete id dbOk => exact delete_follows id dbOk
  | markOpen id => exact markOpen_follows id
  | markClosed id => exact markClosed_follows id
  | session => exact ⟨[.session], newEvents_emit rfl rfl _, fun _ => rfl⟩

theorem run_events (ops : List WorkspaceOp) : ∃ new, (w.run sha ops).sent = w.sent ++ new ∧
      new.map Prod.fst = List.range' (w.seq + 1) new.length ∧
      (w.run sha ops).seq = w.seq + new.length ∧
      (AllAnnounced sha w ops → (w.run sha ops).snapshotIds =
        (new.map Prod.snd).foldl WorkspaceEvent.apply w.snapshotIds) := by
  induction ops generalizing w with
  | nil => exact ⟨[], by simp [Workspace.run]⟩
  | cons op ops ih =>
    obtain ⟨es, ⟨hlen, hseq, hsent⟩, hsnap⟩ := @step_follows sha w op
    obtain ⟨new, hsent', hnum, hseq', hsnap'⟩ := ih (w := w.step sha op)
    refine ⟨es.map (fun e => (w.seq + 1, e)) ++ new, ?_, ?_, ?_, ?_⟩
    · rw [← append_assoc, ← hsent]
      exact hsent'
    · -- the operation took one number or none
      rw [map_append, hnum, hseq]
      match es, hlen with
      | [], _ => simp
      | [e], _ => simp [range'_succ, add_comm]
    · have : (w.run sha (op :: ops)).seq = w.seq + es.length + new.length := by
        rw [← hseq]
        exact hseq'
      rw [this, length_append, length_map]
      omega
    · intro h
      have : (w.run sha (op :: ops)).snapshotIds = _ := hsnap' h.2
      rw [this, hsnap h.1, map_append, foldl_append, map_map]
      congr 2
      exact (map_id' es).symm

end

theorem allAnnounced_append {sha : List Char → Nat} {w : Workspace} {ops₁ ops₂ : List WorkspaceOp}
    (h : AllAnnounced sha w (ops₁ ++ ops₂)) : AllAnnounced sha (w.run sha ops₁) ops₂ := by
  induction ops₁ generalizing w with
  | nil => exact h
  | cons op ops ih => exact ih h.2

/-- **The open solutions are replicated**: the numbers sent are 1, 2, 3 and so on, and a
snapshot followed by the events behind it gives every later snapshot. -/
theorem open_solutions_replicated (sha : List Char → Nat) (config : Config)
    (ops₁ ops₂ : List WorkspaceOp)
    (h : AllAnnounced sha (Workspace.load config) (ops₁ ++ ops₂)) :
    (((Workspace.load config).run sha ops₁).run sha ops₂).sent.map Prod.fst =
        List.range' 1 (((Workspace.load config).run sha ops₁).run sha ops₂).seq ∧
      replay ((Workspace.load config).run sha ops₁).snapshotIds
          ((Workspace.load config).run sha ops₁).seq
          (((Workspace.load config).run sha ops₁).run sha ops₂).sent =
        (((Workspace.load config).run sha ops₁).run sha ops₂).snapshotIds := by
  obtain ⟨new₁, hsent₁, hnum₁, hseq₁, -⟩ :=
    @run_events sha (Workspace.load config) ops₁
  obtain ⟨new₂, hsent₂, hnum₂, hseq₂, hsnap₂⟩ :=
    @run_events sha ((Workspace.load config).run sha ops₁) ops₂
  have hs₁ : ((Workspace.load config).run sha ops₁).sent = new₁ := hsent₁
  have hq₁ : ((Workspace.load config).run sha ops₁).seq = new₁.length := by
    rw [hseq₁]
    exact zero_add _
  have hn₁ : new₁.map Prod.fst = List.range' 1 new₁.length := hnum₁
  rw [hq₁] at hnum₂ hseq₂
  constructor
  · rw [hsent₂, hs₁, hseq₂, map_append, hn₁, hnum₂, add_comm new₁.length 1, range'_append_1]
  · -- what was sent before the snapshot has a smaller number, what came after a larger one
    have hold : new₁.filter (fun p => decide (new₁.length < p.1)) = [] := by
      rw [filter_eq_nil_iff]
      intro p hp
      have : p.1 ∈ List.range' 1 new₁.length := hn₁ ▸ List.mem_map.mpr ⟨p, hp, rfl⟩
      rw [mem_range'_1] at this
      simp
      omega
    have hnew : new₂.filter (fun p => decide (new₁.length < p.1)) = new₂ := by
      rw [filter_eq_self]
      intro p hp
      have : p.1 ∈ List.range' (new₁.length + 1) new₂.length :=
        hnum₂ ▸ List.mem_map.mpr ⟨p, hp, rfl⟩
      rw [mem_range'_1] at this
      simp
      omega
    rw [replay, hsent₂, hs₁, hq₁, filter_append, hold, hnew, nil_append]
    exact (hsnap₂ (allAnnounced_append h)).symm

def opensWeb : List WorkspaceOp :=
  [.create "Web".toList ["home".toUTF8.toList] true true, .markOpen "web".toList]

theorem open_solutions_replicated_closing :
    replay ((Workspace.load ⟨[], []⟩).run (fun _ => 0) opensWeb).snapshotIds 1
        (((Workspace.load ⟨[], []⟩).run (fun _ => 0) opensWeb).run (fun _ => 0)
          [.markClosed "web".toList]).sent = ∅ := by
  have h := (open_solutions_replicated (fun _ => 0) ⟨[], []⟩ opensWeb [.markClosed "web".toList]
    (by refine ⟨fun _ => ?_, trivial, trivial, trivial⟩; decide)).2
  exact h.trans (by decide)

/-- The solution is deleted while it is open, and one of the same name is created: the
snapshot shows it open, and no event has said so. -/
theorem open_solutions_diverge_after_delete :
    replay ((Workspace.load ⟨[], []⟩).run (fun _ => 0) opensWeb).snapshotIds
        ((Workspace.load ⟨[], []⟩).run (fun _ => 0) opensWeb).seq
        (((Workspace.load ⟨[], []⟩).run (fun _ => 0) opensWeb).run (fun _ => 0)
          [.delete "web".toList true, .create "Web".toList ["home".toUTF8.toList] true true]).sent ≠
      (((Workspace.load ⟨[], []⟩).run (fun _ => 0) opensWeb).run (fun _ => 0)
        [.delete "web".toList true,
          .create "Web".toList ["home".toUTF8.toList] true true]).snapshotIds := by
  decide

end SpkEditor.Solutions
