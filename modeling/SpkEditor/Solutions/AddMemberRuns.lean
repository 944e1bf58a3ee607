import Mathlib.Algebra.Order.BigOperators.Group.Finset
import SpkEditor.Solutions.AddMemberInv

/-!
# What holds of the adds along a run

The store answers for its members as long as it stays away from what its two looks at the
flag and its table of records cannot see: a cancellation behind the second look, a record
dropped without its flag, an add repeated while the cancelled one still runs, and an empty
member under the name of an add in flight. `AddOp.Harmless` says that of a step; every run
of harmless steps keeps `AddState.Inv`, and the invariant gives the properties.
-/

namespace SpkEditor.Solutions

open List Option

/-! ## Harmless steps -/

/-- What the store's bookkeeping can cope with, of a step in the state before it.

A cancellation comes while the task has still to look at its flag or has failed, and before
the failure was told. An entry is cascaded away when none of its adds is in progress. An
add is accepted when no cancelled add of the same entry to the same solution still runs. An
empty member takes no id that a task can still wipe or push. -/
def AddOp.Harmless (sha : List Char → Nat) (s : AddState) : AddOp → Prop
  | .addMember sid cid => ∀ t task, s.tasks t = some task → task.key = (sid, cid) →
      (s.accepts sid cid).isSome → task.stage = .ended
  | .cancelAddMember sid cid => ∀ r, s.inFlight (sid, cid) = some r → r.error = none ∧
      ∀ task, s.tasks r.add = some task → ¬ task.pastChecks
  | .removeCatalogProjectCascade id => id ∈ s.config.catalogIds → ∀ k r, s.inFlight k = some r →
      k.2 = id → r.error.isSome
  | .addEmptyMember sid name created => ∀ m p c,
      s.config.addEmptyMember sha sid name = some (m, p, c) → created →
      ∀ t task, s.tasks t = some task → task.canAct → task.solutionId = sid →
        task.catalogId ≠ m.catalogId
  | _ => True

theorem AddState.Inv.step {sha : List Char → Nat} {s s' : AddState} {op : AddOp} (h : s.Inv)
    (hop : op.Harmless sha s) (hs : s.step sha op = some s') : s'.Inv := by
  cases op with
  | addMember sid cid =>
    cases hs
    exact h.addMember hop
  | cancelAddMember sid cid =>
    cases hs
    exact h.cancelAddMember hop
  | clearFailedAdd sid cid =>
    cases hs
    exact h.clearFailedAdd
  | addEmptyMember sid name created =>
    cases hs
    exact h.addEmptyMember hop
  | removeMember sid cid =>
    cases hs
    exact h.withConfig fun c => Config.shrinks_removeMember
  | removeCatalogProject id =>
    cases hs
    exact h.withConfig fun c => Config.shrinks_removeCatalogProject
  | removeCatalogProjectCascade id =>
    cases hs
    exact h.removeCatalogProjectCascade hop
  | deleteSolution id =>
    cases hs
    exact h.withConfig fun c => Config.shrinks_deleteSolution
  | acquire t => exact h.acquire hs
  | cached t error targetExists => exact h.cached hs
  | wiped t error => exact h.wiped hs
  | cloned t error => exact h.cloned hs
  | settled t error => exact h.settled hs
  | finish t => exact h.finish hs

abbrev HarmlessRun (sha : List Char → Nat) : AddState → List AddOp → AddState → Prop :=
  Run fun s op s' => op.Harmless sha s ∧ s.step sha op = some s'

theorem AddState.Inv.run {sha : List Char → Nat} {s s' : AddState} {ops : List AddOp} (h : s.Inv)
    (hrun : HarmlessRun sha s ops s') : s'.Inv :=
  hrun.keeps (fun _ _ _ hx hs => hx.step hs.1 hs.2) h

namespace AddState

/-! ## The tasks come to an end -/

/-- How many waits a task has before it at most. -/
def waits : Stage → Nat
  | .queued => 6
  | .caching => 5
  | .wiping => 4
  | .cloning => 3
  | .settling => 2
  | .completing _ => 1
  | .ended => 0

def taskWaits (s : AddState) (t : Nat) : Nat := (s.tasks t).elim 0 fun task => waits task.stage

/-- The waits of all tasks together. -/
def remaining (s : AddState) : Nat := ∑ t ∈ Finset.range s.accepted, s.taskWaits t

variable {sha : List Char → Nat} {s s' : AddState}

theorem tasks_of_taskStep {op : AddOp} (hop : op.task?.isSome) (hs : s.step sha op = some s') :
    ∃ t task stage, s.tasks t = some task ∧ waits stage < waits task.stage ∧
      s'.accepted = s.accepted ∧ s'.tasks = Function.update s.tasks t (some { task with stage := stage }) := by
  cases op with
  | acquire t =>
    simp only [step, acquire] at hs
    split at hs
    · obtain ⟨task, ht, hstage, rfl⟩ := eq_of_fromStage hs
      exact ⟨t, task, .caching, ht, by simp [hstage, waits], rfl, rfl⟩
    · simp at hs
  | cached t error targetExists =>
    obtain ⟨task, ht, hstage, rfl⟩ := eq_of_fromStage hs
    cases error with
    | some e => exact ⟨t, task, .completing (some e), ht, by simp [hstage, waits], rfl, rfl⟩
    | none =>
      by_cases hc : task.cancelFlag
      · simp only [hc, if_true]
        exact ⟨t, task, .completing (some cancelledText), ht, by simp [hstage, waits], rfl, rfl⟩
      · simp only [hc]
        refine ⟨t, task, if targetExists then .wiping else .cloning, ht, ?_, rfl, rfl⟩
        cases targetExists <;> simp [hstage, waits]
  | wiped t error =>
    obtain ⟨task, ht, hstage, rfl⟩ := eq_of_fromStage hs
    cases error with
    | some e => exact ⟨t, task, .completing (some e), ht, by simp [hstage, waits], rfl, rfl⟩
    | none => exact ⟨t, task, .cloning, ht, by simp [hstage, waits], rfl, rfl⟩
  | cloned t error =>
    obtain ⟨task, ht, hstage, rfl⟩ := eq_of_fromStage hs
    cases error with
    | some e => exact ⟨t, task, .completing (some e), ht, by simp [hstage, waits], rfl, rfl⟩
    | none =>
      by_cases hc : task.cancelFlag
      · simp only [hc, if_true]
        exact ⟨t, task, .completing (some cancelledText), ht, by simp [hstage, waits], rfl, rfl⟩
      · simp only [hc]
        exact ⟨t, task, .settling, ht, by simp [hstage, waits], rfl, rfl⟩
  | settled t error =>
    obtain ⟨task, ht, hstage, rfl⟩ := eq_of_fromStage hs
    exact ⟨t, task, .completing error, ht, by simp [hstage, waits], rfl, rfl⟩
  | finish t =>
    simp only [step, finish, bind_eq_some_iff] at hs
    obtain ⟨task, ht, hs⟩ := hs
    refine ⟨t, task, .ended, ht, ?_⟩
    split at hs
    · rename_i hstage
      cases hs
      refine ⟨by simp [hstage, waits], ?_⟩
      rw [complete]
      cases s.config.pushMember task.solutionId ⟨task.catalogId, task.target⟩ <;> exact ⟨rfl, rfl⟩
    · rename_i e hstage
      cases hs
      refine ⟨by simp [hstage, waits], ?_⟩
      rw [fail]
      cases s.inFlight task.key <;> exact ⟨rfl, rfl⟩
    · simp at hs
  | addMember sid cid => simp [AddOp.task?] at hop
  | cancelAddMember sid cid => simp [AddOp.task?] at hop
  | clearFailedAdd sid cid => simp [AddOp.task?] at hop
  | addEmptyMember sid name created => simp [AddOp.task?] at hop
  | removeMember sid cid => simp [AddOp.task?] at hop
  | removeCatalogProject id => simp [AddOp.task?] at hop
  | removeCatalogProjectCascade id => simp [AddOp.task?] at hop
  | deleteSolution id => simp [AddOp.task?] at hop

theorem Inv.remaining_lt {op : AddOp} (h : s.Inv) (hop : op.task?.isSome)
    (hs : s.step sha op = some s') : s'.remaining < s.remaining := by
  obtain ⟨t, task, stage, ht, hlt, hacc, htasks⟩ := tasks_of_taskStep hop hs
  have hself : s'.taskWaits t < s.taskWaits t := by simpa [taskWaits, htasks, ht] using hlt
  have hle : ∀ u, s'.taskWaits u ≤ s.taskWaits u := by
    intro u
    by_cases hu : u = t
    · rw [hu]
      exact hself.le
    · simp [taskWaits, htasks, hu]
  rw [remaining, remaining, hacc]
  exact Finset.sum_lt_sum (fun u _ => hle u)
    ⟨t, Finset.mem_range.mpr (h.lt_accepted ht), hself⟩

theorem harmless_of_task {op : AddOp} (hop : op.task?.isSome) : op.Harmless sha s := by
  cases op <;> trivial

/-- **The tasks stop**: a run of their steps is no longer than the waits before them. -/
theorem Inv.taskRun {ops : List AddOp} (h : s.Inv) (hops : ∀ op ∈ ops, op.task?.isSome)
    (hrun : AddRun sha s ops s') :
    s'.Inv ∧ s'.accepted = s.accepted ∧ ops.length + s'.remaining ≤ s.remaining := by
  induction hrun with
  | nil => exact ⟨h, rfl, by simp⟩
  | cons hs _ ih =>
    have hop := hops _ (mem_cons_self ..)
    have h' := h.step (harmless_of_task hop) hs
    have hlt := h.remaining_lt hop hs
    obtain ⟨-, -, -, -, -, hacc, -⟩ := tasks_of_taskStep hop hs
    obtain ⟨hinv, hacc', hle⟩ := ih h' fun op hop' => hops op (mem_cons_of_mem _ hop')
    refine ⟨hinv, hacc'.trans hacc, ?_⟩
    rw [length_cons]
    omega

theorem exists_step_atWork {t : Nat} {task : AddTask} (ht : s.tasks t = some task)
    (hw : task.atWork) : ∃ op : AddOp, op.task?.isSome ∧ s.step sha op ≠ none := by
  cases hstage : task.stage with
  | caching =>
    exact ⟨.cached t (some []) false, rfl, by simp [step, cached, fromStage, ht, hstage]⟩
  | wiping => exact ⟨.wiped t (some []), rfl, by simp [step, wiped, fromStage, ht, hstage]⟩
  | cloning => exact ⟨.cloned t (some []), rfl, by simp [step, cloned, fromStage, ht, hstage]⟩
  | settling => exact ⟨.settled t none, rfl, by simp [step, settled, fromStage, ht, hstage]⟩
  | queued => simp [AddTask.atWork, hstage] at hw
  | completing error => simp [AddTask.atWork, hstage] at hw
  | ended => simp [AddTask.atWork, hstage] at hw

/-- **No task is left waiting**: while one has not ended, one of them has a step. -/
theorem Inv.ended_of_stuck (h : s.Inv) (hstuck : ∀ op, op.task?.isSome → s.step sha op = none)
    {t : Nat} {task : AddTask} (ht : s.tasks t = some task) : task.stage = .ended := by
  have hwork : ∀ {u task'}, s.tasks u = some task' → ¬ task'.atWork := by
    intro u task' hu hw
    obtain ⟨op, hop, hne⟩ : ∃ op : AddOp, op.task?.isSome ∧ s.step sha op ≠ none :=
      exists_step_atWork hu hw
    exact hne (hstuck op hop)
  cases hstage : task.stage with
  | ended => rfl
  | queued =>
    cases hlock : s.lock with
    | none =>
      have := hstuck (.acquire t) rfl
      simp [AddState.step, AddState.acquire, fromStage, hlock, ht, hstage] at this
    | some u =>
      obtain ⟨task', hu, hw⟩ := h.locked u hlock
      exact absurd hw (hwork hu)
  | completing error =>
    have := hstuck (.finish t) rfl
    cases error <;> simp [AddState.step, AddState.finish, ht, hstage] at this
  | caching => exact absurd (by simp [AddTask.atWork, hstage]) (hwork ht)
  | wiping => exact absurd (by simp [AddTask.atWork, hstage]) (hwork ht)
  | cloning => exact absurd (by simp [AddTask.atWork, hstage]) (hwork ht)
  | settling => exact absurd (by simp [AddTask.atWork, hstage]) (hwork ht)

def DistinctMembers (s : AddState) : Prop :=
  ∀ sol ∈ s.config.solutions,
    (sol.members.map (·.catalogId)).Nodup ∧ (sol.members.map (·.localPath)).Nodup

def SparesMembers (s : AddState) : Prop :=
  ∀ t task, s.tasks t = some task → task.stage = .wiping →
    ∀ sol ∈ s.config.solutions, ∀ m ∈ sol.members, ¬ task.target <+: m.localPath

def NoLatePush (s : AddState) : Prop :=
  ∀ before after t sid cid,
    s.log = before ++ .memberAddCompleted t sid cid (some cancelledText) :: after →
    ∀ m, .pushed t m ∉ after

/-- Each accepted add is told to be completed once: never twice, once when its task has
ended, and the tasks, left to themselves, all end. -/
def CompletesOnce (sha : List Char → Nat) (s : AddState) : Prop :=
  (∀ t, s.completions t ≤ 1) ∧
  (∀ t task, s.tasks t = some task → task.stage = .ended → s.completions t = 1) ∧
  ∃ n, ∀ ops s', (∀ op ∈ ops, op.task?.isSome) → AddRun sha s ops s' → ops.length ≤ n ∧
    ((∀ op, op.task?.isSome → s'.step sha op = none) → ∀ t < s.accepted, s'.completions t = 1)

section

variable (h : s.Inv)
include h

theorem Inv.distinctMembers : s.DistinctMembers := by
  intro sol hsol
  refine ⟨h.sound.memberIds sol hsol, ?_⟩
  have hpaths : sol.members.map (·.localPath) =
      (sol.members.map (·.catalogId)).map fun id => sol.root.join id := by
    rw [List.map_map]
    exact map_congr_left fun m hm => h.sound.paths sol hsol m hm
  rw [hpaths]
  exact (h.sound.memberIds sol hsol).map fun _ _ => Path.join_injective

theorem Inv.sparesMembers : s.SparesMembers := by
  intro t task ht hstage sol hsol m hm
  have htied := h.tied t task ht (by simp [hstage])
  have hfree := h.free t task ht (by simp [AddTask.canAct, hstage])
  exact htied.not_above hfree h.sound hsol hm

theorem Inv.completions_le_one (t : Nat) : s.completions t ≤ 1 := by
  cases ht : s.tasks t with
  | none =>
    have hnot : ¬ t < s.accepted := by
      rw [← h.numbered t]
      simp [ht]
    have hnil : s.history t = [] := by
      rw [history, filter_eq_nil_iff]
      intro e he
      have := h.toldOf e he
      simp only [decide_eq_true_eq]
      omega
    simp [completions, hnil]
  | some task =>
    have htold := h.told t task ht
    rw [AddTask.Told] at htold
    split at htold
    · simp [completions, htold, AddEvent.isCompletion]
    · split at htold
      · obtain ⟨pushes, error, hhist, rfl | ⟨-, m, rfl⟩⟩ := htold
        · simp [completions, hhist, AddEvent.isCompletion]
        · simp [completions, hhist, AddEvent.isCompletion]
      · simp [completions, htold]

theorem Inv.completions_ended {t : Nat} {task : AddTask} (ht : s.tasks t = some task)
    (he : task.stage = .ended) : s.completions t = 1 := by
  have htold := h.told t task ht
  rw [AddTask.Told, if_pos he] at htold
  split at htold
  · simp [completions, htold, AddEvent.isCompletion]
  · obtain ⟨pushes, error, hhist, rfl | ⟨-, m, rfl⟩⟩ := htold
    · simp [completions, hhist, AddEvent.isCompletion]
    · simp [completions, hhist, AddEvent.isCompletion]

theorem Inv.noLatePush : s.NoLatePush := by
  intro before after t sid cid hlog m hm
  -- both are among what was told of the add
  have hdone : .memberAddCompleted t sid cid (some cancelledText) ∈ s.history t := by
    simp [history, hlog, AddEvent.add]
  have hpush : .pushed t m ∈ s.history t := by
    simp [history, hlog, AddEvent.add, hm]
  obtain ⟨task, ht⟩ : ∃ task, s.tasks t = some task := by
    have hlt := h.toldOf (.pushed t m) (by simp [hlog, hm])
    exact Option.isSome_iff_exists.mp ((h.numbered t).mpr hlt)
  have htold := h.told t task ht
  rw [AddTask.Told] at htold
  split at htold
  · simp [htold] at hpush
  · split at htold
    · obtain ⟨pushes, error, hhist, rfl | ⟨rfl, m', rfl⟩⟩ := htold
      · simp [hhist] at hpush
      · simp [hhist] at hdone
    · simp [htold] at hpush

theorem Inv.completesOnce : s.CompletesOnce sha := by
  refine ⟨h.completions_le_one, fun t task ht => h.completions_ended ht, s.remaining, ?_⟩
  intro ops s' hops hrun
  obtain ⟨h', hacc, hle⟩ := h.taskRun hops hrun
  refine ⟨by omega, fun hstuck t ht => ?_⟩
  obtain ⟨task, htask⟩ := Option.isSome_iff_exists.mp ((h'.numbered t).mpr (hacc ▸ ht))
  exact h'.completions_ended htask (h'.ended_of_stuck hstuck htask)

end

end AddState

/-- **Member adds neither duplicate nor resurrect along a harmless run.** -/
theorem member_adds_settle {sha : List Char → Nat} {c : Config} (hc : c.Sound) {ops : List AddOp}
    {s : AddState} (hrun : HarmlessRun sha (.start c) ops s) :
    s.DistinctMembers ∧ s.SparesMembers ∧ s.NoLatePush ∧ s.CompletesOnce sha := by
  have h : s.Inv := (AddState.inv_start hc).run hrun
  exact ⟨h.distinctMembers, h.sparesMembers, h.noLatePush, h.completesOnce⟩

def twoEntries : Config :=
  ⟨[⟨['x'], ['x'], ['u'], none⟩, ⟨['y'], ['y'], ['v'], none⟩],
    [⟨['s'], ['s'], [utf8 ['s']], [], none⟩]⟩

theorem twoEntries_sound : twoEntries.Sound where
  ids := by simp [twoEntries, Config.solutionIds]
  memberIds := by simp [twoEntries]
  paths := by simp [twoEntries]
  apart := by
    intro sol hsol sol' hsol' hne
    simp only [twoEntries, mem_singleton] at hsol hsol'
    exact absurd (by rw [hsol, hsol']) hne

/-- Two adds: one is cancelled while its cache is brought up to date, the other goes well. -/
theorem member_adds_settle_cancelled :
    ∃ s, HarmlessRun (fun _ => 0) (.start twoEntries)
      [.addMember ['s'] ['x'], .addMember ['s'] ['y'], .acquire 0, .cancelAddMember ['s'] ['x'],
        .cached 0 none true, .finish 0, .acquire 1, .cached 1 none true, .wiped 1 none,
        .cloned 1 none, .settled 1 none, .finish 1] s ∧
      s.log = [.memberAddCompleted 0 ['s'] ['x'] (some cancelledText),
        .pushed 1 ⟨['y'], [utf8 ['s'], utf8 ['y']]⟩, .memberAddCompleted 1 ['s'] ['y'] none] ∧
      s.DistinctMembers ∧ s.SparesMembers ∧ s.NoLatePush ∧ s.CompletesOnce fun _ => 0 := by
  have hrun : ∃ s, HarmlessRun (fun _ => 0) (.start twoEntries)
      [.addMember ['s'] ['x'], .addMember ['s'] ['y'], .acquire 0, .cancelAddMember ['s'] ['x'],
        .cached 0 none true, .finish 0, .acquire 1, .cached 1 none true, .wiped 1 none,
        .cloned 1 none, .settled 1 none, .finish 1] s ∧
      s.log = [.memberAddCompleted 0 ['s'] ['x'] (some cancelledText),
        .pushed 1 ⟨['y'], [utf8 ['s'], utf8 ['y']]⟩, .memberAddCompleted 1 ['s'] ['y'] none] := by
    refine ⟨_, .cons ⟨?_, rfl⟩ (.cons ⟨?_, rfl⟩ (.cons ⟨trivial, rfl⟩ (.cons ⟨?_, rfl⟩
      (.cons ⟨trivial, rfl⟩ (.cons ⟨trivial, rfl⟩ (.cons ⟨trivial, rfl⟩ (.cons ⟨trivial, rfl⟩
      (.cons ⟨trivial, rfl⟩ (.cons ⟨trivial, rfl⟩ (.cons ⟨trivial, rfl⟩ (.cons ⟨trivial, rfl⟩
      .nil))))))))))), rfl⟩
    · intro t task ht
      simp [AddState.start] at ht
    · intro t task ht hkey
      rcases AddState.tasks_update ht with ⟨-, rfl⟩ | ⟨-, ht⟩
      · simp [AddTask.key] at hkey
      · simp [AddState.start] at ht
    · intro r hr
      obtain rfl : InFlightAdd.mk none 0 = r := some.inj hr
      refine ⟨rfl, fun task ht => ?_⟩
      cases ht
      simp [AddTask.pastChecks]
  obtain ⟨s, hrun, hlog⟩ := hrun
  exact ⟨s, hrun, hlog, member_adds_settle twoEntries_sound hrun⟩

/-- The four ways it goes wrong: an add cancelled behind its second look pushes its member
and completes twice; an empty member is wiped by the add whose id it took, and then there
twice; an add whose record was cascaded away fails without a word; a solution in the target
of an add to another is wiped with its members. -/
theorem member_adds_go_wrong :
    (∃ s, AddRun (fun _ => 0) (.start twoEntries)
      [.addMember ['s'] ['x'], .acquire 0, .cached 0 none false, .cloned 0 none,
        .cancelAddMember ['s'] ['x'], .settled 0 none, .finish 0] s ∧
      ¬ s.NoLatePush ∧ s.completions 0 = 2) ∧
    (∃ s, AddRun (fun _ => 0) (.start twoEntries)
      [.addMember ['s'] ['x'], .acquire 0, .addEmptyMember ['s'] ['x'] true, .cached 0 none true] s ∧
      ¬ s.SparesMembers) ∧
    (∃ s, AddRun (fun _ => 0) (.start twoEntries)
      [.addMember ['s'] ['x'], .acquire 0, .addEmptyMember ['s'] ['x'] true, .cached 0 none true,
        .wiped 0 none, .cloned 0 none, .settled 0 none, .finish 0] s ∧
      ¬ s.DistinctMembers) ∧
    (∃ s, AddRun (fun _ => 0) (.start twoEntries)
      [.addMember ['s'] ['x'], .acquire 0, .removeCatalogProjectCascade ['x'],
        .cached 0 (some ['e']) false, .finish 0] s ∧
      ¬ s.CompletesOnce fun _ => 0) ∧
    ∃ s, AddRun (fun _ => 0)
      (.start ⟨[⟨['x'], ['x'], ['u'], none⟩],
        [⟨['s'], ['s'], [utf8 ['s']], [], none⟩, ⟨['x'], ['x'], [utf8 ['s'], utf8 ['x']],
          [⟨['m'], [utf8 ['s'], utf8 ['x'], utf8 ['m']]⟩], none⟩]⟩)
      [.addMember ['s'] ['x'], .acquire 0, .cached 0 none true] s ∧
      ¬ s.SparesMembers := by
  refine ⟨⟨_, .cons rfl (.cons rfl (.cons rfl (.cons rfl (.cons rfl (.cons rfl (.cons rfl .nil)))))),
      ?_, rfl⟩,
    ⟨_, .cons rfl (.cons rfl (.cons rfl (.cons rfl .nil))), ?_⟩,
    ⟨_, .cons rfl (.cons rfl (.cons rfl (.cons rfl (.cons rfl (.cons rfl (.cons rfl
      (.cons rfl .nil))))))), ?_⟩,
    ⟨_, .cons rfl (.cons rfl (.cons rfl (.cons rfl (.cons rfl .nil)))), ?_⟩,
    ⟨_, .cons rfl (.cons rfl (.cons rfl .nil)), ?_⟩⟩
  · intro h
    exact h [] [.pushed 0 ⟨['x'], [utf8 ['s'], utf8 ['x']]⟩, .memberAddCompleted 0 ['s'] ['x'] none]
      0 ['s'] ['x'] rfl _ (mem_cons_self ..)
  · intro h
    exact h 0 ⟨['s'], ['x'], [utf8 ['s'], utf8 ['x']], false, .wiping⟩ rfl rfl
      ⟨['s'], ['s'], [utf8 ['s']], [⟨['x'], [utf8 ['s'], utf8 ['x']]⟩], none⟩ (mem_cons_self ..)
      _ (mem_cons_self ..) (prefix_refl _)
  · intro h
    have := (h ⟨['s'], ['s'], [utf8 ['s']], [⟨['x'], [utf8 ['s'], utf8 ['x']]⟩,
      ⟨['x'], [utf8 ['s'], utf8 ['x']]⟩], none⟩ (mem_cons_self ..)).1
    simp at this
  · intro h
    have hzero : 0 = 1 := h.2.1 0 ⟨['s'], ['x'], [utf8 ['s'], utf8 ['x']], false, .ended⟩ rfl rfl
    simp at hzero
  · intro h
    exact h 0 ⟨['s'], ['x'], [utf8 ['s'], utf8 ['x']], false, .wiping⟩ rfl rfl
      ⟨['x'], ['x'], [utf8 ['s'], utf8 ['x']], [⟨['m'], [utf8 ['s'], utf8 ['x'], utf8 ['m']]⟩], none⟩
      (mem_cons_of_mem _ (mem_cons_self ..)) _ (mem_cons_self ..)
      (prefix_append _ _)

end SpkEditor.Solutions
