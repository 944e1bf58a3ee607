import SpkEditor.Solutions.Sound
import SpkEditor.Solutions.AddMember

/-!
# What the store and its tasks agree on

The invariant behind the adds: a task under way has its record and the record its task, a
cancelled task has still to look at its flag, the id and the directory a task is about to
use are nobody else's, and of each add exactly its end was told. Every step of a task keeps
it; the methods of the store keep it where their record of the tasks does not fail them,
and what each of them needs for that stands in its lemma.
-/

namespace SpkEditor.Solutions

open Option

variable {task : AddTask} {error : Option (List Char)} {t : Nat} {sid : List Char} {c c' : Config}

/-! ## Tasks -/

namespace AddTask

/-- The task has looked at its flag for the last time and has not failed. -/
def pastChecks (task : AddTask) : Bool :=
  match task.stage with
  | .settling | .completing none => true
  | _ => false

/-- The task can still wipe its target or push its member. -/
def canAct (task : AddTask) : Bool :=
  match task.stage with
  | .queued | .caching | .cloning => !task.cancelFlag
  | .wiping | .settling | .completing none => true
  | .completing (some _) | .ended => false

/-- The task has the lock. -/
def atWork (task : AddTask) : Bool :=
  match task.stage with
  | .caching | .wiping | .cloning | .settling => true
  | _ => false

theorem not_ended_of_canAct (h : task.canAct) : task.stage ≠ .ended := by
  intro he
  simp [canAct, he] at h

theorem canAct_of_raised (h : canAct { task with cancelFlag := true }) : task.canAct := by
  obtain ⟨sid, cid, target, flag, stage⟩ := task
  cases stage with
  | completing error => cases error <;> exact h
  | queued => simp [canAct] at h
  | caching => simp [canAct] at h
  | cloning => simp [canAct] at h
  | wiping => rfl
  | settling => rfl
  | ended => exact h

def Tied (task : AddTask) (c : Config) : Prop :=
  ∃ root : Path, task.target = root.join task.catalogId ∧ ∀ sol ∈ c.solutions,
    (sol.id = task.solutionId → sol.root = root) ∧
    (sol.id ≠ task.solutionId → root.Apart sol.root)

def Free (task : AddTask) (c : Config) : Prop :=
  ∀ sol ∈ c.solutions, sol.id = task.solutionId → ∀ m ∈ sol.members, m.catalogId ≠ task.catalogId

theorem Tied.of_solutions (h : task.Tied c)
    (hc : ∀ sol' ∈ c'.solutions, ∃ sol ∈ c.solutions, sol.id = sol'.id ∧ sol.root = sol'.root) :
    task.Tied c' := by
  obtain ⟨root, htarget, hroot⟩ := h
  refine ⟨root, htarget, ?_⟩
  intro sol' hsol'
  obtain ⟨sol, hsol, hid, hr⟩ := hc sol' hsol'
  rw [← hid, ← hr]
  exact hroot sol hsol

theorem Tied.shrink (h : task.Tied c) (hc : c.Shrinks c') : task.Tied c' := by
  refine h.of_solutions fun sol' hsol' => ?_
  obtain ⟨sol, hsol, hid, hroot, -⟩ := hc.solution sol' hsol'
  exact ⟨sol, hsol, hid, hroot⟩

theorem Tied.push {m : SolutionMember} {p : Nat}
    (h : task.Tied c) (hp : c.pushMember sid m = some (p, c')) : task.Tied c' := by
  refine h.of_solutions fun sol' hsol' => ?_
  obtain ⟨sol, hsol, hid, hroot, -⟩ := Config.mem_solutions_pushMember hp hsol'
  exact ⟨sol, hsol, hid, hroot⟩

theorem Free.shrink (h : task.Free c) (hc : c.Shrinks c') : task.Free c' := by
  intro sol' hsol' hid' m hm
  obtain ⟨sol, hsol, hid, -, hsub⟩ := hc.solution sol' hsol'
  exact h sol hsol (hid.trans hid') m (hsub.subset hm)

theorem Free.push {m : SolutionMember} {p : Nat}
    (h : task.Free c) (hp : c.pushMember sid m = some (p, c'))
    (hm : task.solutionId = sid → task.catalogId ≠ m.catalogId) : task.Free c' := by
  intro sol' hsol' hid' x hx
  obtain ⟨sol, hsol, hid, -, hmem⟩ := Config.mem_solutions_pushMember hp hsol'
  rw [hmem, List.mem_append] at hx
  rcases hx with hx | hx
  · exact h sol hsol (hid.trans hid') x hx
  · split at hx
    · rename_i hs
      rw [List.mem_singleton.mp hx]
      exact (hm (by rw [← hid', ← hid, hs])).symm
    · simp at hx

/-- **A task that is free to act touches no member's directory.** -/
theorem Tied.not_above (h : task.Tied c) (hf : task.Free c)
    (hc : c.Sound) {sol : Solution} (hsol : sol ∈ c.solutions) {m : SolutionMember}
    (hm : m ∈ sol.members) : ¬ task.target <+: m.localPath := by
  obtain ⟨root, htarget, hroot⟩ := h
  rw [htarget, hc.paths sol hsol m hm]
  intro hle
  by_cases hid : sol.id = task.solutionId
  · rw [(hroot sol hsol).1 hid] at hle
    exact hf sol hsol hid m hm (Path.eq_of_join_prefix_join hle).symm
  · exact ((hroot sol hsol).2 hid).not_join _ _ hle

/-- What was told of an add whose task is like this: of a cancelled one its cancellation, of
one that ended its end, of one under way nothing. -/
def Told (t : Nat) (task : AddTask) (history : List AddEvent) : Prop :=
  if task.cancelFlag then
    history = [.memberAddCompleted t task.solutionId task.catalogId (some cancelledText)]
  else if task.stage = .ended then
    ∃ (pushes : List AddEvent) (error : Option (List Char)),
      history = pushes ++ [.memberAddCompleted t task.solutionId task.catalogId error] ∧
      (pushes = [] ∨ error = none ∧ ∃ m, pushes = [.pushed t m])
  else history = []

theorem told_ended (hc : task.cancelFlag = false)
    (pushes : List AddEvent) (error : Option (List Char))
    (h : pushes = [] ∨ error = none ∧ ∃ m, pushes = [.pushed t m]) :
    Told t { task with stage := .ended }
      (pushes ++ [.memberAddCompleted t task.solutionId task.catalogId error]) := by
  simp only [Told, hc, Bool.false_eq_true, if_false, if_true]
  exact ⟨pushes, error, rfl, h⟩

end AddTask

namespace AddState

/-- What was told of one add. -/
def history (s : AddState) (t : Nat) : List AddEvent := s.log.filter (·.add = t)

/-- How often an add was told to be completed. -/
def completions (s : AddState) (t : Nat) : Nat := ((s.history t).filter (·.isCompletion)).length

structure Inv (s : AddState) : Prop where
  sound : s.config.Sound
  /-- The accepted adds are those that have a task. -/
  numbered : ∀ t, (s.tasks t).isSome ↔ t < s.accepted
  /-- Nothing was told of an add to come. -/
  toldOf : ∀ e ∈ s.log, e.add < s.accepted
  /-- A record in progress is of a task under way. -/
  records : ∀ k r, s.inFlight k = some r → r.error = none →
    ∃ task, s.tasks r.add = some task ∧ task.key = k ∧ task.stage ≠ .ended ∧ task.cancelFlag = false
  /-- A task under way has its record, a cancelled one has none at its key. -/
  live : ∀ t task, s.tasks t = some task → task.stage ≠ .ended →
    s.inFlight task.key = if task.cancelFlag then none else some ⟨none, t⟩
  /-- A cancelled task has still to look at its flag, or has failed. -/
  late : ∀ t task, s.tasks t = some task → task.cancelFlag → ¬ task.pastChecks
  told : ∀ t task, s.tasks t = some task → task.Told t (s.history t)
  tied : ∀ t task, s.tasks t = some task → task.stage ≠ .ended → task.Tied s.config
  free : ∀ t task, s.tasks t = some task → task.canAct → task.Free s.config
  locked : ∀ t, s.lock = some t → ∃ task, s.tasks t = some task ∧ task.atWork

theorem inv_start (h : c.Sound) : (start c).Inv where
  sound := h
  numbered := by simp [start]
  toldOf := by simp [start]
  records := by simp [start]
  live := by simp [start]
  late := by simp [start]
  told := by simp [start]
  tied := by simp [start]
  free := by simp [start]
  locked := by simp [start]

variable {s s' : AddState}

/-- Nothing was told of an add that is not cancelled and not over. -/
theorem Inv.history_eq_nil (h : s.Inv) (ht : s.tasks t = some task)
    (hc : task.cancelFlag = false) (he : task.stage ≠ .ended) : s.history t = [] := by
  have := h.told t task ht
  simpa [AddTask.Told, hc, he] using this

theorem Inv.alone (h : s.Inv) {t' : Nat} {task' : AddTask} (ht : s.tasks t = some task)
    (hc : task.cancelFlag = false) (he : task.stage ≠ .ended) (ht' : s.tasks t' = some task')
    (he' : task'.stage ≠ .ended) (hkey : task'.key = task.key) : t' = t := by
  have h₁ := h.live t task ht he
  have h₂ := h.live t' task' ht' he'
  rw [hkey, h₁] at h₂
  cases hc' : task'.cancelFlag with
  | false => simpa [hc, hc'] using h₂.symm
  | true => simp [hc, hc'] at h₂

theorem tasks_update {f : Nat → Option AddTask} {u : Nat} {task' : AddTask}
    (h : Function.update f t (some task) u = some task') :
    u = t ∧ task' = task ∨ u ≠ t ∧ f u = some task' := by
  by_cases hu : u = t
  · subst hu
    exact .inl ⟨rfl, by simpa using h.symm⟩
  · exact .inr ⟨hu, by simpa [hu] using h⟩

/-- After an update, what holds of the new task and of every other one. -/
theorem of_update {f : Nat → Option AddTask} {P : Nat → AddTask → Prop} (hnew : P t task)
    (hother : ∀ u task', u ≠ t → f u = some task' → P u task') :
    ∀ u task', Function.update f t (some task) u = some task' → P u task' := by
  intro u task' hu
  rcases tasks_update hu with ⟨rfl, rfl⟩ | ⟨hne, hu⟩
  · exact hnew
  · exact hother u task' hne hu

theorem isSome_update {f : Nat → Option AddTask} {task' : AddTask}
    (ht : f t = some task) (u : Nat) :
    (Function.update f t (some task') u).isSome ↔ (f u).isSome := by
  by_cases hu : u = t
  · subst hu
    simp [ht]
  · simp [hu]

/-- A task that moves from one stage to another, and the lock it takes or gives back. -/
theorem Inv.move (h : s.Inv) {stage : Stage} {lock : Option Nat}
    (ht : s.tasks t = some task) (hfrom : task.stage ≠ .ended) (hto : stage ≠ .ended)
    (hlate : task.cancelFlag → ¬ AddTask.pastChecks { task with stage := stage })
    (hact : AddTask.canAct { task with stage := stage } → task.canAct)
    (hlock : lock = some t → AddTask.atWork { task with stage := stage })
    (hother : ∀ u, u ≠ t → lock = some u → s.lock = some u) :
    Inv { s.goTo t task stage with lock := lock } where
  sound := h.sound
  numbered := fun u => (isSome_update ht u).trans (h.numbered u)
  toldOf := h.toldOf
  records := by
    intro k r hr herr
    obtain ⟨task', ht', hkey, he, hc⟩ := h.records k r hr herr
    by_cases hu : r.add = t
    · rw [hu, ht] at ht'
      obtain rfl := some.inj ht'
      exact ⟨{ task with stage := stage }, by simp [goTo, setTask, hu], hkey, hto, hc⟩
    · exact ⟨task', by simpa [goTo, setTask, hu] using ht', hkey, he, hc⟩
  live := of_update (fun _ => h.live t task ht hfrom) fun u task' _ => h.live u task'
  late := of_update hlate fun u task' _ => h.late u task'
  told := by
    refine of_update ?_ fun u task' _ => h.told u task'
    have := h.told t task ht
    simpa [AddTask.Told, hfrom, hto, history, goTo, setTask] using this
  tied := of_update (fun _ => h.tied t task ht hfrom) fun u task' _ => h.tied u task'
  free := of_update (fun ha => h.free t task ht (hact ha)) fun u task' _ => h.free u task'
  locked := by
    intro u hu
    by_cases hut : u = t
    · subst hut
      exact ⟨{ task with stage := stage }, by simp [goTo, setTask], hlock hu⟩
    · obtain ⟨task', ht', hw⟩ := h.locked u (hother u hut hu)
      exact ⟨task', by simpa [goTo, setTask, hut] using ht', hw⟩

theorem eq_of_fromStage {stage : Stage} {f : AddTask → AddState}
    (h : s.fromStage t stage f = some s') :
    ∃ task, s.tasks t = some task ∧ task.stage = stage ∧ s' = f task := by
  simp only [fromStage, bind_eq_some_iff] at h
  obtain ⟨task, ht, h⟩ := h
  split at h
  · rename_i hstage
    exact ⟨task, ht, hstage, (some.inj h).symm⟩
  · simp at h

/-! ## Each step of a task keeps the invariant -/

theorem Inv.endWork_error (h : s.Inv) (ht : s.tasks t = some task)
    (hfrom : task.stage ≠ .ended) (e : List Char) : (s.endWork t task (some e)).Inv := by
  refine h.move ht hfrom (by simp) ?_ ?_ (by simp) (by simp)
  · intro _
    simp [AddTask.pastChecks]
  · simp [AddTask.canAct]

theorem Inv.acquire (h : s.Inv) (hs : s.acquire t = some s') : s'.Inv := by
  rw [AddState.acquire] at hs
  split at hs
  · obtain ⟨task, ht, hstage, rfl⟩ := eq_of_fromStage hs
    refine h.move ht (by simp [hstage]) (by simp) ?_ ?_ ?_ ?_
    · simp [AddTask.pastChecks]
    · simp [AddTask.canAct, hstage]
    · simp [AddTask.atWork]
    · intro u hu hut
      exact absurd (some.inj hut).symm hu
  · simp at hs

theorem Inv.cached {targetExists : Bool} (h : s.Inv)
    (hs : s.cached t error targetExists = some s') : s'.Inv := by
  obtain ⟨task, ht, hstage, rfl⟩ := eq_of_fromStage hs
  have hfrom : task.stage ≠ .ended := by simp [hstage]
  cases error with
  | some e => exact h.endWork_error ht hfrom e
  | none =>
    simp only
    split
    · exact h.endWork_error ht hfrom _
    · rename_i hc
      -- the flag is down, so the task could act before
      refine h.move ht hfrom ?_ ?_ ?_ ?_ (fun _ _ hu => hu)
      · cases targetExists <;> simp
      · exact fun hc' => absurd hc' hc
      · simp [AddTask.canAct, hstage, hc]
      · cases targetExists <;> simp [AddTask.atWork]

theorem Inv.wiped (h : s.Inv) (hs : s.wiped t error = some s') : s'.Inv := by
  obtain ⟨task, ht, hstage, rfl⟩ := eq_of_fromStage hs
  have hfrom : task.stage ≠ .ended := by simp [hstage]
  cases error with
  | some e => exact h.endWork_error ht hfrom e
  | none =>
    refine h.move ht hfrom (by simp) ?_ ?_ ?_ (fun _ _ hu => hu)
    · simp [AddTask.pastChecks]
    · simp [AddTask.canAct, hstage]
    · simp [AddTask.atWork]

theorem Inv.cloned (h : s.Inv) (hs : s.cloned t error = some s') : s'.Inv := by
  obtain ⟨task, ht, hstage, rfl⟩ := eq_of_fromStage hs
  have hfrom : task.stage ≠ .ended := by simp [hstage]
  cases error with
  | some e => exact h.endWork_error ht hfrom e
  | none =>
    simp only
    split
    · exact h.endWork_error ht hfrom _
    · rename_i hc
      refine h.move ht hfrom (by simp) ?_ ?_ ?_ (fun _ _ hu => hu)
      · exact fun hc' => absurd hc' hc
      · simp [AddTask.canAct, hstage, hc]
      · simp [AddTask.atWork]

theorem Inv.settled (h : s.Inv) (hs : s.settled t error = some s') : s'.Inv := by
  obtain ⟨task, ht, hstage, rfl⟩ := eq_of_fromStage hs
  have hfrom : task.stage ≠ .ended := by simp [hstage]
  cases error with
  | some e => exact h.endWork_error ht hfrom e
  | none =>
    refine h.move ht hfrom (by simp) ?_ ?_ (by simp) (by simp)
    · intro hc
      exact absurd (by simp [AddTask.pastChecks, hstage]) (h.late t task ht hc)
    · simp [AddTask.canAct, hstage]

/-! ## What is told -/

theorem history_tell (s : AddState) (es : List AddEvent) (u : Nat) :
    (s.tell es).history u = s.history u ++ es.filter (·.add = u) := by
  simp [history, tell]

theorem history_tell_self {es : List AddEvent} (hes : ∀ e ∈ es, e.add = t) :
    (s.tell es).history t = s.history t ++ es := by
  rw [history_tell, List.filter_eq_self.mpr (by simpa using hes)]

theorem history_tell_other {es : List AddEvent} {u : Nat} (hes : ∀ e ∈ es, e.add = t)
    (hu : u ≠ t) : (s.tell es).history u = s.history u := by
  rw [history_tell, List.filter_eq_nil_iff.mpr, List.append_nil]
  intro e he
  simp [hes e he, Ne.symm hu]

theorem Inv.history_fresh (h : s.Inv) : s.history s.accepted = [] := by
  rw [history, List.filter_eq_nil_iff]
  intro e he
  have := h.toldOf e he
  simp only [decide_eq_true_eq]
  omega

theorem Inv.lt_accepted (h : s.Inv) (ht : s.tasks t = some task) : t < s.accepted :=
  (h.numbered t).mp (by simp [ht])

/-! ## Each method keeps the invariant -/

theorem Inv.addMember {cid : List Char} (h : s.Inv)
    (hgood : ∀ t task, s.tasks t = some task → task.key = (sid, cid) →
      (s.accepts sid cid).isSome → task.stage = .ended) :
    (s.addMember sid cid).Inv := by
  rw [AddState.addMember]
  cases hacc : s.accepts sid cid with
  | none => exact h
  | some sol =>
    rw [hacc] at hgood
    simp only [accepts, bind_eq_some_iff] at hacc
    obtain ⟨sol', hfind, hacc⟩ := hacc
    split at hacc
    case isFalse => simp at hacc
    rename_i hchecks
    obtain rfl := some.inj hacc
    obtain ⟨hsol, hid⟩ := Config.mem_of_find hfind
    have hnew : ∀ {t : Nat} {task : AddTask}, s.tasks t = some task → t ≠ s.accepted :=
      fun ht => (h.lt_accepted ht).ne
    exact {
      sound := h.sound
      numbered := by
        intro t
        by_cases ht : t = s.accepted
        · simp [ht]
        · simp only [Function.update_of_ne ht, h.numbered t]
          omega
      toldOf := fun e he => Nat.lt_succ_of_lt (h.toldOf e he)
      records := by
        intro k r hr herr
        by_cases hk : k = (sid, cid)
        · subst hk
          obtain rfl : InFlightAdd.mk none s.accepted = r := by simpa using hr
          exact ⟨_, Function.update_self .., rfl, by simp, rfl⟩
        · obtain ⟨task, ht, hrest⟩ := h.records k r (by simpa [hk] using hr) herr
          exact ⟨task, by simpa [hnew ht] using ht, hrest⟩
      live := by
        refine of_update (fun _ => by simp [AddTask.key]) fun t task _ ht he => ?_
        have hk : task.key ≠ (sid, cid) := fun hk => he (hgood t task ht hk rfl)
        simpa [hk] using h.live t task ht he
      late := of_update (by simp) fun t task _ => h.late t task
      told := of_update h.history_fresh fun t task _ => h.told t task
      tied := by
        refine of_update (fun _ => ?_) fun t task _ => h.tied t task
        refine ⟨sol'.root, rfl, fun sol hs => ⟨fun hi => ?_, fun hi => ?_⟩⟩
        · rw [h.sound.eq_of_id hs hsol (hi.trans hid.symm)]
        · exact h.sound.apart sol' hsol sol hs (by rw [hid]; exact Ne.symm hi)
      free := by
        refine of_update (fun _ sol hs hi m hm => ?_) fun t task _ => h.free t task
        rw [h.sound.eq_of_id hs hsol (hi.trans hid.symm)] at hm
        have := hchecks.2.1
        simp only [List.any_eq_true, decide_eq_true_eq, not_exists, not_and] at this
        exact this m hm
      locked := by
        intro t ht
        obtain ⟨task, htask, hw⟩ := h.locked t ht
        exact ⟨task, by simpa [hnew htask] using htask, hw⟩ }

theorem Inv.cancelAddMember {cid : List Char} (h : s.Inv)
    (hgood : ∀ r, s.inFlight (sid, cid) = some r → r.error = none ∧
      ∀ task, s.tasks r.add = some task → ¬ task.pastChecks) :
    (s.cancelAddMember sid cid).Inv := by
  rw [AddState.cancelAddMember]
  cases hr : s.inFlight (sid, cid) with
  | none => exact h
  | some r =>
    obtain ⟨herr, hpast⟩ := hgood r hr
    obtain ⟨task, ht, hkey, he, hc⟩ := h.records _ r hr herr
    cases hkey
    have hnil := h.history_eq_nil ht hc he
    have htasks : ∀ {t : Nat} {task' : AddTask},
        Function.update s.tasks r.add
          ((s.tasks r.add).map fun task => { task with cancelFlag := true }) t = some task' →
        t = r.add ∧ task' = { task with cancelFlag := true } ∨
          t ≠ r.add ∧ s.tasks t = some task' := by
      intro t task' h'
      rw [ht] at h'
      exact tasks_update h'
    exact {
      sound := h.sound
      numbered := by
        intro t
        refine Iff.trans ?_ (h.numbered t)
        simpa only [tell, raiseFlag, setRecord, ht, map_some] using isSome_update ht t
      toldOf := by
        intro e he'
        rcases List.mem_append.mp he' with he' | he'
        · exact h.toldOf e he'
        · rw [List.mem_singleton.mp he']
          exact h.lt_accepted ht
      records := by
        intro k r' hr' herr'
        by_cases hk : k = (task.solutionId, task.catalogId)
        · simp [tell, raiseFlag, setRecord, hk] at hr'
        · obtain ⟨task', ht', hkey', hrest⟩ := h.records k r'
            (by simpa [tell, raiseFlag, setRecord, hk] using hr') herr'
          have hne : r'.add ≠ r.add := by
            intro heq
            rw [heq, ht] at ht'
            exact hk (by rw [← hkey', ← some.inj ht']; rfl)
          exact ⟨task', by simpa [tell, raiseFlag, setRecord, hne] using ht', hkey', hrest⟩
      live := by
        intro t task' ht' he'
        rcases htasks ht' with ⟨rfl, rfl⟩ | ⟨hne, ht'⟩
        · simp [tell, raiseFlag, setRecord, AddTask.key]
        · have hk : task'.key ≠ task.key :=
            fun hk => hne (h.alone ht hc he ht' he' hk)
          have hk' : task'.key ≠ (task.solutionId, task.catalogId) := hk
          simpa [tell, raiseFlag, setRecord, hk'] using h.live t task' ht' he'
      late := by
        intro t task' ht' hc'
        rcases htasks ht' with ⟨rfl, rfl⟩ | ⟨-, ht'⟩
        · exact hpast task ht
        · exact h.late t task' ht' hc'
      told := by
        intro t task' ht'
        rcases htasks ht' with ⟨rfl, rfl⟩ | ⟨hne, ht'⟩
        · rw [history_tell_self (by simp [AddEvent.add])]
          simpa [AddTask.Told, history, raiseFlag, setRecord] using hnil
        · rw [history_tell_other (by simp [AddEvent.add]) hne]
          exact h.told t task' ht'
      tied := by
        intro t task' ht' he'
        rcases htasks ht' with ⟨rfl, rfl⟩ | ⟨-, ht'⟩
        · exact h.tied r.add task ht he
        · exact h.tied t task' ht' he'
      free := by
        intro t task' ht' ha
        rcases htasks ht' with ⟨rfl, rfl⟩ | ⟨-, ht'⟩
        · exact h.free r.add task ht (AddTask.canAct_of_raised ha)
        · exact h.free t task' ht' ha
      locked := by
        intro t ht'
        obtain ⟨task', htask', hw⟩ := h.locked t ht'
        by_cases hne : t = r.add
        · subst hne
          rw [ht] at htask'
          obtain rfl := some.inj htask'
          exact ⟨{ task with cancelFlag := true }, by simp [tell, raiseFlag, setRecord, ht], hw⟩
        · exact ⟨task', by simpa [tell, raiseFlag, setRecord, hne] using htask', hw⟩ }

theorem Inv.dropRecords (h : s.Inv) {f : AddKey → Option InFlightAdd}
    (hf : ∀ k, f k = s.inFlight k ∨ f k = none ∧ ∀ r, s.inFlight k = some r → r.error.isSome) :
    Inv { s with inFlight := f } :=
  { h with
    records := by
      intro k r hr herr
      rcases hf k with hk | ⟨hk, -⟩
      · exact h.records k r (hk ▸ hr) herr
      · simp [hk] at hr
    live := by
      intro t task ht he
      have hlive := h.live t task ht he
      rcases hf task.key with hk | ⟨hk, herr⟩
      · exact hk.trans hlive
      · cases hc : task.cancelFlag with
        | true => simp [hk]
        | false =>
          -- the record of a task under way has not failed
          have := herr ⟨none, t⟩ (by simpa [hc] using hlive)
          simp at this }

theorem Inv.clearFailedAdd {cid : List Char} (h : s.Inv) : (s.clearFailedAdd sid cid).Inv := by
  rw [AddState.clearFailedAdd]
  cases hr : s.inFlight (sid, cid) with
  | none => exact h
  | some r =>
    simp only
    split
    · rename_i herr
      refine h.dropRecords fun k => ?_
      by_cases hk : k = (sid, cid)
      · refine .inr ⟨by simp [hk], fun r' hr' => ?_⟩
        rw [hk, hr] at hr'
        rwa [← some.inj hr']
      · exact .inl (by simp [hk])
    · exact h

theorem Inv.shrink (h : s.Inv) (hc : s.config.Shrinks c) : Inv { s with config := c } :=
  { h with
    sound := h.sound.shrink hc
    tied := fun t task ht he => (h.tied t task ht he).shrink hc
    free := fun t task ht ha => (h.free t task ht ha).shrink hc }

theorem Inv.withConfig (h : s.Inv) {c : Option Config} (hc : ∀ c', c = some c' → s.config.Shrinks c') :
    (s.withConfig c).Inv := by
  cases c with
  | none => exact h
  | some c => exact h.shrink (hc c rfl)

theorem Inv.removeCatalogProjectCascade {id : List Char} (h : s.Inv)
    (hgood : id ∈ s.config.catalogIds → ∀ k r, s.inFlight k = some r → k.2 = id → r.error.isSome) :
    (s.removeCatalogProjectCascade id).Inv := by
  rw [AddState.removeCatalogProjectCascade]
  cases hc : s.config.removeCatalogProjectCascade id with
  | none => exact h
  | some p =>
    obtain ⟨ps, c⟩ := p
    have hid : id ∈ s.config.catalogIds := by
      by_contra hid
      simp [Config.removeCatalogProjectCascade, hid] at hc
    refine (h.shrink (Config.shrinks_removeCatalogProjectCascade hc)).dropRecords fun k => ?_
    by_cases hk : k.2 = id
    · exact .inr ⟨by simp [hk], fun r hr => hgood hid k r hr hk⟩
    · exact .inl (by simp [hk])

theorem Inv.addEmptyMember {sha : List Char → Nat} {name : List Char} {created : Bool} (h : s.Inv)
    (hgood : ∀ m p c, s.config.addEmptyMember sha sid name = some (m, p, c) → created →
      ∀ t task, s.tasks t = some task → task.canAct → task.solutionId = sid →
        task.catalogId ≠ m.catalogId) :
    (s.addEmptyMember sha sid name created).Inv := by
  rw [AddState.addEmptyMember]
  cases hc : s.config.addEmptyMember sha sid name with
  | none => exact h
  | some x =>
    obtain ⟨m, p, c⟩ := x
    simp only
    split
    · rename_i hcreated
      obtain ⟨sol, hfind, hpush, hpath, hfree⟩ := Config.pushMember_of_addEmptyMember hc
      obtain ⟨hsol, hid⟩ := Config.mem_of_find hfind
      have hm : ∀ sol' ∈ s.config.solutions, sol'.id = sid →
          m.localPath = sol'.root.join m.catalogId ∧
            ∀ x ∈ sol'.members, x.catalogId ≠ m.catalogId := by
        intro sol' hsol' hid'
        rw [h.sound.eq_of_id hsol' hsol (hid'.trans hid.symm)]
        exact ⟨hpath, hfree⟩
      exact { h with
        sound := h.sound.push hpush hm
        tied := fun t task ht he => (h.tied t task ht he).push hpush
        free := fun t task ht ha =>
          (h.free t task ht ha).push hpush (hgood m p c hc hcreated t task ht ha) }
    · exact h

/-! ## The end of a task -/

section

variable (h : s.Inv) (ht : s.tasks t = some task)
include h ht

theorem Inv.ending (hc : task.cancelFlag = false) (he : task.stage ≠ .ended) (hw : ¬ task.atWork)
    {r : Option InFlightAdd} (hr : ∀ x, r = some x → x.error.isSome) (hsound : c.Sound)
    (htied : ∀ task' : AddTask, task'.Tied s.config → task'.Tied c)
    (hfree : ∀ task' : AddTask, task'.key ≠ task.key → task'.Free s.config → task'.Free c)
    {es : List AddEvent} (hes : ∀ e ∈ es, e.add = t)
    (htold : AddTask.Told t { task with stage := .ended } es) :
    Inv (tell { (s.goTo t task .ended).setRecord task.key r with config := c } es) := by
  -- no other task under way has this key
  have hkey : ∀ {u : Nat} {task' : AddTask}, u ≠ t → s.tasks u = some task' →
      task'.stage ≠ .ended → task'.key ≠ task.key :=
    fun hne hu he' hk => hne (h.alone ht hc he hu he' hk)
  exact {
    sound := hsound
    numbered := fun u => (isSome_update ht u).trans (h.numbered u)
    toldOf := by
      intro e he'
      rcases List.mem_append.mp he' with he' | he'
      · exact h.toldOf e he'
      · rw [hes e he']
        exact h.lt_accepted ht
    records := by
      intro k x hx herr
      by_cases hk : k = task.key
      · have := hr x (by simpa [tell, setRecord, hk] using hx)
        simp [herr] at this
      · obtain ⟨task', ht', hkey', hrest⟩ := h.records k x
          (by simpa [tell, setRecord, goTo, setTask, hk] using hx) herr
        have hne : x.add ≠ t := by
          intro heq
          rw [heq, ht] at ht'
          exact hk (by rw [← hkey', ← some.inj ht'])
        exact ⟨task', by simpa [tell, setRecord, goTo, setTask, hne] using ht', hkey', hrest⟩
    live := by
      refine of_update (fun he' => absurd rfl he') fun u task' hne hu he' => ?_
      simpa [tell, setRecord, goTo, setTask, hkey hne hu he'] using h.live u task' hu he'
    late := of_update (fun _ => by simp [AddTask.pastChecks]) fun u task' _ => h.late u task'
    told := by
      refine of_update ?_ fun u task' hne hu => ?_
      · rw [history_tell_self hes]
        have hnil : s.history t = [] := h.history_eq_nil ht hc he
        exact (congrArg (· ++ es) hnil).symm ▸ htold
      · rw [history_tell_other hes hne]
        exact h.told u task' hu
    tied := of_update (fun he' => absurd rfl he') fun u task' _ hu he' => htied task' (h.tied u task' hu he')
    free := of_update (by simp [AddTask.canAct]) fun u task' hne hu ha =>
      hfree task' (hkey hne hu (AddTask.not_ended_of_canAct ha)) (h.free u task' hu ha)
    locked := by
      intro u hu
      obtain ⟨task', ht', hw'⟩ := h.locked u hu
      have hne : u ≠ t := by
        intro heq
        rw [heq, ht] at ht'
        exact hw (by rwa [some.inj ht'])
      exact ⟨task', by simpa [tell, setRecord, goTo, setTask, hne] using ht', hw'⟩ }

theorem Inv.ending_cancelled (hc : task.cancelFlag = true) (hw : ¬ task.atWork) : (s.goTo t task .ended).Inv :=
  { h with
    numbered := fun u => (isSome_update ht u).trans (h.numbered u)
    records := by
      intro k r hr herr
      obtain ⟨task', ht', hkey, he, hc'⟩ := h.records k r hr herr
      have hne : r.add ≠ t := by
        intro heq
        rw [heq, ht] at ht'
        simp [← some.inj ht', hc] at hc'
      exact ⟨task', by simpa [goTo, setTask, hne] using ht', hkey, he, hc'⟩
    live := of_update (fun he => absurd rfl he) fun u task' _ => h.live u task'
    late := of_update (fun _ => by simp [AddTask.pastChecks]) fun u task' _ => h.late u task'
    told := by
      refine of_update ?_ fun u task' _ => h.told u task'
      have := h.told t task ht
      simp only [AddTask.Told, hc, if_true] at this ⊢
      exact this
    tied := of_update (fun he => absurd rfl he) fun u task' _ => h.tied u task'
    free := of_update (by simp [AddTask.canAct]) fun u task' _ => h.free u task'
    locked := by
      intro u hu
      obtain ⟨task', ht', hw'⟩ := h.locked u hu
      have hne : u ≠ t := by
        intro heq
        rw [heq, ht] at ht'
        exact hw (by rwa [some.inj ht'])
      exact ⟨task', by simpa [goTo, setTask, hne] using ht', hw'⟩ }

theorem Inv.complete (hstage : task.stage = .completing none) : (s.complete t task).Inv := by
  have he : task.stage ≠ .ended := by simp [hstage]
  have hw : ¬ task.atWork := by simp [AddTask.atWork, hstage]
  have hc : task.cancelFlag = false := by
    by_contra hc
    exact h.late t task ht (by simpa using hc) (by simp [AddTask.pastChecks, hstage])
  rw [AddState.complete]
  cases hpush : s.config.pushMember task.solutionId ⟨task.catalogId, task.target⟩ with
  | none =>
    refine h.ending ht hc he hw (by simp) h.sound (fun _ h' => h') (fun _ _ h' => h') ?_ ?_
    · simp [AddEvent.add]
    · exact AddTask.told_ended hc [] none (.inl rfl)
  | some x =>
    obtain ⟨p, c⟩ := x
    have hfree := h.free t task ht (by simp [AddTask.canAct, hstage])
    obtain ⟨root, htarget, hroot⟩ := h.tied t task ht he
    refine h.ending ht hc he hw (by simp) (h.sound.push hpush ?_)
      (fun _ h' => h'.push hpush) (fun task' hk h' => h'.push hpush ?_) ?_ ?_
    · intro sol hsol hid
      rw [(hroot sol hsol).1 hid]
      exact ⟨htarget, hfree sol hsol hid⟩
    · intro hsid hcid
      exact hk (Prod.ext hsid hcid)
    · simp [AddEvent.add]
    · exact AddTask.told_ended hc [.pushed t ⟨task.catalogId, task.target⟩] none
        (.inr ⟨rfl, _, rfl⟩)

end

theorem Inv.fail (h : s.Inv) {e : List Char}
    (ht : s.tasks t = some task) (hstage : task.stage = .completing (some e)) :
    (s.fail t task e).Inv := by
  have he : task.stage ≠ .ended := by simp [hstage]
  have hw : ¬ task.atWork := by simp [AddTask.atWork, hstage]
  have hlive := h.live t task ht he
  rw [AddState.fail]
  cases hc : task.cancelFlag with
  | true =>
    simp only [hlive, hc, if_true]
    exact h.ending_cancelled ht hc hw
  | false =>
    rw [hc] at hlive
    simp only [hlive]
    refine h.ending ht hc he hw (by simp) h.sound (fun _ h' => h') (fun _ _ h' => h') ?_ ?_
    · simp [AddEvent.add]
    · exact AddTask.told_ended hc [] (some e) (.inl rfl)

theorem Inv.finish (h : s.Inv) (hs : s.finish t = some s') : s'.Inv := by
  simp only [AddState.finish, bind_eq_some_iff] at hs
  obtain ⟨task, ht, hs⟩ := hs
  split at hs
  · rename_i hstage
    cases hs
    exact h.complete ht hstage
  · rename_i e hstage
    cases hs
    exact h.fail ht hstage
  · simp at hs

end AddState

end SpkEditor.Solutions
