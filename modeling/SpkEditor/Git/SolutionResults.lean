import SpkEditor.Git.SolutionCommit

/-!
# What a solution commit reports

Every member of the plan is to have one result, and the result is to say `Committed` exactly
where the commit stands. The results come from the stages of `run_orchestration` in turn:
narrowing reports the members it leaves out, and the stage that ends the run reports the rest.

All of them report everybody that is left, except the one that stops at a failed backup. It
skips as many active members as there are results already, and the results are those of the
members that are *not* active. So it is right only where it has nobody to skip: the first
active member fails, and no member was left out before.
-/

namespace SpkEditor.SolutionCommit

open List

variable {g : GitSteps} {backups : List (Option String)} {plan : List MemberPlan}

/-! ## What is to hold -/

/-- Narrowing lets the member through: it has staged changes, and is on a branch. -/
def takesPart (g : GitSteps) (m : MemberPlan) : Bool :=
  match g.hasStagedChanges m.workDir, g.currentBranch m.workDir with
  | .ok true, .ok _ => true
  | _, _ => false

def BackupFails (g : GitSteps) (m : MemberPlan) : Prop :=
  ∃ err, g.backupCreate m.workDir = .error err

/-- The new commit is on top of what HEAD was before. -/
def OnTop (message : String) (before after : List String) : Prop :=
  ∃ below, after = message :: below ∧ before <:+ below

/-- **Everybody is accounted for.** The members' results are one for each; and the committed
ones are those whose HEAD is on the new commit and was not to be rolled back. A rollback that
fails leaves HEAD on the new commit and is reported as an error. Members that share a
repository share its HEAD, so it tells about a member only if the repository is its own. -/
structure Accounted (plan : List MemberPlan) (message : String) (r : Repos)
    (out : CommitAllOutcome) (t : Repos) : Prop where
  once : (out.memberResults.map (·.memberId)).Perm (plan.map (·.memberId))
  committed : ∀ m ∈ plan, (∀ m' ∈ plan, m'.workDir = m.workDir → m' = m) →
    ((∃ res ∈ out.memberResults, res.memberId = m.memberId ∧ res.status = .committed) ↔
      OnTop message (r.head m.workDir) (t.head m.workDir) ∧ ¬ Reported out m)

/-- No backup fails; or that of the first member that takes part does, and either everybody
takes part or nobody else does. -/
def BackupsCounted (g : GitSteps) (plan : List MemberPlan) : Prop :=
  (∀ m ∈ plan, takesPart g m → ¬ BackupFails g m) ∨
    ∃ m rest, plan.filter (takesPart g) = m :: rest ∧ BackupFails g m ∧
      ((∀ m' ∈ plan, takesPart g m') ∨ rest = [])

theorem not_onTop_self (message : String) (h : List String) : ¬ OnTop message h h := by
  rintro ⟨below, heq, hsuf⟩
  have := hsuf.length_le
  rw [heq, length_cons] at this
  omega

/-! ## Narrowing -/

section

variable (plan : List MemberPlan)

theorem narrow_spec : (active g plan).map Prod.fst = plan.filter (takesPart g) ∧
      (narrow g plan).1.map (·.memberId) = (plan.filter fun m => !takesPart g m).map (·.memberId) ∧
      ∀ res ∈ (narrow g plan).1, res.status ≠ .committed := by
  rw [active]
  induction plan with
  | nil => simp [narrow]
  | cons p plan ih =>
    obtain ⟨hactive, hids, hstatus⟩ := ih
    have hskip : ∀ res : MemberCommitResult, takesPart g p = false → res.memberId = p.memberId →
        res.status ≠ .committed → (narrow g plan).2.map Prod.fst = (p :: plan).filter (takesPart g) ∧
        (res :: (narrow g plan).1).map (·.memberId) =
          ((p :: plan).filter fun m => !takesPart g m).map (·.memberId) ∧
        ∀ res' ∈ res :: (narrow g plan).1, res'.status ≠ .committed := by
      intro res hp hid hres
      simp only [filter_cons, hp, hactive]
      exact ⟨by simp, by simp [hids, hid], List.forall_mem_cons.mpr ⟨hres, hstatus⟩⟩
    rw [narrow]
    rcases hs : g.hasStagedChanges p.workDir with err | staged
    · exact hskip _ (by simp [takesPart, hs]) rfl (by simp)
    · cases staged with
      | false => exact hskip _ (by simp [takesPart, hs]) rfl (by simp)
      | true =>
        rcases hb : g.currentBranch p.workDir with err | branch
        · exact hskip _ (by simp [takesPart, hs, hb]) rfl (by simp)
        · have hp : takesPart g p = true := by simp [takesPart, hs, hb]
          simp only [filter_cons, hp, map_cons, hactive]
          exact ⟨by simp, by simp [hids], hstatus⟩

theorem active_map :
    (active g plan).map Prod.fst = plan.filter (takesPart g) := (narrow_spec plan).1

theorem active_ids : (active g plan).map (fun a => a.1.memberId) =
      (plan.filter (takesPart g)).map (·.memberId) := by
  rw [← active_map, map_map]
  rfl

theorem narrow_perm :
    ((narrow g plan).1.map (·.memberId) ++ (active g plan).map fun a => a.1.memberId).Perm
      (plan.map (·.memberId)) := by
  rw [(narrow_spec plan).2.1, active_ids, ← map_append]
  exact (List.perm_append_comm.trans (filter_append_perm _ plan)).map _

end

theorem once_of_perm {ids : List String}
    (h : ids.Perm ((active g plan).map fun a => a.1.memberId)) :
    ((narrow g plan).1.map (·.memberId) ++ ids).Perm (plan.map (·.memberId)) :=
  (h.append_left _).trans (narrow_perm plan)

/-! ## A failed backup -/

/-- Skipping `k + 1` of the ids before listing them beside `x` loses none only if `x` is the
first, and there is nothing to skip besides. -/
theorem skip_perm_iff {ids : List String} {x : String} (k : Nat) (hd : ids.Nodup) (hx : x ∈ ids) :
    (x :: (ids.drop (k + 1)).filter (· ≠ x)).Perm ids ↔
      ids.head? = some x ∧ (k = 0 ∨ ids.length = 1) := by
  constructor
  · intro hperm
    have hlen := hperm.length_eq
    have hfilter := length_filter_le (· ≠ x) (ids.drop (k + 1))
    rw [length_drop] at hfilter
    rw [length_cons] at hlen
    cases ids with
    | nil => simp at hx
    | cons y ids =>
      rw [length_cons] at hfilter hlen
      cases k with
      | zero =>
        -- the filter takes nothing out, so `x` is not behind the first
        have hall : ids.filter (· ≠ x) = ids :=
          Sublist.eq_of_length filter_sublist (by simpa using hlen)
        have hnot : x ∉ ids := by
          intro hmem
          rw [← hall] at hmem
          simp at hmem
        have := (List.mem_cons.mp hx).resolve_right hnot
        exact ⟨by rw [this]; rfl, .inl rfl⟩
      | succ k =>
        obtain rfl : ids = [] := List.length_eq_zero_iff.mp (by omega)
        have := List.mem_singleton.mp hx
        exact ⟨by rw [this]; rfl, .inr rfl⟩
  · rintro ⟨hhead, hk⟩
    cases ids with
    | nil => simp at hhead
    | cons y ids =>
      obtain rfl : y = x := by simpa using hhead
      have hnot := (List.nodup_cons.mp hd).1
      rcases hk with rfl | hlen
      · have hall : ids.filter (· ≠ y) = ids := by
          refine List.filter_eq_self.mpr fun z hz => ?_
          simp only [ne_eq, decide_eq_true_eq]
          rintro rfl
          exact hnot hz
        simp only [zero_add, drop_succ_cons, drop_zero]
        rw [hall]
      · obtain rfl : ids = [] := by simpa using hlen
        simp

theorem abortBackup_ids (results : List MemberCommitResult) (as : List (MemberPlan × String))
    (m : MemberPlan) (err : String) :
    (abortBackup results as m err).map (·.memberId) = results.map (·.memberId) ++ m.memberId ::
        ((as.map fun a => a.1.memberId).drop (results.length + 1)).filter (· ≠ m.memberId) := by
  simp [abortBackup, ← map_drop, filter_map, Function.comp_def]

theorem abortBackup_status {results : List MemberCommitResult}
    (h : ∀ res ∈ results, res.status ≠ .committed) (as : List (MemberPlan × String))
    (m : MemberPlan) (err : String) :
    ∀ res ∈ abortBackup results as m err, res.status ≠ .committed := by
  intro res hres
  simp only [abortBackup, mem_append, mem_singleton, mem_map] at hres
  rcases hres with (hres | rfl) | ⟨a, -, rfl⟩
  · exact h res hres
  · simp
  · simp

/-- **Everybody is reported at a failed backup only if nobody had to be skipped.** -/
theorem abortBackup_perm_iff {r : Repos}
    {m : MemberPlan} {err : String} {t : Repos} (hd : (plan.map (·.memberId)).Nodup)
    (h : backUpAll g (active g plan) r = .error (m, err, t)) :
    ((abortBackup (narrow g plan).1 (active g plan) m err).map (·.memberId)).Perm
        (plan.map (·.memberId)) ↔
      BackupsCounted g plan := by
  obtain ⟨before, a, after, hsplit, ha, hfails, hbefore⟩ := (backUpAll_error h).2.2
  subst ha
  have hfilter : plan.filter (takesPart g) = before.map Prod.fst ++ a.1 :: after.map Prod.fst := by
    rw [← active_map, hsplit]
    simp
  have hmem : a.1 ∈ plan ∧ takesPart g a.1 := by
    have : a.1 ∈ plan.filter (takesPart g) := by simp [hfilter]
    exact List.mem_filter.mp this
  have hids : ((active g plan).map fun a => a.1.memberId).Nodup := by
    rw [active_ids]
    exact hd.sublist (List.filter_sublist.map _)
  have hlen : (narrow g plan).1.length = (plan.filter fun m => !takesPart g m).length := by
    simpa using congrArg List.length (narrow_spec (g := g) plan).2.1
  have hskip : (narrow g plan).1.length = 0 ↔ ∀ m' ∈ plan, takesPart g m' := by
    rw [hlen, length_eq_zero_iff, filter_eq_nil_iff]
    simp
  rw [abortBackup_ids, (narrow_perm (g := g) plan).symm.congr_right _,
    perm_append_left_iff, skip_perm_iff _ hids (by rw [hsplit]; simp), hskip, hsplit]
  constructor
  · rintro ⟨hhead, hrest⟩
    -- the member is the first that takes part, for no other has its id
    obtain rfl : before = [] := by
      cases before with
      | nil => rfl
      | cons b before =>
        rw [hsplit] at hids
        simp only [cons_append, map_cons, head?_cons, Option.some.injEq,
          map_append, nodup_cons] at hhead hids
        rw [hhead] at hids
        simp at hids
    refine .inr ⟨a.1, after.map Prod.fst, by simpa using hfilter, hfails, ?_⟩
    refine hrest.imp_right fun hone => ?_
    simpa using hone
  · rintro (hnone | ⟨m, rest, hm, hfail, hrest⟩)
    · exact absurd hfails (hnone a.1 hmem.1 hmem.2)
    · obtain rfl : before = [] := by
        cases before with
        | nil => rfl
        | cons b before =>
          rw [hfilter] at hm
          obtain ⟨rfl, -⟩ := List.cons.inj hm
          exact absurd hfail (hbefore b (mem_cons_self ..))
      rw [hfilter] at hm
      obtain ⟨-, rfl⟩ := List.cons.inj hm
      refine ⟨by simp, hrest.imp_right fun hone => ?_⟩
      simpa using hone

/-! ## A failed hook -/

theorem noteBackup_ids (id : String) (backupRef : Option String)
    (failures : List MemberCommitResult) :
    (noteBackup id backupRef failures).map (·.memberId) = failures.map (·.memberId) := by
  induction failures with
  | nil => rfl
  | cons f failures ih =>
    rw [noteBackup]
    split
    · rfl
    · simp [ih]

theorem noteBackup_status {id : String} {backupRef : Option String}
    {failures : List MemberCommitResult} (h : ∀ res ∈ failures, res.status ≠ .committed) :
    ∀ res ∈ noteBackup id backupRef failures, res.status ≠ .committed := by
  induction failures with
  | nil => exact h
  | cons f failures ih =>
    obtain ⟨hf, hrest⟩ := List.forall_mem_cons.mp h
    rw [noteBackup]
    split
    · exact List.forall_mem_cons.mpr ⟨hf, hrest⟩
    · exact List.forall_mem_cons.mpr ⟨hf, ih hrest⟩

/-- The loop reports the members that have not failed, and leaves the failures theirs. -/
theorem abortHooks_spec {results failures : List MemberCommitResult}
    {as : List ((MemberPlan × String) × Option String)}
    (hr : ∀ res ∈ results, res.status ≠ .committed)
    (hf : ∀ res ∈ failures, res.status ≠ .committed) :
    (abortHooks results failures as).map (·.memberId) = results.map (·.memberId) ++
          ((as.map fun a => a.1.1.memberId).filter fun id =>
            !failures.any (·.memberId = id)) ++ failures.map (·.memberId) ∧
      ∀ res ∈ abortHooks results failures as, res.status ≠ .committed := by
  rw [abortHooks]
  induction as generalizing results failures with
  | nil => exact ⟨by simp, by simpa [or_imp, forall_and] using ⟨hr, hf⟩⟩
  | cons a as ih =>
    rw [foldl_cons]
    by_cases ha : failures.any (·.memberId = a.1.1.memberId)
    · have hany : ∀ id, (noteBackup a.1.1.memberId a.2 failures).any (·.memberId = id) =
          failures.any (·.memberId = id) := by
        intro id
        have := congrArg (List.any · (· = id)) (noteBackup_ids a.1.1.memberId a.2 failures)
        simpa [any_map, Function.comp_def] using this
      obtain ⟨hids, hstatus⟩ := @ih results (noteBackup a.1.1.memberId a.2 failures) hr
        (noteBackup_status hf)
      rw [if_pos ha]
      refine ⟨?_, hstatus⟩
      rw [hids, noteBackup_ids]
      simp only [hany, map_cons, filter_cons, ha, Bool.not_true, Bool.false_eq_true, if_false]
    · rw [if_neg ha]
      obtain ⟨hids, hstatus⟩ := @ih (results ++ [⟨a.1.1.memberId, .preCommitFailed,
        some "aborted because another member's pre-commit checks failed", a.2⟩]) failures
        (by simpa [or_imp, forall_and] using hr) hf
      refine ⟨?_, hstatus⟩
      rw [hids]
      simp only [map_append, map_cons, map_nil, filter_cons, ha,
        Bool.not_false, if_true, append_assoc, singleton_append]

theorem hookFailures_ids (as : List (MemberPlan × String)) : (hookFailures g as).map (·.memberId) =
      (as.filter fun a => !(g.runPreCommitHookIfPresent a.1.workDir).isOk).map
        fun a => a.1.memberId := by
  induction as with
  | nil => rfl
  | cons a as ih =>
    simp only [hookFailures, filterMap_cons, filter_cons] at ih ⊢
    rcases g.runPreCommitHookIfPresent a.1.workDir with err | u
    · simpa [Except.isOk, Except.toBool] using ih
    · simpa [Except.isOk, Except.toBool] using ih

theorem hookFailures_status (as : List (MemberPlan × String)) :
    ∀ res ∈ hookFailures g as, res.status ≠ .committed := by
  intro res hres
  obtain ⟨a, -, hf⟩ := List.mem_filterMap.mp hres
  rcases hh : g.runPreCommitHookIfPresent a.1.workDir with err | u
  · simp only [hh, Option.some.injEq] at hf
    simp [← hf]
  · simp [hh] at hf

theorem zip_ids (hlen : backups.length = (active g plan).length) :
    ((active g plan).zip backups).map (fun a => a.1.1.memberId) =
      (active g plan).map fun a => a.1.memberId := by
  have hfst : ((active g plan).zip backups).map Prod.fst = active g plan :=
    map_fst_zip (by omega)
  conv_rhs => rw [← hfst, map_map]
  rfl

/-- **Every active member is reported once when a hook fails.** -/
theorem abortHooks_perm
    (hd : (plan.map (·.memberId)).Nodup) (hlen : backups.length = (active g plan).length) :
    ((abortHooks (narrow g plan).1 (hookFailures g (active g plan))
        ((active g plan).zip backups)).map (·.memberId)).Perm (plan.map (·.memberId)) := by
  have hids : ((active g plan).map fun a => a.1.memberId).Nodup := by
    rw [active_ids]
    exact hd.sublist (List.filter_sublist.map _)
  -- an id is among the failures exactly if its member's hook fails
  have hpassed : ((active g plan).map fun a => a.1.memberId).filter
        (fun id => !(hookFailures g (active g plan)).any (·.memberId = id)) =
      ((active g plan).filter fun a => (g.runPreCommitHookIfPresent a.1.workDir).isOk).map
        fun a => a.1.memberId := by
    rw [filter_map]
    congr 1
    refine filter_congr fun a ha => ?_
    have hany : (hookFailures g (active g plan)).any (·.memberId = a.1.memberId) =
        !(g.runPreCommitHookIfPresent a.1.workDir).isOk := by
      have hmem : a.1.memberId ∈ (hookFailures g (active g plan)).map (·.memberId) ↔
          (g.runPreCommitHookIfPresent a.1.workDir).isOk = false := by
        rw [hookFailures_ids, mem_map]
        constructor
        · rintro ⟨b, hb, hid⟩
          obtain ⟨hb, hok⟩ := List.mem_filter.mp hb
          rw [← inj_on_of_nodup_map hids hb ha hid]
          simpa using hok
        · intro hok
          exact ⟨a, List.mem_filter.mpr ⟨ha, by simp [hok]⟩, rfl⟩
      rw [Bool.eq_iff_iff, any_eq_true, Bool.not_eq_true', ← hmem, mem_map]
      simp
    simp [hany]
  rw [(abortHooks_spec (narrow_spec plan).2.2 (hookFailures_status _)).1, zip_ids hlen, hpassed,
    hookFailures_ids, append_assoc]
  refine once_of_perm ?_
  rw [← map_append]
  exact (filter_append_perm _ _).map _

/-! ## The commit stage -/

theorem rollBack_results (acc : CommitAllOutcome × Repos) (c : MemberPlan × Option String) :
    ∃ res : MemberCommitResult, res.memberId = c.1.memberId ∧ res.status ≠ .committed ∧
      (rollBack g acc c).1.memberResults = acc.1.memberResults ++ [res] := by
  obtain ⟨m, backup⟩ := c
  rw [rollBack.eq_def]
  cases backup with
  | none => exact ⟨_, rfl, by simp, rfl⟩
  | some name =>
    dsimp only
    cases g.gitResetSoft m.workDir with
    | error err => exact ⟨_, rfl, by simp, rfl⟩
    | ok u => exact ⟨_, rfl, by simp, rfl⟩

theorem foldl_rollBack_results (cs : List (MemberPlan × Option String))
    {acc : CommitAllOutcome × Repos}
    (h : ∀ res ∈ acc.1.memberResults, res.status ≠ .committed) :
    (cs.foldl (rollBack g) acc).1.memberResults.map (·.memberId) =
        acc.1.memberResults.map (·.memberId) ++ cs.map (fun c => c.1.memberId) ∧
      ∀ res ∈ (cs.foldl (rollBack g) acc).1.memberResults, res.status ≠ .committed := by
  induction cs generalizing acc with
  | nil => exact ⟨by simp, h⟩
  | cons c cs ih =>
    obtain ⟨res, hid, hstatus, heq⟩ := rollBack_results (g := g) acc c
    have hacc : ∀ res ∈ (rollBack g acc c).1.memberResults, res.status ≠ .committed := by
      rw [heq]
      intro res' hres
      rcases List.mem_append.mp hres with hres | hres
      · exact h res' hres
      · rw [List.mem_singleton.mp hres]
        exact hstatus
    obtain ⟨hids, hall⟩ := ih hacc
    rw [foldl_cons]
    refine ⟨?_, hall⟩
    rw [hids, heq]
    simp [hid]

section

variable {message : String} {results : List MemberCommitResult} {r : Repos}
  {as done rest : List ((MemberPlan × String) × Option String)}

section

variable (h : Commits g message as r done rest)
include h

theorem Commits.onTop {dir : String} (hdir : dir ∈ done.map fun a => a.1.1.workDir) :
    OnTop message (r.head dir) ((commitAll g message as r).2.2.head dir) := by
  obtain ⟨n, hn⟩ := Nat.exists_eq_succ_of_ne_zero (List.count_pos_iff.mpr hdir).ne'
  rw [h.head, hn, replicate_succ, cons_append]
  exact ⟨_, rfl, suffix_append ..⟩

theorem Commits.stage_finished (hf : (commitAll g message as r).2.1 = none) :
    commitStage g message results as r =
      (⟨results ++ as.map fun a => ⟨a.1.1.memberId, .committed, none, a.2⟩, []⟩,
        (commitAll g message as r).2.2) := by
  have hdone : as = done := by simpa [h.failure.mp hf] using h.split
  simp only [commitStage, hf, h.committed, ← hdone, map_map]
  rfl

theorem Commits.stage_reports (hf : (commitAll g message as r).2.1 ≠ none)
    (hr : ∀ res ∈ results, res.status ≠ .committed) :
    (commitStage g message results as r).1.memberResults.map (·.memberId) =
        results.map (·.memberId) ++ as.map (fun a => a.1.1.memberId) ∧
      ∀ res ∈ (commitStage g message results as r).1.memberResults, res.status ≠ .committed := by
  obtain ⟨failure, hfailure⟩ := Option.ne_none_iff_exists'.mp hf
  obtain ⟨a, rest', rfl, hid⟩ := h.failed failure hfailure
  obtain ⟨hids, hstatus⟩ := @foldl_rollBack_results g (done.map fun a => (a.1.1, a.2))
    (⟨results, []⟩, (commitAll g message as r).2.2) hr
  simp only [commitStage, hfailure, h.committed, finishFailed]
  constructor
  · have hdrop : as.drop (done.length + 1) = rest' := by
      rw [h.split, ← drop_drop, drop_left, drop_one, tail_cons]
    rw [length_map, hdrop, map_append, map_append, hids, h.split]
    simp [hid, Function.comp_def]
  · intro res hres
    simp only [mem_append, mem_singleton, mem_map] at hres
    rcases hres with (hres | rfl) | ⟨b, -, rfl⟩
    · exact hstatus res hres
    · simp
    · simp

end

end

section

variable {plan : List MemberPlan} {message : String} {r t : Repos} {out : CommitAllOutcome}

/-- Where nobody is reported as committed and every HEAD is where it was, or its rollback is
reported to have failed, it is only the number of the results that counts. -/
theorem accounted_iff_once (hnone : ∀ res ∈ out.memberResults, res.status ≠ .committed)
    (hheads : ∀ m ∈ plan, (∀ m' ∈ plan, m'.workDir = m.workDir → m' = m) →
      t.head m.workDir = r.head m.workDir ∨ Reported out m) :
    Accounted plan message r out t ↔
      (out.memberResults.map (·.memberId)).Perm (plan.map (·.memberId)) := by
  refine ⟨fun h => h.once, fun h => ⟨h, ?_⟩⟩
  intro m hm hown
  constructor
  · rintro ⟨res, hres, -, hstatus⟩
    exact absurd hstatus (hnone res hres)
  · rintro ⟨hon, hreported⟩
    rcases hheads m hm hown with hsame | hrep
    · rw [hsame] at hon
      exact absurd hon (not_onTop_self _ _)
    · exact absurd hrep hreported

theorem mem_of_mem_zip
    {a : (MemberPlan × String) × Option String} (ha : a ∈ (active g plan).zip backups) :
    a.1.1 ∈ plan ∧ takesPart g a.1.1 := by
  have hmem : a.1.1 ∈ (active g plan).map Prod.fst :=
    List.mem_map.mpr ⟨a.1, (of_mem_zip ha).1, rfl⟩
  rw [active_map] at hmem
  exact List.mem_filter.mp hmem

theorem commitStage_accounted
    (hd : (plan.map (·.memberId)).Nodup) (hlen : backups.length = (active g plan).length)
    (hb : ∀ a ∈ (active g plan).zip backups, ∃ name, a.2 = some name ∧
      r.backup a.1.1.workDir name = some (r.head a.1.1.workDir))
    (h : commitStage g message (narrow g plan).1 ((active g plan).zip backups) r = (out, t)) :
    Accounted plan message r out t := by
  obtain ⟨done, rest, hstops⟩ := commitAll_spec (g := g) message ((active g plan).zip backups) r
  by_cases hf : (commitAll g message ((active g plan).zip backups) r).2.1 = none
  · -- nothing failed: all active members are committed
    rw [hstops.stage_finished hf] at h
    cases h
    have hdone : (active g plan).zip backups = done := by
      simpa [hstops.failure.mp hf] using hstops.split
    constructor
    · simp only [map_append, map_map]
      refine once_of_perm ?_
      rw [← zip_ids hlen]
      exact Perm.refl _
    · intro m hm hown
      have hreported : ¬ Reported (⟨(narrow g plan).1 ++ ((active g plan).zip backups).map
          fun a => ⟨a.1.1.memberId, .committed, none, a.2⟩, []⟩ : CommitAllOutcome) m := by
        rintro ⟨err, herr⟩
        simp at herr
      rw [and_iff_left hreported]
      constructor
      · rintro ⟨res, hres, hid, hstatus⟩
        rcases List.mem_append.mp hres with hres | hres
        · exact absurd hstatus ((narrow_spec plan).2.2 res hres)
        · obtain ⟨a, ha, rfl⟩ := List.mem_map.mp hres
          obtain rfl := inj_on_of_nodup_map hd (mem_of_mem_zip ha).1 hm hid
          exact hstops.onTop (List.mem_map.mpr ⟨a, hdone ▸ ha, rfl⟩)
      · intro hon
        have hdir : m.workDir ∈ done.map fun a => a.1.1.workDir := by
          by_contra hnot
          rw [hstops.frame hnot] at hon
          exact not_onTop_self _ _ hon
        obtain ⟨a, ha, hdir⟩ := List.mem_map.mp hdir
        rw [← hdone] at ha
        obtain rfl := hown _ (mem_of_mem_zip ha).1 hdir
        exact ⟨_, mem_append_right _ (List.mem_map.mpr ⟨a, ha, rfl⟩), rfl, rfl⟩
  · obtain ⟨hids, hnone⟩ := hstops.stage_reports hf (narrow_spec plan).2.2
    have hheads := (hstops.stage_failed (narrow g plan).1 (mt hstops.failure.mpr hf) hb).2
    rw [h] at hids hnone hheads
    refine (accounted_iff_once hnone ?_).mpr ?_
    · intro m hm hown
      rcases hheads m.workDir with hsame | ⟨a, ha, hdir, hrep⟩
      · exact .inl hsame
      · have hmem := mem_of_mem_zip (hstops.split ▸ mem_append_left _ ha)
        obtain rfl := hown _ hmem.1 hdir
        exact .inr hrep
    · rw [hids, zip_ids hlen]
      exact narrow_perm plan

end

/-- **Every member is accounted for exactly when** no backup fails, or the one that fails is
that of the first active member and there is nobody it could leave out. -/
theorem members_accounted_iff {plan : List MemberPlan} {message solutionName : String}
    {trailer checks : Bool} {r t : Repos} {out : CommitAllOutcome}
    (hd : (plan.map (·.memberId)).Nodup)
    (h : runOrchestration g plan message solutionName trailer checks r = (out, t)) :
    Accounted plan (finalMessage g message solutionName trailer) r out t ↔
      BackupsCounted g plan := by
  simp only [runOrchestration] at h
  by_cases hactive : active g plan = []
  · -- nobody takes part
    rw [if_pos hactive] at h
    cases h
    have hnobody : plan.filter (takesPart g) = [] := by
      rw [← active_map, hactive]
      rfl
    refine iff_of_true ((accounted_iff_once (narrow_spec plan).2.2 fun _ _ _ =>
      .inl rfl).mpr ?_) (.inl ?_)
    · simpa [hactive] using narrow_perm (g := g) plan
    · intro m hm hpart
      exact absurd hpart (by simpa using List.filter_eq_nil_iff.mp hnobody m hm)
  rw [if_neg hactive] at h
  rcases hbk : backUpAll g (active g plan) r with ⟨m, err, r₂⟩ | ⟨backups, r₂⟩
  · rw [hbk] at h
    cases h
    obtain ⟨hhead, -⟩ := backUpAll_error hbk
    rw [accounted_iff_once (abortBackup_status (narrow_spec plan).2.2 _ _ _)
      (fun m _ _ => .inl (congrFun hhead _))]
    exact abortBackup_perm_iff hd hbk
  rw [hbk] at h
  dsimp only at h
  obtain ⟨hhead, -, hlen, -, hbackup, hok⟩ := backUpAll_ok hbk
  refine iff_of_true ?_ (.inl ?_)
  · by_cases hhook : checks = true ∧ hookFailures g (active g plan) ≠ []
    · rw [if_pos hhook] at h
      cases h
      refine (accounted_iff_once ?_ fun m _ _ => .inl (congrFun hhead _)).mpr
        (abortHooks_perm hd hlen)
      exact (abortHooks_spec (narrow_spec plan).2.2 (hookFailures_status _)).2
    · rw [if_neg hhook] at h
      have hacc := commitStage_accounted hd hlen (by
        intro a ha
        rw [hhead]
        exact hbackup a ha) h
      refine ⟨hacc.once, fun m hm hown => ?_⟩
      rw [← hhead]
      exact hacc.committed m hm hown
  · rintro m hm hpart ⟨err, herr⟩
    have hmem : m ∈ (active g plan).map Prod.fst := by
      rw [active_map]
      exact List.mem_filter.mpr ⟨hm, hpart⟩
    obtain ⟨a, ha, rfl⟩ := List.mem_map.mp hmem
    obtain ⟨now, hnow⟩ := hok a ha
    rw [herr] at hnow
    simp at hnow

/-- Both members of the sample have staged changes; the second cannot be backed up. -/
def lateBackupSteps : GitSteps :=
  { sampleSteps fun _ => false with
    backupCreate := fun dir =>
      if dir = "/work/lib" then .error "read-only file system" else .ok 1700000000 }

theorem members_accounted_both_committed :
    Accounted samplePlan "fix" sampleRepos (sampleRun fun _ => false).1
      (sampleRun fun _ => false).2 := by
  have hrun : sampleRun (fun _ => false) =
      ((sampleRun fun _ => false).1, (sampleRun fun _ => false).2) := rfl
  refine (members_accounted_iff (by decide : (samplePlan.map (·.memberId)).Nodup) hrun).mpr
    (.inl ?_)
  rintro m - - ⟨err, h⟩
  simp [sampleSteps] at h

/-- `lib` fails, and `app`, which was backed up before it, is in no result. -/
theorem members_accounted_fails_late_backup : (samplePlan.map (·.memberId)).Nodup ∧
      ¬ Accounted samplePlan "fix" sampleRepos
        (runOrchestration lateBackupSteps samplePlan "fix" "work" false true sampleRepos).1
        (runOrchestration lateBackupSteps samplePlan "fix" "work" false true sampleRepos).2 := by
  refine ⟨by decide, fun h => ?_⟩
  have hids : (runOrchestration lateBackupSteps samplePlan "fix" "work" false true
      sampleRepos).1.memberResults.map (·.memberId) = ["lib"] := by rfl
  have := h.once.length_eq
  rw [hids] at this
  simp [samplePlan] at this

end SpkEditor.SolutionCommit
