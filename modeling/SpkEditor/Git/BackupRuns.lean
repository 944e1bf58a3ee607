import SpkEditor.Git.Backup

/-!
# Backups over whole runs

A run mixes calls of `create` and `cleanup` with whatever else happens in the repository:
branches move, other refs come and go. A backup that `create` returned should be there
until a cleanup has passed its second.

It is, unless a later `create` files another commit under the same name: the name holds
the branch in a lossy encoding and the time in whole seconds only, and `update-ref` is not
asked to check what was there.
-/

namespace SpkEditor.Backup

open Cut List

/-- What happens in a repository. -/
inductive Call where
  | create (branch op : List Char) (now : UnixSeconds) (result : Except CreateError BackupRef)
  | cleanup (olderThanDays : Nat) (now : UnixSeconds) (removed : Nat)
  /-- Anything else that leaves the backup refs alone. -/
  | other

def Call.created : Call → Option BackupRef
  | .create _ _ _ (.ok b) => some b
  | _ => none

def Call.cutoff : Call → Option Int
  | .cleanup days now _ => some (Backup.cutoff now days)
  | _ => none

section

variable {σ : Type} [GitRefs σ]

/-- One call, on operation names without slashes. -/
inductive Step : σ → Call → σ → Prop where
  | created {s t : σ} {branch op : List Char} {now : UnixSeconds} {b : BackupRef} :
      '/' ∉ op → create s now branch op = .ok (b, t) → Step s (.create branch op now (.ok b)) t
  | failed {s : σ} {branch op : List Char} {now : UnixSeconds} {e : CreateError} :
      '/' ∉ op → create s now branch op = .error e → Step s (.create branch op now (.error e)) s
  | cleanup {s t : σ} {days removed : Nat} {now : UnixSeconds} :
      cleanup s now days = (removed, t) → Step s (.cleanup days now removed) t
  | other {s t : σ} :
      (∀ name, refDir ++ ['/'] <+: name → GitRefs.resolve t name = GitRefs.resolve s name) →
      Step s .other t

/-- The call does not file a second commit under the name of a backup that is there. -/
def Spares (s : σ) : Call → Prop
  | .create branch op now _ =>
    ∀ tip old, GitRefs.tip s branch = some tip →
      GitRefs.resolve s (BackupRef.refName ⟨branch, op, now, tip⟩) = some old → old = tip
  | _ => True

def NoBackups (s : σ) : Prop := ∀ name, refDir ++ ['/'] <+: name → GitRefs.resolve s name = none

/-- **Backups are durable** in a run from `s` to `t`: a returned backup resolves until a
cleanup passes its second, and each cleanup deletes the backups older than its cutoff and
nothing else. -/
structure Durable (s : σ) (calls : List Call) (t : σ) : Prop where
  resolves : ∀ before c after b, calls = before ++ c :: after → c.created = some b →
    (∀ c' ∈ after, ∀ cut ∈ c'.cutoff, cut ≤ b.timestampUnix) →
    GitRefs.resolve t b.refName = some b.beforeSha
  exact : ∀ before c after u v cut, calls = before ++ c :: after → Run Step s before u →
    Step u c v → c.cutoff = some cut → ∀ name,
    ((GitRefs.resolve v name = none ∧ ∃ b ∈ before.filterMap Call.created,
        b.refName = name ∧ (b.timestampUnix : Int) < cut) ∨
      (GitRefs.resolve v name = GitRefs.resolve u name ∧ ¬ ∃ b ∈ before.filterMap Call.created,
        b.refName = name ∧ (b.timestampUnix : Int) < cut))

end

section

variable {σ : Type} [GitRefs σ]

theorem create_eq_ok {s t : σ} {now : UnixSeconds} {branch op : List Char} {b : BackupRef}
    (h : create s now branch op = .ok (b, t)) :
    ∃ tip, GitRefs.tip s branch = some tip ∧ b = ⟨branch, op, now, tip⟩ ∧
      GitRefs.updateRef s b.refName tip = some t := by
  rw [create] at h
  split at h
  · simp at h
  · rename_i tip htip
    dsimp only at h
    split at h
    · simp at h
    · rename_i u hu
      obtain ⟨rfl, rfl⟩ : _ = b ∧ u = t := by simpa using h
      exact ⟨tip, htip, rfl, hu⟩

theorem refDir_isPrefix_refName (b : BackupRef) : refDir ++ ['/'] <+: b.refName :=
  ⟨sanitizeBranch b.branch ++ '/' :: leaf b.timestampUnix b.op, by simp [BackupRef.refName]⟩

theorem Step.wf {s t : σ} {c : Call} {b : BackupRef} (h : Step s c t) (hb : c.created = some b) :
    b.Wf := by
  cases h with
  | @created _ branch op now b' hop hc =>
    obtain rfl : b' = b := by simpa [Call.created] using hb
    obtain ⟨tip, -, rfl, -⟩ := create_eq_ok hc
    exact ⟨hop, now.isLt⟩
  | failed => simp [Call.created] at hb
  | cleanup => simp [Call.created] at hb
  | other => simp [Call.created] at hb

variable [LawfulGitRefs σ]

section

variable {s t : σ} {c : Call} {b : BackupRef} (h : Step s c t)
include h

theorem Step.resolve_created (hb : c.created = some b) : GitRefs.resolve t b.refName = some b.beforeSha := by
  cases h with
  | @created _ branch op now b' hop hc =>
    obtain rfl : b' = b := by simpa [Call.created] using hb
    obtain ⟨tip, -, rfl, hu⟩ := create_eq_ok hc
    rw [LawfulGitRefs.resolve_updateRef hu, if_pos rfl]
  | failed => simp [Call.created] at hb
  | cleanup => simp [Call.created] at hb
  | other => simp [Call.created] at hb

theorem Step.keeps (hs : Spares s c) (hwf : b.Wf) (hcut : ∀ cut ∈ c.cutoff, cut ≤ b.timestampUnix)
    (hb : GitRefs.resolve s b.refName = some b.beforeSha) :
    GitRefs.resolve t b.refName = some b.beforeSha := by
  cases h with
  | created _ hc =>
    obtain ⟨tip, htip, rfl, hu⟩ := create_eq_ok hc
    rw [LawfulGitRefs.resolve_updateRef hu]
    split
    · -- the same name again: it must have been the same commit
      rename_i hn
      rw [hn] at hb
      rw [hs tip b.beforeSha htip hb]
    · exact hb
  | failed => exact hb
  | @cleanup _ days removed now hc =>
    have ht : t = (Backup.cleanup s now days).2 := by rw [hc]
    rw [ht, resolve_cleanup, if_neg, hb]
    rintro ⟨e, he, hlt, hn⟩
    have hts := (wf_of_mem_list he).timestamp_eq hwf hn
    have := hcut (Backup.cutoff now days) rfl
    omega
  | other ho => rw [ho _ (refDir_isPrefix_refName b), hb]

end

/-- Every backup ref there is was returned by a `create` of the run. -/
def Known (created : List BackupRef) (s : σ) : Prop :=
  ∀ name, refDir ++ ['/'] <+: name → (GitRefs.resolve s name).isSome →
    ∃ b ∈ created, b.refName = name

theorem Step.known {s t : σ} {c : Call} {bs : List BackupRef} (h : Step s c t)
    (hk : Known bs s) : Known (bs ++ c.created.toList) t := by
  intro name hdir hr
  cases h with
  | @created _ branch op now b hop hc =>
    obtain ⟨tip, -, -, hu⟩ := create_eq_ok hc
    rw [LawfulGitRefs.resolve_updateRef hu] at hr
    by_cases hn : name = b.refName
    · exact ⟨b, by simp [Call.created], hn.symm⟩
    · rw [if_neg hn] at hr
      obtain ⟨b', hb', he⟩ := hk name hdir hr
      exact ⟨b', mem_append_left _ hb', he⟩
  | failed =>
    obtain ⟨b', hb', he⟩ := hk name hdir hr
    exact ⟨b', mem_append_left _ hb', he⟩
  | @cleanup _ days removed now hc =>
    have ht : t = (Backup.cleanup s now days).2 := by rw [hc]
    rw [ht, resolve_cleanup] at hr
    split at hr
    · simp at hr
    · obtain ⟨b', hb', he⟩ := hk name hdir hr
      exact ⟨b', mem_append_left _ hb', he⟩
  | other ho =>
    rw [ho name hdir] at hr
    obtain ⟨b', hb', he⟩ := hk name hdir hr
    exact ⟨b', mem_append_left _ hb', he⟩

omit [LawfulGitRefs σ] in
theorem Run.wf {s t : σ} {calls : List Call} (h : Run Step s calls t) :
    ∀ b ∈ calls.filterMap Call.created, b.Wf := by
  induction h with
  | nil => simp
  | cons hs _ ih =>
    intro b hb
    obtain ⟨c, hc, hcb⟩ := List.mem_filterMap.mp hb
    rcases List.mem_cons.mp hc with rfl | hc
    · exact hs.wf hcb
    · exact ih b (List.mem_filterMap.mpr ⟨c, hc, hcb⟩)

theorem Run.known {s t : σ} {calls : List Call} (h : Run Step s calls t) {bs : List BackupRef}
    (hk : Known bs s) : Known (bs ++ calls.filterMap Call.created) t := by
  induction h generalizing bs with
  | nil => simpa using hk
  | @cons _ _ _ c calls hs _ ih =>
    have := ih (hs.known hk)
    cases hc : c.created with
    | none => simpa [hc] using this
    | some b => simpa [hc] using this

theorem Run.keepsBackup {s t : σ} {calls : List Call} {b : BackupRef}
    (h : Run (fun s c t => Step s c t ∧ Spares s c) s calls t) (hwf : b.Wf)
    (hcut : ∀ c ∈ calls, ∀ cut ∈ c.cutoff, cut ≤ b.timestampUnix)
    (hb : GitRefs.resolve s b.refName = some b.beforeSha) :
    GitRefs.resolve t b.refName = some b.beforeSha := by
  induction h with
  | nil => exact hb
  | cons hs _ ih =>
    exact ih (fun c hc => hcut c (mem_cons_of_mem _ hc))
      (hs.1.keeps hs.2 hwf (hcut _ (mem_cons_self ..)) hb)

/-- **A cleanup is exact**: of the backups of a run it deletes those older than its
cutoff, and no other ref. -/
theorem cleanup_exact {s t : σ} {bs : List BackupRef} (hk : Known bs s) (hwf : ∀ b ∈ bs, b.Wf)
    {days removed : Nat} {now : UnixSeconds} (h : cleanup s now days = (removed, t))
    (name : List Char) :
    (GitRefs.resolve t name = none ∧
        ∃ b ∈ bs, b.refName = name ∧ (b.timestampUnix : Int) < cutoff now days) ∨
      (GitRefs.resolve t name = GitRefs.resolve s name ∧
        ¬ ∃ b ∈ bs, b.refName = name ∧ (b.timestampUnix : Int) < cutoff now days) := by
  have ht : t = (cleanup s now days).2 := by rw [h]
  rw [ht, resolve_cleanup]
  by_cases hold : ∃ b ∈ bs, b.refName = name ∧ (b.timestampUnix : Int) < cutoff now days
  · refine Or.inl ⟨?_, hold⟩
    obtain ⟨b, hb, rfl, hlt⟩ := hold
    split
    · rfl
    · -- it was not listed, so it was not there
      rename_i hno
      rw [← Option.not_isSome_iff_eq_none]
      intro hr
      obtain ⟨e, he, hn, hts⟩ := exists_mem_list (hwf b hb) hr
      exact hno ⟨e, he, by rw [hts]; exact hlt, hn⟩
  · refine Or.inr ⟨?_, hold⟩
    rw [if_neg]
    rintro ⟨e, he, hlt, rfl⟩
    -- the entry was read off a ref of the run, so it has its name and its second
    obtain ⟨sha, n, hr, hdir, hp⟩ := mem_list.mp he
    rw [parseLine_append (LawfulGitRefs.plain hr).2.1] at hp
    have hdir' : refDir ++ ['/'] <+: n := by
      rcases hdir with rfl | hdir
      · have : parseName refDir = none := by decide
        rw [this] at hp
        simp at hp
      · exact hdir
    obtain ⟨b, hb, rfl⟩ := hk n hdir' (by rw [hr]; rfl)
    rw [(hwf b hb).parseName_refName] at hp
    cases hp
    refine hold ⟨b, hb, ?_, hlt⟩
    simp only [BackupRef.refName,
      sanitizeBranch_unsanitizeBranch (slash_not_mem_sanitizeBranch b.branch)]

/-- **Backups are durable in every run whose calls spare the backups that are there.** -/
theorem backups_durable {s t : σ} {calls : List Call} (h₀ : NoBackups s)
    (h : Run (fun s c t => Step s c t ∧ Spares s c) s calls t) : Durable s calls t where
  resolves := by
    rintro before c after b rfl hb hcut
    obtain ⟨u, -, h₂⟩ := h.split
    cases h₂ with
    | cons hs h₂ => exact Run.keepsBackup h₂ (hs.1.wf hb) hcut (hs.1.resolve_created hb)
  exact := by
    intro before c after u v cut _ hrun hstep hcut name
    have hk : Known [] s := by
      intro n hn hr
      rw [h₀ n hn] at hr
      simp at hr
    cases hstep with
    | created => simp [Call.cutoff] at hcut
    | failed => simp [Call.cutoff] at hcut
    | other => simp [Call.cutoff] at hcut
    | cleanup hc =>
      cases hcut
      simpa using cleanup_exact (Run.known hrun hk) (by simpa using Run.wf hrun) hc name

end

structure RefList where
  tips : List (List Char × List Char)
  refs : List (List Char × List Char)
  plain : ∀ r ∈ refs, Plain r.1 ∧ Plain r.2
  nodup : (refs.map Prod.fst).Nodup

/-- The refs other than `name`. -/
def RefList.others (s : RefList) (name : List Char) : List (List Char × List Char) :=
  s.refs.filter fun r => r.1 ≠ name

theorem RefList.nodup_others (s : RefList) (name : List Char) :
    ((s.others name).map Prod.fst).Nodup :=
  s.nodup.sublist (List.Sublist.map _ filter_sublist)

instance : GitRefs RefList where
  tip s branch := s.tips.lookup branch
  resolve s name := s.refs.lookup name
  updateRef s name sha :=
    if h : Plain name ∧ Plain sha then
      some { s with
        refs := (name, sha) :: s.others name
        plain := by
          intro r hr
          rcases List.mem_cons.mp hr with rfl | hr
          · exact h
          · exact s.plain r (List.mem_filter.mp hr).1
        nodup := by
          refine List.nodup_cons.mpr ⟨?_, s.nodup_others name⟩
          simp [RefList.others]
      }
    else none
  deleteRef s name :=
    some { s with
      refs := s.others name
      plain := fun r hr => s.plain r (List.mem_filter.mp hr).1
      nodup := s.nodup_others name
    }
  forEachRef s pattern :=
    (s.refs.filter fun r => r.1 = pattern ∨ pattern ++ ['/'] <+: r.1).map Prod.swap

theorem lookup_others (s : RefList) (name n : List Char) :
    (s.others name).lookup n = if n = name then none else s.refs.lookup n := by
  rw [RefList.others]
  induction s.refs with
  | nil => simp
  | cons r refs ih =>
    obtain ⟨m, sha⟩ := r
    by_cases hm : m = name
    · rw [filter_cons_of_neg (by simp [hm]), ih]
      by_cases hn : n = name
      · rw [if_pos hn, if_pos hn]
      · rw [if_neg hn, if_neg hn, lookup_cons, beq_eq_false_iff_ne.mpr (hm ▸ hn)]
    · rw [filter_cons_of_pos (by simp [hm]), lookup_cons, lookup_cons, ih]
      by_cases hn : n = m
      · simp [hn, hm]
      · simp [beq_eq_false_iff_ne.mpr hn]

theorem lookup_eq_some_iff_mem {l : List (List Char × List Char)} (h : (l.map Prod.fst).Nodup)
    {name sha : List Char} : l.lookup name = some sha ↔ (name, sha) ∈ l := by
  induction l with
  | nil => simp
  | cons r l ih =>
    obtain ⟨m, sha'⟩ := r
    obtain ⟨hm, hl⟩ := List.nodup_cons.mp h
    by_cases hn : name = m
    · subst hn
      have hno : (name, sha) ∉ l := fun hmem => hm (List.mem_map.mpr ⟨_, hmem, rfl⟩)
      simp [hno, eq_comm]
    · simp [lookup_cons, beq_eq_false_iff_ne.mpr hn, ih hl, hn]

instance : LawfulGitRefs RefList where
  plain {s} _ _ h := s.plain _ ((lookup_eq_some_iff_mem s.nodup).mp h)
  resolve_updateRef := by
    intro s t name sha h n
    simp only [GitRefs.updateRef] at h
    split at h
    · cases h
      simp only [GitRefs.resolve, lookup_cons, lookup_others]
      by_cases hn : n = name
      · simp [hn]
      · simp [beq_eq_false_iff_ne.mpr hn, hn]
    · simp at h
  resolve_deleteRef := by
    intro s t name h n
    cases h
    exact lookup_others s name n
  deleteRef_isSome _ := rfl
  mem_forEachRef := by
    intro s pattern sha name
    simp only [GitRefs.forEachRef, GitRefs.resolve, lookup_eq_some_iff_mem s.nodup, List.mem_map,
      mem_filter, decide_eq_true_eq]
    constructor
    · rintro ⟨⟨n, h⟩, ⟨hm, hp⟩, he⟩
      obtain ⟨rfl, rfl⟩ : h = sha ∧ n = name := by simpa using he
      exact ⟨hm, hp⟩
    · rintro ⟨hm, hp⟩
      exact ⟨(name, sha), ⟨hm, hp⟩, rfl⟩

/-- The first commit of the example, and the one the branch moves to. -/
def firstSha : List Char := List.replicate 40 'a'

def secondSha : List Char := List.replicate 40 'b'

def onBranch (sha : List Char) : RefList := ⟨[("main".toList, sha)], [], by simp, by simp⟩

def withBackup (tip : List Char) (b : BackupRef) (h : Plain b.refName ∧ Plain b.beforeSha) :
    RefList :=
  ⟨[("main".toList, tip)], [(b.refName, b.beforeSha)], by simpa using h, by simp⟩

/-- The backup a reset of `main` makes in second `now`. -/
def resetBackup (now : UnixSeconds) (sha : List Char) : BackupRef :=
  ⟨"main".toList, "reset".toList, now, sha⟩

theorem plain_resetBackup : (Plain (resetBackup 1700000000 firstSha).refName ∧ Plain firstSha) ∧
      (Plain (resetBackup 1700000000 secondSha).refName ∧ Plain secondSha) := by
  decide

set_option maxRecDepth 4000 in
/-- A second later the name is another, and the first backup stays until the cleanup. -/
theorem backups_durable_a_second_later : ∃ t : RefList, Durable (onBranch firstSha)
      [.create "main".toList "reset".toList 1700000000 (.ok (resetBackup 1700000000 firstSha)),
        .other,
        .create "main".toList "reset".toList 1700000001 (.ok (resetBackup 1700000001 secondSha)),
        .cleanup 0 1700000001 1] t := by
  refine ⟨withBackup secondSha (resetBackup 1700000001 secondSha) (by decide),
    backups_durable (fun _ _ => rfl) ?_⟩
  · refine .cons (t := withBackup firstSha (resetBackup 1700000000 firstSha) plain_resetBackup.1)
      ⟨.created (by decide) (by rfl), ?_⟩ ?_
    · intro tip old _ hold
      simp [GitRefs.resolve, onBranch] at hold
    refine .cons (t := withBackup secondSha (resetBackup 1700000000 firstSha) plain_resetBackup.1)
      ⟨.other fun _ _ => rfl, trivial⟩ ?_
    refine .cons ⟨.created (by decide) (by rfl), ?_⟩ ?_
    · intro tip old htip hold
      obtain rfl : secondSha = tip := by simpa [GitRefs.tip, withBackup] using htip
      have hnone : GitRefs.resolve
          (withBackup secondSha (resetBackup 1700000000 firstSha) plain_resetBackup.1)
          (resetBackup 1700000001 secondSha).refName = none := by decide
      exact absurd (hnone.symm.trans hold) (by simp)
    exact .cons ⟨.cleanup (by rfl), trivial⟩ .nil

/-- Two resets of `main` in one second: the second files its own commit under the name of
the first backup, which is lost. -/
theorem backups_durable_fails_within_a_second : ∃ t : RefList, NoBackups (onBranch firstSha) ∧
      Run Step (onBranch firstSha) [.create "main".toList "reset".toList 1700000000
            (.ok (resetBackup 1700000000 firstSha)),
          .other,
          .create "main".toList "reset".toList 1700000000
            (.ok (resetBackup 1700000000 secondSha))] t ∧
      ¬ Durable (onBranch firstSha) [.create "main".toList "reset".toList 1700000000
            (.ok (resetBackup 1700000000 firstSha)),
          .other,
          .create "main".toList "reset".toList 1700000000
            (.ok (resetBackup 1700000000 secondSha))] t := by
  refine ⟨withBackup secondSha (resetBackup 1700000000 secondSha) plain_resetBackup.2,
    fun _ _ => rfl, ?_, ?_⟩
  · refine .cons (t := withBackup firstSha (resetBackup 1700000000 firstSha) plain_resetBackup.1)
      (.created (by decide) (by rfl)) ?_
    refine .cons (t := withBackup secondSha (resetBackup 1700000000 firstSha) plain_resetBackup.1)
      (.other fun _ _ => rfl) ?_
    exact .cons (.created (by decide) (by rfl)) .nil
  · intro h
    have := h.resolves [] _ _ (resetBackup 1700000000 firstSha) rfl rfl (by
      intro c hc cut hcut
      rcases List.mem_cons.mp hc with rfl | hc
      · simp [Call.cutoff] at hcut
      · obtain rfl := List.mem_singleton.mp hc
        simp [Call.cutoff] at hcut)
    exact absurd this (by decide)

end SpkEditor.Backup
