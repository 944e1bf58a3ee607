import SpkEditor.Git.AggregatorPages

/-!
# Calls side by side

Any number of calls of `produce_range` share one session. A call lets go of the lock while
it waits for `git log`, and does not look again at what it finds afterwards: the session may
be another one, and the member may have been given the same batch by another call. `Safe`
can be lost then. It is kept as long as every batch that arrives still fits and every commit
is taken from a session of the call's own key (`Undisturbed`).

A step here is one stage of one call, so calls may change places more often than at the
places where they wait.
-/

namespace SpkEditor.Aggregator

open List Option

variable {gitArgs paths : List (List Char)}

/-- The calls, each with the number it got when it began, and the session they share. -/
structure World (δ : Type) where
  session : Option (Session δ)
  fetches : List (Fetch δ)

def World.init (δ : Type) : World δ := ⟨none, []⟩

/-- What can happen. -/
inductive Event where
  | begin (plan : SessionPlan) (start stop : Nat)
  | step (i : Nat)
  | fail (i : Nat)

/-- A plan as `plan_session` makes it. -/
def SessionPlan.Planned (plan : SessionPlan) : Prop :=
  plan.key = ⟨plan.key.solutionId, plan.gitArgs, plan.paths, plan.eligible.map Prod.fst⟩

instance (plan : SessionPlan) : Decidable plan.Planned := inferInstanceAs (Decidable (_ = _))

/-- A call that waits for `git log`. -/
def Stage.waits : Stage → Bool
  | .initializing | .refilling (_ :: _) => true
  | _ => false

section

variable {δ : Type}

/-- A call begins; a call goes on; or `git log` fails, and the call ends with an error. -/
def World.next (sizes : Sizes) (log : GitLog δ) (w : World δ) : Event → Option (World δ)
  | .begin plan start stop =>
    if plan.Planned then some { w with fetches := w.fetches ++ [.new plan start stop] } else none
  | .step i =>
    match w.fetches[i]? with
    | none => none
    | some f =>
      let r := f.step sizes log w.session
      some ⟨r.1, w.fetches.set i r.2⟩
  | .fail i =>
    match w.fetches[i]? with
    | none => none
    | some f =>
      if f.stage.waits then
        some { w with
          fetches := w.fetches.set i { f with stage := .finished, output := [], sources := [] } }
      else none

def World.Step (sizes : Sizes) (log : GitLog δ) (w : World δ) (e : Event) (w' : World δ) : Prop :=
  w.next sizes log e = some w'

/-- One event after another. -/
def World.nexts (sizes : Sizes) (log : GitLog δ) : List Event → World δ → Option (World δ)
  | [], w => some w
  | e :: es, w =>
    match w.next sizes log e with
    | none => none
    | some w => World.nexts sizes log es w

theorem World.run_nexts {sizes : Sizes} {log : GitLog δ} : ∀ {es : List Event} {w w' : World δ},
    World.nexts sizes log es w = some w' → Run (World.Step sizes log) w es w'
  | [], w, w', h => by
      cases h
      exact .nil
  | e :: es, w, w', h => by
      unfold World.nexts at h
      split at h
      · cases h
      · rename_i w₁ hnext
        exact .cons hnext (World.run_nexts h)

/-! ## Safety -/

/-- **Each buffer, with what has been taken from it, is a beginning of its member's history**,
and `produced` is its length. -/
def Session.Exact (log : GitLog δ) (s : Session δ) : Prop :=
  ∀ b ∈ s.members,
    b.popped ++ b.pending <+: history log s.key.gitArgs s.key.paths b.workDir b.memberId ∧
      b.produced = (b.popped ++ b.pending).length

instance [DecidableEq δ] (log : GitLog δ) (s : Session δ) : Decidable (s.Exact log) :=
  inferInstanceAs (Decidable (∀ b ∈ s.members, _ ∧ _))

/-- **The system is safe**: the session is exact, and calls got their commits from sessions
of their own key. -/
def World.Safe (log : GitLog δ) (w : World δ) : Prop :=
  (∀ s, w.session = some s → s.Exact log) ∧
    ∀ f ∈ w.fetches, f.sources.length = f.output.length ∧ ∀ key ∈ f.sources, key = f.plan.key

/-- A commit will be taken and returned. -/
def Fetch.Serves (f : Fetch δ) (s : Session δ) : Prop :=
  s.totalEmitted < s.cap ∧ f.start ≤ s.totalEmitted ∧ s.totalEmitted < f.stop ∧
    ∃ b ∈ s.members, b.pending ≠ []

/-- **Nothing has come between**: a batch that brings commits finds the member as it was when
the batch was asked for, in a session of the call's key; and a commit to return is taken from
a session of the call's key. -/
def Fetch.Undisturbed (sizes : Sizes) (log : GitLog δ) (f : Fetch δ) (s : Session δ) : Prop :=
  match f.stage with
  | .refilling (r :: _) => r.commits sizes log f.plan ≠ [] →
      ∀ b ∈ s.members, b.memberId = r.memberId →
        s.key = f.plan.key ∧ b.workDir = r.workDir ∧ b.produced = r.produced
  | .pop => f.Serves s → s.key = f.plan.key
  | _ => True

def World.Undisturbed (sizes : Sizes) (log : GitLog δ) (w : World δ) : Event → Prop
  | .step i => ∀ f ∈ w.fetches[i]?, ∀ s ∈ w.session, f.Undisturbed sizes log s
  | _ => True

/-! ## What a step keeps -/

/-- What holds in every state of an undisturbed run. -/
structure World.Inv (log : GitLog δ) (w : World δ) : Prop where
  held : ∀ s, w.session = some s → ∀ b ∈ s.members, Held log s.key.gitArgs s.key.paths b
  planned : ∀ f ∈ w.fetches, f.plan.Planned
  own : ∀ f ∈ w.fetches, f.sources.length = f.output.length ∧ ∀ key ∈ f.sources, key = f.plan.key

variable {sizes : Sizes} {log : GitLog δ} {w w' : World δ}

theorem held_iff {b : MemberBuffer δ} : Held log gitArgs paths b ↔
      b.popped ++ b.pending <+: history log gitArgs paths b.workDir b.memberId ∧
        b.produced = (b.popped ++ b.pending).length := by
  constructor
  · intro h
    rw [h.held, length_take, min_eq_left h.produced]
    exact ⟨ take_prefix _ _, rfl⟩
  · rintro ⟨hpre, hlen⟩
    refine ⟨?_, by rw [hlen]; exact hpre.length_le⟩
    rw [hlen]
    exact (List.prefix_iff_eq_take.mp hpre)

theorem World.Inv.safe (h : w.Inv log) : w.Safe log :=
  ⟨fun s hs b hb => held_iff.mp (h.held s hs b hb), h.own⟩

theorem Held.extend_nil {b : MemberBuffer δ} {batch : Nat}
    (h : Held log gitArgs paths b) : Held log gitArgs paths (b.extend batch []) := by
  refine ⟨?_, h.produced⟩
  show b.popped ++ (b.pending ++ []) = _
  rw [append_nil]
  exact h.held

theorem mem_extendMember {memberId : List Char} {batch : Nat} {commits : List (AggregatedCommit δ)}
    {x : MemberBuffer δ} : ∀ {members : List (MemberBuffer δ)},
      x ∈ extendMember memberId batch commits members →
      x ∈ members ∨ ∃ b ∈ members, b.memberId = memberId ∧ x = b.extend batch commits
  | [], h => absurd h (not_mem_nil)
  | b :: members, h => by
      unfold extendMember at h
      split at h
      · rename_i hb
        rcases List.mem_cons.mp h with rfl | h
        · exact .inr ⟨b, by simp, hb, rfl⟩
        · exact .inl (mem_cons_of_mem _ h)
      · rcases List.mem_cons.mp h with rfl | h
        · exact .inl (by simp)
        · rcases mem_extendMember h with h | ⟨y, hy, hid, rfl⟩
          · exact .inl (mem_cons_of_mem _ h)
          · exact .inr ⟨y, mem_cons_of_mem _ hy, hid, rfl⟩

theorem held_refill {s : Session δ} {plan : SessionPlan} {r : Refill} (hplan : plan.Planned)
    (hs : ∀ b ∈ s.members, Held log s.key.gitArgs s.key.paths b)
    (hfits : r.commits sizes log plan ≠ [] → ∀ b ∈ s.members, b.memberId = r.memberId →
      s.key = plan.key ∧ b.workDir = r.workDir ∧ b.produced = r.produced) :
    ∀ b ∈ (s.refill sizes log plan r).members, Held log s.key.gitArgs s.key.paths b := by
  intro x hx
  rcases mem_extendMember hx with hx | ⟨b, hb, hid, rfl⟩
  · exact hs x hx
  by_cases hnone : r.commits sizes log plan = []
  · rw [hnone]
    exact (hs b hb).extend_nil
  · obtain ⟨hkey, hdir, hprod⟩ := hfits hnone b hb hid
    have hsame : r.commits sizes log plan = runGitLog log b.workDir s.key.gitArgs s.key.paths
        b.produced sizes.refillBatch b.memberId := by
      unfold Refill.commits
      rw [hkey, hplan, hdir, hprod, hid]
    rw [hsame]
    exact (hs b hb).extend sizes.refillBatch

theorem held_pickNext {members : List (MemberBuffer δ)}
    (h : ∀ b ∈ members, Held log gitArgs paths b) :
    ∀ b ∈ (pickNext members).2, Held log gitArgs paths b := by
  unfold pickNext
  split
  · rename_i i c hbest
    intro x hx
    obtain ⟨j, hj⟩ := mem_iff_getElem?.mp hx
    rw [List.getElem?_modify] at hj
    obtain ⟨y, hy, rfl⟩ := Option.map_eq_some_iff.mp hj
    split
    · exact (h y (mem_of_getElem? hy)).popFront
    · exact h y (mem_of_getElem? hy)
  · exact h

theorem popStep_spec {s : Session δ} {f : Fetch δ} :
    (f.popStep s).1.key = s.key ∧ (f.popStep s).2.plan = f.plan ∧
      ((f.popStep s).1.members = s.members ∨ (f.popStep s).1.members = (pickNext s.members).2) ∧
      (((f.popStep s).2.sources = f.sources ∧ (f.popStep s).2.output = f.output) ∨
        (f.Serves s ∧ (f.popStep s).2.sources = f.sources ++ [s.key] ∧
          ∃ c, (f.popStep s).2.output = f.output ++ [c])) := by
  unfold Fetch.popStep
  split
  · exact ⟨rfl, rfl, .inl rfl, .inl ⟨rfl, rfl⟩⟩
  rename_i hcap
  split
  · exact ⟨rfl, rfl, .inl rfl, .inl ⟨rfl, rfl⟩⟩
  rename_i hstop
  split
  · rename_i c members hpick
    rw [hpick]
    by_cases hin : s.totalEmitted ≥ f.start ∧ s.totalEmitted < f.stop
    · rw [if_pos hin]
      refine ⟨rfl, rfl, .inr rfl, .inr ⟨⟨by omega, hin.1, hin.2, ?_⟩, rfl, c, rfl⟩⟩
      -- a commit was found, so some buffer has one
      unfold pickNext at hpick
      cases hbest : bestFrom 0 none s.members with
      | none =>
        rw [hbest] at hpick
        dsimp only at hpick
        split at hpick <;> simp at hpick
      | some x =>
        obtain ⟨k, d⟩ := x
        obtain ⟨hfound, -⟩ := (bestFrom_spec s.members 0 none).1 k d hbest
        obtain ⟨j, b, rest, hj, -, hb⟩ := hfound.resolve_left (by simp)
        exact ⟨b, mem_of_getElem? hj, by rw [hb]; simp⟩
    · rw [if_neg hin]
      exact ⟨rfl, rfl, .inr rfl, .inl ⟨rfl, rfl⟩⟩
  · rename_i members hpick
    rw [hpick]
    exact ⟨rfl, rfl, .inr rfl, .inl ⟨rfl, rfl⟩⟩
  · rename_i members hpick
    rw [hpick]
    exact ⟨rfl, rfl, .inr rfl, .inl ⟨rfl, rfl⟩⟩

theorem step_spec {session : Option (Session δ)} {f : Fetch δ} (hplan : f.plan.Planned)
    (hheld : ∀ s, session = some s → ∀ b ∈ s.members, Held log s.key.gitArgs s.key.paths b)
    (hown : f.sources.length = f.output.length ∧ ∀ key ∈ f.sources, key = f.plan.key)
    (hu : ∀ s ∈ session, f.Undisturbed sizes log s) :
    (∀ s, (f.step sizes log session).1 = some s →
        ∀ b ∈ s.members, Held log s.key.gitArgs s.key.paths b) ∧
      (f.step sizes log session).2.plan = f.plan ∧
      (f.step sizes log session).2.sources.length = (f.step sizes log session).2.output.length ∧
      ∀ key ∈ (f.step sizes log session).2.sources, key = f.plan.key := by
  unfold Fetch.step
  cases hstage : f.stage with
  | start =>
    dsimp only
    split
    · exact ⟨hheld, rfl, hown⟩
    · exact ⟨hheld, rfl, hown⟩
  | initializing =>
    refine ⟨fun s hs b hb => ?_, rfl, hown⟩
    cases hs
    have hserved := serves_session sizes log f.plan
    have hb' := (hserved.fed b hb).toHeld
    rw [hserved.key, hplan]
    exact hb'
  | top =>
    cases session with
    | none => exact ⟨hheld, rfl, hown⟩
    | some s =>
      dsimp only
      cases s.refills sizes with
      | nil => exact ⟨hheld, rfl, hown⟩
      | cons r refills => exact ⟨hheld, rfl, hown⟩
  | refilling refills =>
    cases refills with
    | nil => exact ⟨hheld, rfl, hown⟩
    | cons r refills =>
      cases session with
      | none => exact ⟨hheld, rfl, hown⟩
      | some s =>
        refine ⟨fun s' hs' => ?_, rfl, hown⟩
        obtain rfl := some.inj hs'
        have hfits := hu s rfl
        rw [Fetch.Undisturbed, hstage] at hfits
        exact held_refill hplan (hheld s rfl) hfits
  | pop =>
    cases session with
    | none => exact ⟨hheld, rfl, hown⟩
    | some s =>
      obtain ⟨hkey, hsame, hmembers, hsources⟩ := @popStep_spec δ s f
      refine ⟨fun s' hs' => ?_, hsame, ?_⟩
      · obtain rfl := some.inj hs'
        rw [hkey]
        rcases hmembers with heq | heq
        · rw [heq]
          exact hheld s rfl
        · rw [heq]
          exact held_pickNext (hheld s rfl)
      · dsimp only
        rcases hsources with ⟨hsrc, hout⟩ | ⟨hserve, hsrc, c, hout⟩
        · rw [hsrc, hout]
          exact hown
        · rw [hsrc, hout]
          refine ⟨by simp [hown.1], fun key hk => ?_⟩
          rcases List.mem_append.mp hk with hk | hk
          · exact hown.2 key hk
          · rw [List.mem_singleton.mp hk]
            have hserves := hu s rfl
            rw [Fetch.Undisturbed, hstage] at hserves
            exact hserves hserve
  | finished => exact ⟨hheld, rfl, hown⟩

theorem World.Inv.step (h : w.Inv log) {e : Event} (hs : World.Step sizes log w e w')
    (hu : w.Undisturbed sizes log e) : w'.Inv log := by
  unfold World.Step World.next at hs
  cases e with
  | begin plan start stop =>
    dsimp only at hs
    split at hs
    · rename_i hplan
      cases hs
      refine ⟨h.held, fun f hf => ?_, fun f hf => ?_⟩ <;> rcases List.mem_append.mp hf with hf | hf
      · exact h.planned f hf
      · rw [List.mem_singleton.mp hf]
        exact hplan
      · exact h.own f hf
      · rw [List.mem_singleton.mp hf]
        exact ⟨rfl, by simp [Fetch.new]⟩
    · cases hs
  | step i =>
    dsimp only at hs
    cases hf : w.fetches[i]? with
    | none =>
      rw [hf] at hs
      cases hs
    | some f =>
      rw [hf] at hs
      cases hs
      have hmem := mem_of_getElem? hf
      obtain ⟨hheld, hplan, hown⟩ := step_spec (h.planned f hmem) h.held (h.own f hmem) (hu f hf)
      refine ⟨hheld, fun g hg => ?_, fun g hg => ?_⟩ <;>
        rcases mem_or_eq_of_mem_set hg with hg | rfl
      · exact h.planned g hg
      · rw [hplan]
        exact h.planned f hmem
      · exact h.own g hg
      · rw [hplan]
        exact hown
  | fail i =>
    dsimp only at hs
    cases hf : w.fetches[i]? with
    | none =>
      rw [hf] at hs
      cases hs
    | some f =>
      rw [hf] at hs
      dsimp only at hs
      split at hs
      · cases hs
        have hmem := mem_of_getElem? hf
        refine ⟨h.held, fun g hg => ?_, fun g hg => ?_⟩ <;>
          rcases mem_or_eq_of_mem_set hg with hg | rfl
        · exact h.planned g hg
        · exact h.planned f hmem
        · exact h.own g hg
        · exact ⟨rfl, by simp⟩
      · cases hs

def oneMember : SessionPlan := .new ['s'] [] [] 50000 [(['m'], ['d'])] (by decide)

/-- A member with one commit. -/
def shortLog : GitLog Unit := fun _ _ _ => [⟨['a'], 1, ()⟩]

/-- A member with 201 commits. -/
def longLog : GitLog Unit := fun _ _ _ =>
  (List.range 201).map fun n => ⟨Nat.toDigits 10 (201 - n), 201 - n, ()⟩

/-- Two calls ask for the batch behind the first 200 commits, and both get it. -/
def sameBatchTwice : List Event :=
  .begin oneMember 0 160 :: (List.replicate 305 (.step 0) ++
    ([.begin oneMember 160 170, .step 1, .step 1] ++ (List.replicate 30 (.step 0) ++ [.step 1])))

end

end SpkEditor.Aggregator
