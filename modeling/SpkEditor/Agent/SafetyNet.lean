import SpkEditor.Agent.QueueSteps

/-!
# The safety net of a stopping session

`cancel_turn` arms a timer that ends `Stopping` if nothing else does, and `mutate_state`
drops it when the session leaves `Stopping`. The state is also assigned without
`mutate_state`: by a send that starts a turn, by a thread that is put in place and by the
late error of a turn. The timer and the state agree in every state of a run exactly when
no such assignment hits a session in `Stopping`.
-/

namespace SpkEditor

open Option

variable {M X : Type}

variable {s : SolutionSession M X}

/-- A session holds a timer while it is stopping, the one of this period, and else none. -/
structure SolutionSession.Guarded (s : SolutionSession M X) : Prop where
  armed : s.state = .stopping → s.stoppingSafetyNet = some ⟨s.period, false⟩
  clear : s.state ≠ .stopping → s.stoppingSafetyNet = none

def SolutionAgentStore.Guarded (st : SolutionAgentStore M X) : Prop :=
  ∀ s, st.session = some s → s.Guarded

/-- The step assigns the state of the session `s` without `mutate_state`. -/
def SolutionAgentStore.Assigns (st : SolutionAgentStore M X) (s : SolutionSession M X) : StoreAction M X → Prop
  | .send blocks target _ => blocks ≠ [] ∧ target = .main ∧ s.state ≠ .running
  | .reenter i _ => (∃ blocks, st.tasks[i]? = some (.reenter blocks) ∧ blocks ≠ []) ∧ s.state ≠ .running
  | .threadReady i (.ok _) =>
    (∃ blocks, st.tasks[i]? = some (.resume blocks)) ∨ st.tasks[i]? = some (.reset s.entity) ∨
      st.tasks[i]? = some (.rotate s.entity)
  | .turnEnded i (.error _) => ∃ thread blocks, st.tasks[i]? = some (.turn thread s.acpSessionId blocks)
  | _ => False

def SolutionAgentStore.CutsStopping (st : SolutionAgentStore M X) (a : StoreAction M X) : Prop :=
  ∃ s, st.session = some s ∧ s.state = .stopping ∧ st.Assigns s a

/-! ## What the calls do to state and timer -/

namespace SolutionSession

variable {s s' : SolutionSession M X}

theorem Guarded.congr (h : s.Guarded) (hstate : s'.state = s.state)
    (hnet : s'.stoppingSafetyNet = s.stoppingSafetyNet) (hperiod : s'.period = s.period) : s'.Guarded := by
  refine ⟨fun hs => ?_, fun hs => ?_⟩
  · rw [hnet, hperiod]
    exact h.armed (hstate ▸ hs)
  · rw [hnet]
    exact h.clear (hstate ▸ hs)

theorem Guarded.assign (h : s.Guarded) (hs : s.state ≠ .stopping) (hs' : s'.state ≠ .stopping)
    (hnet : s'.stoppingSafetyNet = s.stoppingSafetyNet) : s'.Guarded :=
  ⟨fun he => absurd he hs', fun _ => hnet ▸ h.clear hs⟩

theorem newIdle_guarded (entity : Nat) (id : AcpSessionId) (thread : Option AcpThread) :
    (newIdle entity id thread : SolutionSession M X).Guarded :=
  ⟨fun h => (nomatch h), fun _ => rfl⟩

/-- `mutate_state` keeps the two in step, whatever it does short of entering `Stopping`. -/
theorem Guarded.mutateState {f : SessionState → SessionState} (h : s.Guarded)
    (hf : f s.state = .stopping → s.state = .stopping) : (s.mutateState f).Guarded := by
  by_cases hs : s.state = .stopping
  · by_cases hn : f s.state = .stopping
    · refine ⟨fun _ => ?_, fun hne => absurd hn hne⟩
      simp only [SolutionSession.mutateState]
      rw [if_neg (fun hc => hc.2 hn)]
      exact h.armed hs
    · refine ⟨fun he => absurd he hn, fun _ => ?_⟩
      simp only [SolutionSession.mutateState]
      rw [if_pos ⟨hs, hn⟩]
  · refine ⟨fun he => absurd (hf he) hs, fun _ => ?_⟩
    simp only [SolutionSession.mutateState]
    rw [if_neg (fun hc => hs hc.1)]
    exact h.clear hs

/-- Entering `Stopping` arms a timer: the slot is free then. -/
theorem Guarded.cancelTurn (h : s.Guarded) : s.cancelTurn.1.Guarded := by
  rw [SolutionSession.cancelTurn]
  split
  case isFalse => exact h
  case isTrue hflight =>
    have hs : s.state ≠ .stopping := by rcases hflight with e | e <;> simp [e]
    have hclear := h.clear hs
    cases s.acpThread with
    | none => exact h
    | some thread =>
      refine ⟨fun _ => ?_, fun hne => absurd ?_ hne⟩
      · simp [SolutionSession.mutateState, armStoppingSafetyNet, hs, hclear]
      · simp [SolutionSession.mutateState, armStoppingSafetyNet, hs, hclear]

theorem Guarded.interruptAndFlushPending (h : s.Guarded) : s.interruptAndFlushPending.1.Guarded := by
  rw [SolutionSession.interruptAndFlushPending]
  split
  · exact h
  · exact Guarded.cancelTurn (h.congr rfl rfl rfl)

theorem Guarded.declineWaiting (h : s.Guarded) : s.declineWaiting.Guarded := by
  obtain ⟨h₁, h₂, h₃, -, -⟩ := declineWaiting_frame s
  exact h.congr h₁ h₂ h₃

/-- The timer of a session that is guarded ends `Stopping`. -/
theorem Guarded.fireSafetyNet (h : s.Guarded) {net : SafetyNet} (hnet : s.stoppingSafetyNet = some net) :
    s.state = .stopping ∧ (s.fireSafetyNet net).Guarded := by
  have hs : s.state = .stopping := by
    by_contra hne
    rw [h.clear hne] at hnet
    exact nomatch hnet
  refine ⟨hs, ?_⟩
  rw [SolutionSession.fireSafetyNet, if_pos hs]
  exact h.mutateState fun he => nomatch he

end SolutionSession

namespace SolutionAgentStore

variable {st st' : SolutionAgentStore M X}

theorem Guarded.session_eq (h : st.Guarded) (he : st'.session = st.session) : st'.Guarded := by
  intro s hs
  exact h s (he ▸ hs)

theorem guarded_some (h : s.Guarded) (he : st.session = some s) : st.Guarded := by
  intro t ht
  rw [he, Option.some.injEq] at ht
  exact ht ▸ h

theorem Guarded.updateSession (h : st.Guarded) {f : SolutionSession M X → SolutionSession M X}
    (hf : ∀ s, st.session = some s → s.Guarded → (f s).Guarded) : (st.updateSession f).Guarded := by
  intro s hs
  obtain ⟨s₀, hs₀, rfl⟩ := Option.map_eq_some_iff.1 hs
  exact hf s₀ hs₀ (h s₀ hs₀)

theorem noteResult_session (st : SolutionAgentStore M X) (blocks : List (Piece M X)) (result : SendResult) :
    (st.noteResult blocks result).session = st.session := by
  unfold noteResult
  split <;> rfl

theorem Sent.guarded [Inhabited M] {blocks : List (Piece M X)} {target : QueueTarget} {env : SendEnv}
    {r : SolutionAgentStore M X × SendResult} (hsent : Sent st blocks target env r) (h : st.Guarded)
    (hns : ∀ s, st.session = some s → blocks ≠ [] → target = .main → s.state ≠ .running → s.state ≠ .stopping) :
    r.1.Guarded := by
  have hassign : ∀ s, st.session = some s → blocks ≠ [] → target = .main → s.state ≠ .running →
      ({ s.declineWaiting with state := .running } : SolutionSession M X).Guarded := by
    intro s hs hb ht hr
    refine (h s hs).declineWaiting.assign ?_ (fun he => nomatch he) rfl
    simpa using hns s hs hb ht hr
  cases hsent with
  | unknown hs => exact h
  | empty s hs hb => exact h
  | queued s hs hb hr =>
    refine guarded_some ?_ rfl
    exact (h s hs).declineWaiting.congr rfl rfl rfl
  | dropped s id hs hb hr ht => exact guarded_some (h s hs).declineWaiting rfl
  | stuck s err hs hb hr ht hthread => exact guarded_some (hassign s hs hb ht hr) rfl
  | woken s hs hb hr ht hthread => exact guarded_some (hassign s hs hb ht hr) rfl
  | started s thread hs hb hr ht hthread => exact guarded_some (hassign s hs hb ht hr) rfl

theorem flush_guarded [Inhabited M] (hg : s.Guarded) (hs : s.state ≠ .stopping)
    (env : SendEnv) : (st.flush s env).Guarded := by
  simp only [flush]
  have hcleared : ({ s with pendingMessages := [] } : SolutionSession M X).Guarded := hg.congr rfl rfl rfl
  split
  · exact guarded_some hcleared rfl
  · refine (sent ..).guarded (guarded_some hcleared rfl) fun t ht _ _ _ => ?_
    cases ht
    exact hs

theorem handleStopped_guarded [Inhabited M] (hg : s.Guarded) (reason : StopReason)
    (env : SendEnv) : (st.handleStopped s reason env).Guarded := by
  have hi : (s.mutateState fun _ => .idle).Guarded := by
    refine hg.mutateState fun he => ?_
    simp at he
  simp only [handleStopped]
  split
  · refine guarded_some ?_ rfl
    exact hi.congr rfl rfl rfl
  · refine flush_guarded ?_ ?_ env
    · exact hi.congr rfl rfl rfl
    · simp [SolutionSession.mutateState]

theorem handleAcpEvent_guarded [Inhabited M] (hg : s.Guarded) (thread : AcpThread)
    (env : SendEnv) (event : AcpThreadEvent) : (st.handleAcpEvent s thread env event).Guarded := by
  cases event with
  | newEntry =>
    refine guarded_some (hg.mutateState fun he => ?_) rfl
    split at he
    · exact nomatch he
    · exact he
  | stopped reason => exact handleStopped_guarded hg reason env
  | error =>
    refine guarded_some (hg.mutateState ?_) rfl
    exact fun he => nomatch he
  | loadError =>
    refine guarded_some (hg.mutateState ?_) rfl
    exact fun he => nomatch he
  | toolAuthorizationRequested call =>
    have hg' : ({ s with acpThread := some (thread.upsertToolCall call) } : SolutionSession M X).Guarded :=
      hg.congr rfl rfl rfl
    refine guarded_some (hg'.mutateState ?_) rfl
    exact fun he => nomatch he
  | toolAuthorizationReceived id =>
    refine guarded_some (hg.mutateState fun he => ?_) rfl
    split at he
    · exact nomatch he
    · exact he
  | entryUpdated waiting =>
    refine guarded_some ?_ rfl
    exact hg.congr rfl rfl rfl

theorem turnError_guarded (hg : s.Guarded) {expected : AcpSessionId} {err : List Char}
    (hns : s.acpSessionId = expected → s.state ≠ .stopping) : (turnError s expected err).Guarded := by
  unfold turnError
  split
  case isTrue he => exact hg.assign (hns he) (fun hc => nomatch hc) rfl
  case isFalse => exact hg

theorem promote_guarded (h : st.Guarded) (hns : ∀ s, st.session = some s → s.state ≠ .stopping)
    (thread : AcpThread) : (st.promote thread).Guarded := by
  unfold promote
  split
  case h_1 s hs =>
    refine guarded_some ?_ rfl
    exact (h s hs).assign (hns s hs) (fun hc => nomatch hc) rfl
  case h_2 => exact guarded_some (SolutionSession.newIdle_guarded ..) rfl

section

variable (h : st.Guarded) {entity : Nat}
  (hns : ∀ s, st.session = some s → s.entity = entity → s.state ≠ .stopping) (thread : AcpThread)
include h hns

theorem finishReset_guarded : (st.finishReset entity thread).Guarded := by
  unfold finishReset
  split
  case h_1 s hs =>
    split
    case isTrue he =>
      refine guarded_some ?_ rfl
      exact (h s hs).assign (hns s hs he) (fun hc => nomatch hc) rfl
    case isFalse => exact h
  case h_2 => exact h

theorem finishRotate_guarded : (st.finishRotate entity thread).Guarded := by
  refine h.updateSession fun s hs hg => ?_
  split
  case isTrue he => exact hg.assign (hns s hs he) (fun hc => nomatch hc) rfl
  case isFalse => exact hg

end

theorem takePendingForDelivery_guarded (h : st.Guarded) (agentId : Option AgentId) (isEndOfTurn : Bool) :
    (st.takePendingForDelivery agentId isEndOfTurn).1.Guarded := by
  unfold takePendingForDelivery
  split
  case h_1 => exact h
  case h_2 s hs =>
    dsimp only
    split <;>
    · refine guarded_some ?_ rfl
      exact (h s hs).congr rfl rfl rfl

/-- **A step that assigns the state of no stopping session keeps timer and state in step.** -/
theorem Guarded.step [Inhabited M] {a : StoreAction M X} (h : st.Guarded) (hc : ¬ st.CutsStopping a)
    (hs : st.step a = some st') : st'.Guarded := by
  have hns : ∀ s, st.session = some s → st.Assigns s a → s.state ≠ .stopping :=
    fun s he ha hstop => hc ⟨s, he, hstop, ha⟩
  cases a with
  | send blocks target env =>
    obtain ⟨r, hsent, he⟩ := send_sent st blocks target env
    obtain rfl : st.send blocks target env = st' := some.inj hs
    rw [he]
    refine Guarded.session_eq (hsent.guarded (h.session_eq rfl) ?_) (noteResult_session ..)
    intro s he hb ht hr
    exact hns s he ⟨fun hnil => hb (by rw [hnil]; rfl), ht, hr⟩
  | acpEvent event env =>
    obtain ⟨s, thread, he, -, rfl⟩ := acpEvent_inv hs
    exact handleAcpEvent_guarded (h s he) thread env event
  | takePendingForDelivery agentId isEndOfTurn =>
    cases hs
    exact takePendingForDelivery_guarded h agentId isEndOfTurn
  | cancelTurn =>
    cases hs
    exact h.updateSession fun s _ hg => hg.cancelTurn
  | interruptAndFlushPending =>
    cases hs
    exact h.updateSession fun s _ hg => hg.interruptAndFlushPending
  | resumeSession acpSessionId =>
    cases hs
    unfold resumeSession
    split <;> exact h.session_eq rfl
  | resetContext =>
    cases hs
    unfold resetContext
    split <;> exact h.session_eq rfl
  | rotateContext =>
    cases hs
    unfold rotateContext
    split
    · exact h
    · split <;> exact h.session_eq rfl
  | closeSession =>
    cases hs
    unfold closeSession
    split
    · exact h
    · exact fun s he => nomatch he
  | forceIdle =>
    cases hs
    refine h.updateSession fun s _ hg => hg.mutateState ?_
    exact fun he => nomatch he
  | timer =>
    obtain ⟨s, net, he, hnet, -, rfl⟩ := timer_inv hs
    exact guarded_some ((h s he).fireSafetyNet hnet).2 rfl
  | prompt i =>
    obtain ⟨thread, expected, blocks, -, -, rfl⟩ := prompt_inv hs
    exact h.session_eq rfl
  | turnEnded i result =>
    obtain ⟨thread, expected, -, -, rfl⟩ | ⟨thread, expected, blocks, err, htask, rfl, rfl⟩ := turnEnded_inv hs
    · exact h.session_eq rfl
    · have hup : (st.updateSession fun s => turnError s expected err).Guarded := by
        refine h.updateSession fun s he hg => turnError_guarded hg fun hid => ?_
        subst hid
        exact hns s he ⟨thread, blocks, htask⟩
      exact hup.session_eq rfl
  | threadReady i result =>
    cases threadReady_inv hs with
    | resumed blocks thread htask =>
      exact (promote_guarded h (fun s he => hns s he (.inl ⟨blocks, htask⟩)) thread).session_eq rfl
    | notResumed blocks err htask => exact h.session_eq rfl
    | reset entity thread htask =>
      refine (finishReset_guarded h (fun s he hent => hns s he (.inr (.inl ?_))) thread).session_eq rfl
      rw [hent, htask]
    | rotated entity thread htask =>
      refine (finishRotate_guarded h (fun s he hent => hns s he (.inr (.inr ?_))) thread).session_eq rfl
      rw [hent, htask]
    | gaveUp task err htask hblocks => exact h.session_eq rfl
  | reenter i env =>
    obtain ⟨blocks, htask, r, hsent, rfl⟩ := reenter_inv hs
    refine Guarded.session_eq (hsent.guarded (h.session_eq rfl) ?_) (noteResult_session ..)
    intro s he hb _ hr
    exact hns s he ⟨⟨blocks, htask, hb⟩, hr⟩

/-! ## The assignment that leaves a timer behind -/

/-- A session that is not stopping holds a timer. -/
def Stale (st : SolutionAgentStore M X) : Prop :=
  ∃ s, st.session = some s ∧ s.state ≠ .stopping ∧ s.stoppingSafetyNet ≠ none

theorem Stale.not_guarded (h : st.Stale) : ¬ st.Guarded := by
  intro hg
  obtain ⟨s, hs, hstate, hnet⟩ := h
  exact hnet ((hg s hs).clear hstate)

theorem Stale.session_eq (h : st.Stale) (he : st'.session = st.session) : st'.Stale := by
  obtain ⟨s, hs, hstate, hnet⟩ := h
  exact ⟨s, he ▸ hs, hstate, hnet⟩

theorem Sent.stale [Inhabited M] {blocks : List (Piece M X)} {env : SendEnv}
    {r : SolutionAgentStore M X × SendResult} (hsent : Sent st blocks .main env r)
    (hs : st.session = some s) (hstop : s.state = .stopping) (hnet : s.stoppingSafetyNet ≠ none)
    (hb : blocks ≠ []) : r.1.Stale := by
  have hleft : ({ s.declineWaiting with state := .running } : SolutionSession M X).stoppingSafetyNet ≠ none := by
    rw [← (SolutionSession.declineWaiting_frame s).2.1] at hnet
    exact hnet
  cases hsent with
  | unknown hs' => simp [hs] at hs'
  | empty s' hs' hb' => exact absurd hb' hb
  | queued s' hs' hb' hr =>
    obtain rfl := some.inj (hs.symm.trans hs')
    simp [hstop] at hr
  | dropped s' id hs' hb' hr ht => exact nomatch ht
  | stuck s' err hs' hb' hr ht hthread =>
    obtain rfl := some.inj (hs.symm.trans hs')
    exact ⟨_, rfl, fun he => (nomatch he), hleft⟩
  | woken s' hs' hb' hr ht hthread =>
    obtain rfl := some.inj (hs.symm.trans hs')
    exact ⟨_, rfl, fun he => (nomatch he), hleft⟩
  | started s' thread hs' hb' hr ht hthread =>
    obtain rfl := some.inj (hs.symm.trans hs')
    exact ⟨_, rfl, fun he => (nomatch he), hleft⟩

/-- **Assigning the state of a stopping session leaves its timer behind.** -/
theorem CutsStopping.stale [Inhabited M] {a : StoreAction M X} (hc : st.CutsStopping a) (h : st.Guarded)
    (hs : st.step a = some st') : st'.Stale := by
  obtain ⟨s, he, hstop, ha⟩ := hc
  have hnet : s.stoppingSafetyNet ≠ none := by simp [(h s he).armed hstop]
  cases a with
  | send blocks target env =>
    obtain ⟨hb, rfl, -⟩ := ha
    obtain ⟨r, hsent, hr⟩ := send_sent st blocks .main env
    obtain rfl : st.send blocks .main env = st' := some.inj hs
    rw [hr]
    refine Stale.session_eq (hsent.stale he hstop hnet ?_) (noteResult_session ..)
    exact fun hn => hb (List.map_eq_nil_iff.1 hn)
  | reenter i env =>
    obtain ⟨⟨blocks, htask, hb⟩, -⟩ := ha
    obtain ⟨blocks', htask', r, hsent, rfl⟩ := reenter_inv hs
    obtain rfl : blocks = blocks' := by simpa [htask] using htask'
    exact Stale.session_eq (hsent.stale he hstop hnet hb) (noteResult_session ..)
  | turnEnded i result =>
    cases result with
    | ok u => exact ha.elim
    | error err =>
      obtain ⟨thread, blocks, htask⟩ := ha
      obtain ⟨_, _, _, hok, -⟩ | ⟨thread', expected, blocks', err', htask', hr, rfl⟩ := turnEnded_inv hs
      · exact nomatch hok
      · obtain ⟨-, rfl, -⟩ : thread = thread' ∧ s.acpSessionId = expected ∧ blocks = blocks' := by
          simpa [htask] using htask'
        refine ⟨turnError s s.acpSessionId err', by simp [updateSession, he], ?_, ?_⟩
        · simp [turnError]
        · simpa [turnError] using hnet
  | threadReady i result =>
    cases threadReady_inv hs with
    | resumed blocks thread htask =>
      refine ⟨s.attached thread, by simp [promote, he], fun hc => (nomatch hc), hnet⟩
    | notResumed blocks err htask => exact ha.elim
    | reset entity thread htask =>
      obtain rfl : entity = s.entity := by
        rcases ha with ⟨blocks, hr⟩ | hr | hr
        · simp [htask] at hr
        · simpa [htask] using hr
        · simp [htask] at hr
      exact ⟨s.attached thread, by simp [finishReset, he], fun hc => (nomatch hc), hnet⟩
    | rotated entity thread htask =>
      obtain rfl : entity = s.entity := by
        rcases ha with ⟨blocks, hr⟩ | hr | hr
        · simp [htask] at hr
        · simp [htask] at hr
        · simpa [htask] using hr
      exact ⟨s.rotated thread, by simp [finishRotate, updateSession, he], fun hc => (nomatch hc), hnet⟩
    | gaveUp task err htask hblocks => exact ha.elim
  | _ => exact ha.elim

/-- A session that is stopping holds the timer of this period, and when that runs out the
session is idle. -/
def TimerEndsStopping [Inhabited M] (st : SolutionAgentStore M X) : Prop :=
  ∀ s, st.session = some s → s.state = .stopping →
    ∃ net, s.stoppingSafetyNet = some net ∧ net.period = s.period ∧
      st.step .timer = some { st with session := some { s with state := .idle, stoppingSafetyNet := none } }

theorem Guarded.timerEndsStopping [Inhabited M] (h : st.Guarded) : st.TimerEndsStopping := by
  intro s hs hstop
  have harmed := (h s hs).armed hstop
  refine ⟨_, harmed, rfl, ?_⟩
  simp [SolutionAgentStore.step, timer, hs, harmed, SolutionSession.fireSafetyNet, SolutionSession.mutateState, hstop]

theorem init_guarded (id : AcpSessionId) (thread : Option AcpThread) :
    (init id thread : SolutionAgentStore M X).Guarded :=
  guarded_some (SolutionSession.newIdle_guarded 0 id thread) rfl

/-- **Timer and state agree all along a run exactly when no step assigns the state of a
stopping session**; and then no session outstays its timer, and no timer ends another
period than its own. -/
theorem safety_net_iff [Inhabited M] {id : AcpSessionId} {thread : Option AcpThread}
    {actions : List (StoreAction M X)} (hrun : (init id thread).Reaches actions st') :
    ((∀ xs ys st, actions = xs ++ ys → (init id thread).Reaches xs st → st.Guarded) ↔
      ∀ xs a ys st, actions = xs ++ a :: ys → (init id thread).Reaches xs st → ¬ st.CutsStopping a) ∧
    ((∀ xs a ys st, actions = xs ++ a :: ys → (init id thread).Reaches xs st → ¬ st.CutsStopping a) →
      ∀ xs ys st, actions = xs ++ ys → (init id thread).Reaches xs st → st.TimerEndsStopping) := by
  have hkept : (∀ xs a ys st, actions = xs ++ a :: ys → (init id thread).Reaches xs st → ¬ st.CutsStopping a) →
      ∀ xs ys st, actions = xs ++ ys → (init id thread).Reaches xs st → st.Guarded := by
    intro hc xs ys st he hst
    refine Run.along (init_guarded id thread) ?_ xs ys he hst
    intro xs a ys x y hxs hx hstep hg
    exact hg.step (hc xs a ys x hxs hx) hstep
  refine ⟨⟨fun hall xs a ys st he hst hcut => ?_, hkept⟩, fun hc xs ys st he hst => ?_⟩
  · -- the run goes on with this step, and the state after it is not guarded
    subst he
    obtain ⟨x, hx, hrest⟩ := Run.split hrun
    obtain rfl : x = st := hx.functional (fun x a y z hy hz => some.inj (hy.symm.trans hz)) hst
    cases hrest with
    | cons hstep hrest =>
      have hnext : (init id thread).Reaches (xs ++ [a]) _ := hx.snoc hstep
      exact (hcut.stale (hall xs (a :: ys) x rfl hx) hstep).not_guarded (hall (xs ++ [a]) ys _ (by simp) hnext)
  · exact (hkept hc xs ys st he hst).timerEndsStopping

/-- A turn is started and stopped. -/
theorem safety_net_iff_stopped : ∃ st' : SolutionAgentStore Unit Unit,
      (init [] (some ⟨0, [], []⟩)).Reaches [sendText ['a'] .main, .cancelTurn] st' ∧
        ((∀ xs ys st, [sendText ['a'] .main, .cancelTurn] = xs ++ ys →
            (init [] (some ⟨0, [], []⟩)).Reaches xs st → st.Guarded) ↔
          ∀ xs a ys st, [sendText ['a'] .main, .cancelTurn] = xs ++ a :: ys →
            (init [] (some ⟨0, [], []⟩)).Reaches xs st → ¬ st.CutsStopping a) :=
  ⟨_, .cons rfl (.cons rfl .nil), (safety_net_iff (.cons rfl (.cons rfl .nil))).1⟩

/-- A message is sent while the turn before it is stopping: the timer stays with a session
that runs. The next time the turn is stopped no other timer is armed, and the session is
idle as soon as the old one runs out. -/
theorem safety_net_cut_by_send :
    (∃ st s, (init [] (some ⟨0, [], []⟩) : SolutionAgentStore Unit Unit).Reaches
        [sendText ['a'] .main, .cancelTurn, sendText ['b'] .main] st ∧
      st.session = some s ∧ s.state = .running ∧ s.stoppingSafetyNet = some ⟨1, false⟩ ∧ ¬ s.Guarded) ∧
    (∃ st s, (init [] (some ⟨0, [], []⟩) : SolutionAgentStore Unit Unit).Reaches
        [sendText ['a'] .main, .cancelTurn, sendText ['b'] .main, .cancelTurn] st ∧
      st.session = some s ∧ s.state = .stopping ∧ s.period = 2 ∧ s.stoppingSafetyNet = some ⟨1, false⟩ ∧
      ¬ s.Guarded) := by
  refine ⟨⟨_, _, .cons rfl (.cons rfl (.cons rfl .nil)), rfl, rfl, rfl, fun hg => ?_⟩,
    ⟨_, _, .cons rfl (.cons rfl (.cons rfl (.cons rfl .nil))), rfl, rfl, rfl, rfl, fun hg => ?_⟩⟩
  · exact nomatch hg.clear (fun he => nomatch he)
  · exact absurd (hg.armed rfl) (by decide)

end SolutionAgentStore

end SpkEditor
