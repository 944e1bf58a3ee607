import SpkEditor.Agent.QueueSteps

/-!
# A send that does not wake its session

A send to a session without a thread sets the state to `Running` and then wakes the session,
which can fail in three places: the solution is unknown, there is no headless project for it,
or the resume ends in an error. None of the three sets the state back. So the session is out
of `Running` after the failure only if somebody else has taken it out before.
-/

namespace SpkEditor

open Option

namespace SolutionAgentStore

variable {M X : Type} {st st' : SolutionAgentStore M X} {s : SolutionSession M X}

variable {s₀ : SolutionSession M X}

def NotRunning (st : SolutionAgentStore M X) : Prop :=
  ∀ s, st.session = some s → s.state ≠ .running

def sendResult [Inhabited M] (st : SolutionAgentStore M X) (blocks : List (ContentBlock M X))
    (target : QueueTarget) (env : SendEnv) : SendResult :=
  (sendMessageBlocksTargeted { st with sends := st.sends ++ [⟨target, blocks⟩] }
    (piecesOf st.sends.length blocks) target env).2

/-- A send fails: at once, or when the thread it asked for does not come. Other steps of the
store can lie in between. -/
inductive FailedSend [Inhabited M] (st : SolutionAgentStore M X) (blocks : List (ContentBlock M X))
    (env : SendEnv) : List (StoreAction M X) → SolutionAgentStore M X → Prop where
  | atOnce (err : QueueError) (h : st.sendResult blocks .main env = .ready (.error err)) :
      FailedSend st blocks env [] (st.send blocks .main env)
  | later {between : List (StoreAction M X)} {st₁ st₂ : SolutionAgentStore M X} (i : Nat) (err : List Char)
      (h : st.sendResult blocks .main env = .task) (hrun : Reaches (st.send blocks .main env) between st₁)
      (htask : st₁.tasks[i]? = some (.resume (some (piecesOf st.sends.length blocks))))
      (hlast : st₁.threadReady i (.error err) = some st₂) : FailedSend st blocks env between st₂

/-- The steps that can take a session without a thread out of `Running`. -/
def TakesOut : StoreAction M X → Prop
  | .closeSession | .forceIdle | .turnEnded _ (.error _) | .threadReady _ (.ok _) => True
  | _ => False

/-- The session `s` of old, still without a thread, says that a turn is running. -/
structure Stuck (s s' : SolutionSession M X) : Prop where
  entity : s'.entity = s.entity
  acpSessionId : s'.acpSessionId = s.acpSessionId
  acpThread : s'.acpThread = none
  state : s'.state = .running

/-! ## The send itself -/

theorem declineWaiting_cold (hcold : s.acpThread = none) : s.declineWaiting = s := by
  rw [SolutionSession.declineWaiting, hcold]

theorem noteResult_frame (st : SolutionAgentStore M X) (blocks : List (Piece M X)) (result : SendResult) :
    (st.noteResult blocks result).session = st.session ∧ (st.noteResult blocks result).tasks = st.tasks := by
  unfold noteResult
  split <;> exact ⟨rfl, rfl⟩

/-- **A send to a cold session** that is not queued leaves it running, and as it was else. -/
theorem cold_send [Inhabited M] (hs : st.session = some s) (hcold : s.acpThread = none)
    {blocks : List (ContentBlock M X)} (hb : blocks ≠ []) {env : SendEnv}
    (hr : st.sendResult blocks .main env ≠ .ready (.ok ())) :
    (st.send blocks .main env).session = some { s with state := .running } := by
  have hp : piecesOf st.sends.length blocks ≠ [] := by simpa [piecesOf] using hb
  obtain ⟨r, hr', hsent⟩ : ∃ r, r = sendMessageBlocksTargeted
      { st with sends := st.sends ++ [⟨.main, blocks⟩] } (piecesOf st.sends.length blocks) .main env ∧
      Sent _ _ _ env r := ⟨_, rfl, sent ..⟩
  rw [sendResult, ← hr'] at hr
  rw [send, ← hr', (noteResult_frame _ _ _).1]
  cases hsent with
  | unknown hn => exact nomatch hs.symm.trans hn
  | empty s' hs' hb' => exact absurd hb' hp
  | queued s' hs' hb' hrun => exact absurd rfl hr
  | dropped s' id hs' hb' hrun ht => exact nomatch ht
  | stuck s' err hs' hb' hrun ht hthread =>
    obtain rfl := some.inj (hs.symm.trans hs')
    rw [declineWaiting_cold hcold]
  | woken s' hs' hb' hrun ht hthread =>
    obtain rfl := some.inj (hs.symm.trans hs')
    rw [declineWaiting_cold hcold]
  | started s' thread hs' hb' hrun ht hthread =>
    obtain rfl := some.inj (hs.symm.trans hs')
    exact nomatch hcold.symm.trans hthread

/-! ## The steps in between -/

theorem Stuck.sent [Inhabited M] {blocks : List (Piece M X)} {target : QueueTarget}
    {env : SendEnv} {r : SolutionAgentStore M X × SendResult} (hsent : Sent st blocks target env r)
    (hs : st.session = some s) (h : Stuck s₀ s) : ∃ s', r.1.session = some s' ∧ Stuck s₀ s' := by
  cases hsent with
  | unknown hn => exact nomatch hs.symm.trans hn
  | empty s' hs' hb => exact ⟨s, hs, h⟩
  | queued s' hs' hb hr =>
    obtain rfl := some.inj (hs.symm.trans hs')
    refine ⟨_, rfl, ?_⟩
    rw [declineWaiting_cold h.acpThread]
    exact ⟨h.entity, h.acpSessionId, h.acpThread, h.state⟩
  | dropped s' id hs' hb hr ht =>
    obtain rfl := some.inj (hs.symm.trans hs')
    exact absurd h.state hr
  | stuck s' err hs' hb hr ht hthread =>
    obtain rfl := some.inj (hs.symm.trans hs')
    exact absurd h.state hr
  | woken s' hs' hb hr ht hthread =>
    obtain rfl := some.inj (hs.symm.trans hs')
    exact absurd h.state hr
  | started s' thread hs' hb hr ht hthread =>
    obtain rfl := some.inj (hs.symm.trans hs')
    exact absurd h.state hr

theorem Stuck.cancelTurn (h : Stuck s₀ s) : s.cancelTurn.1 = s := by
  rw [SolutionSession.cancelTurn, if_pos (.inl h.state), h.acpThread]

theorem Stuck.interruptAndFlushPending (h : Stuck s₀ s) :
    Stuck s₀ s.interruptAndFlushPending.1 := by
  rw [SolutionSession.interruptAndFlushPending]
  split
  · exact h
  · have hset : Stuck s₀ { s with flushAfterCancel := true } :=
      ⟨h.entity, h.acpSessionId, h.acpThread, h.state⟩
    rw [hset.cancelTurn]
    exact hset

theorem Stuck.fireSafetyNet (h : Stuck s₀ s) (net : SafetyNet) :
    Stuck s₀ (s.fireSafetyNet net) := by
  have hne : ¬s.state = .stopping := by simp [h.state]
  rw [SolutionSession.fireSafetyNet, if_neg hne]
  exact ⟨h.entity, h.acpSessionId, h.acpThread, h.state⟩

theorem Stuck.step [Inhabited M] {a : StoreAction M X} (h : Stuck s₀ s)
    (hs : st.session = some s) (ha : ¬TakesOut a) (hstep : st.step a = some st') :
    ∃ s', st'.session = some s' ∧ Stuck s₀ s' := by
  have hup : ∀ f : SolutionSession M X → SolutionSession M X, (st.updateSession f).session = some (f s) :=
    fun f => by rw [updateSession, hs]; rfl
  cases a with
  | send blocks target env =>
    obtain ⟨r, hsent, he⟩ := send_sent st blocks target env
    obtain rfl : st.send blocks target env = st' := some.inj hstep
    rw [he, (noteResult_frame _ _ _).1]
    exact Stuck.sent hsent hs h
  | acpEvent event env =>
    obtain ⟨s', thread, he, hthread, rfl⟩ := acpEvent_inv hstep
    obtain rfl := some.inj (hs.symm.trans he)
    exact nomatch h.acpThread.symm.trans hthread
  | takePendingForDelivery agentId isEndOfTurn =>
    cases hstep
    unfold takePendingForDelivery
    rw [hs]
    dsimp only
    split <;> exact ⟨_, rfl, h.entity, h.acpSessionId, h.acpThread, h.state⟩
  | cancelTurn =>
    cases hstep
    exact ⟨_, hup _, by rw [h.cancelTurn]; exact h⟩
  | interruptAndFlushPending =>
    cases hstep
    exact ⟨_, hup _, h.interruptAndFlushPending⟩
  | resumeSession acpSessionId =>
    cases hstep
    unfold resumeSession
    split <;> exact ⟨s, hs, h⟩
  | resetContext =>
    cases hstep
    unfold resetContext
    rw [hs]
    exact ⟨s, rfl, h⟩
  | rotateContext =>
    cases hstep
    unfold rotateContext
    rw [hs]
    dsimp only
    split
    · exact ⟨s, rfl, h⟩
    · exact ⟨s, hs, h⟩
  | closeSession => exact absurd trivial ha
  | forceIdle => exact absurd trivial ha
  | timer =>
    obtain ⟨s', net, he, -, -, rfl⟩ := timer_inv hstep
    obtain rfl := some.inj (hs.symm.trans he)
    exact ⟨_, rfl, h.fireSafetyNet net⟩
  | prompt i =>
    obtain ⟨thread, expected, blocks, -, -, rfl⟩ := prompt_inv hstep
    exact ⟨s, hs, h⟩
  | turnEnded i result =>
    obtain ⟨thread, expected, -, -, rfl⟩ | ⟨thread, expected, blocks, err, -, rfl, rfl⟩ := turnEnded_inv hstep
    · exact ⟨s, hs, h⟩
    · exact absurd trivial ha
  | threadReady i result =>
    cases threadReady_inv hstep with
    | resumed blocks thread htask => exact absurd trivial ha
    | notResumed blocks err htask => exact ⟨s, hs, h⟩
    | reset entity thread htask => exact absurd trivial ha
    | rotated entity thread htask => exact absurd trivial ha
    | gaveUp task err htask hblocks => exact ⟨s, hs, h⟩
  | reenter i env =>
    obtain ⟨blocks, -, r, hsent, rfl⟩ := reenter_inv hstep
    rw [(noteResult_frame _ _ _).1]
    exact Stuck.sent hsent hs h

theorem Stuck.run [Inhabited M] {as : List (StoreAction M X)}
    (hrun : Reaches st as st') (ha : ∀ a ∈ as, ¬TakesOut a) (h : ∃ s, st.session = some s ∧ Stuck s₀ s) :
    ∃ s', st'.session = some s' ∧ Stuck s₀ s' := by
  induction hrun with
  | nil => exact h
  | @cons x y z a as hstep _ ih =>
    obtain ⟨s, hs, h⟩ := h
    exact ih (fun b hb => ha b (List.mem_cons_of_mem _ hb)) (h.step hs (ha a (List.mem_cons_self ..)) hstep)

theorem threadReady_error_session {i : Nat} {err : List Char} (h : st.threadReady i (.error err) = some st') :
    st'.session = st.session := by
  cases threadReady_inv h <;> rfl

/-- **A failed cold send.** The step it fails in leaves the session as it is, so the session is
not running after it exactly if it was not before; with no step in between that takes it out it
is running, and with none at all nothing else of it has changed either. -/
theorem failed_cold_send [Inhabited M] {blocks : List (ContentBlock M X)} {env : SendEnv}
    {between : List (StoreAction M X)} (hs : st.session = some s) (hcold : s.acpThread = none)
    (hb : blocks ≠ []) (hfail : FailedSend st blocks env between st') :
    (st'.NotRunning ↔ ∃ st₁, Reaches (st.send blocks .main env) between st₁ ∧ st₁.NotRunning) ∧
      (st'.NotRunning → ∃ a ∈ between, TakesOut a) ∧
      (between = [] → st'.session = some { s with state := .running }) := by
  obtain ⟨st₁, hrun, hsame, hr⟩ : ∃ st₁, Reaches (st.send blocks .main env) between st₁ ∧
      st'.session = st₁.session ∧ st.sendResult blocks .main env ≠ .ready (.ok ()) := by
    cases hfail with
    | atOnce err h => exact ⟨_, .nil, rfl, by simp [h]⟩
    | later i err h hrun htask hlast => exact ⟨_, hrun, threadReady_error_session hlast, by simp [h]⟩
  have hsent := cold_send hs hcold hb hr
  have hstart : ∃ s₁, (st.send blocks .main env).session = some s₁ ∧ Stuck s s₁ :=
    ⟨_, hsent, rfl, rfl, hcold, rfl⟩
  have hiff : st'.NotRunning ↔ st₁.NotRunning := by rw [NotRunning, NotRunning, hsame]
  refine ⟨⟨fun h => ⟨st₁, hrun, hiff.mp h⟩, fun ⟨st₂, hrun₂, h₂⟩ => ?_⟩, fun h => ?_, fun he => ?_⟩
  · rw [hrun.functional (fun _ _ _ _ hy hz => some.inj (hy.symm.trans hz)) hrun₂] at hiff
    exact hiff.mpr h₂
  · by_contra hnone
    obtain ⟨s', hs', hstuck⟩ := Stuck.run hrun (fun a ha hout => hnone ⟨a, ha, hout⟩) hstart
    exact hiff.mp h s' hs' hstuck.state
  · subst he
    cases hrun
    rw [hsame, hsent]

def coldStore : SolutionAgentStore Unit Unit := init ['s'] none

/-- The resume of a send fails. -/
theorem failed_cold_send_resume : ∃ st' : SolutionAgentStore Unit Unit,
      FailedSend coldStore [.text ['a'] ()] ⟨⟨0, 0, 0⟩, true, none⟩ [] st' ∧
        st'.session = some { (SolutionSession.newIdle 0 ['s'] none : SolutionSession Unit Unit) with
          state := .running } :=
  have hfail : FailedSend coldStore [.text ['a'] ()] ⟨⟨0, 0, 0⟩, true, none⟩ [] _ :=
    .later 0 ['e'] rfl .nil rfl rfl
  ⟨_, hfail, (failed_cold_send rfl rfl (by simp) hfail).2.2 rfl⟩

/-- **A session whose solution is gone**: the send fails, the session says that it is running, no
task is left that could end that, and the next message is queued behind it. -/
theorem cold_send_leaves_running : ∃ st' st'' : SolutionAgentStore Unit Unit,
      FailedSend coldStore [.text ['a'] ()] ⟨⟨0, 0, 0⟩, false, none⟩ [] st' ∧ ¬st'.NotRunning ∧
        st'.tasks.isEmpty = true ∧ st'.step (sendText ['b'] .main) = some st'' ∧ st''.tasks.isEmpty = true ∧
        st''.session.map (fun s => s.pendingMessages.length) = some 1 :=
  ⟨_, _, .atOnce .unknownSolution rfl, fun h => h _ rfl rfl, rfl, rfl, rfl, rfl⟩

end SolutionAgentStore

end SpkEditor
