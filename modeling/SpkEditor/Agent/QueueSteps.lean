import SpkEditor.Agent.Queue

/-!
# What the steps of the store do

For each call with several outcomes, its outcomes: what the state was, what it is after,
and what the caller is told. The proofs about runs use these and no definition of a call.
-/

namespace SpkEditor

open Option

variable {M X : Type}

variable {s : SolutionSession M X} {thread : AcpThread}

namespace SolutionSession

section

variable (s : SolutionSession M X)

theorem declineWaiting_frame :
    s.declineWaiting.state = s.state ∧ s.declineWaiting.stoppingSafetyNet = s.stoppingSafetyNet ∧
      s.declineWaiting.period = s.period ∧ s.declineWaiting.pendingMessages = s.pendingMessages ∧
      s.declineWaiting.acpThread.map (·.entity) = s.acpThread.map (·.entity) := by
  unfold declineWaiting
  cases ht : s.acpThread with
  | none => simp [ht]
  | some thread => cases hc : pendingAuthorizationReject thread <;> simp [ht, hc, AcpThread.rejectToolCall]

@[simp] theorem declineWaiting_state : s.declineWaiting.state = s.state :=
  (declineWaiting_frame s).1

@[simp] theorem declineWaiting_pendingMessages :
    s.declineWaiting.pendingMessages = s.pendingMessages :=
  (declineWaiting_frame s).2.2.2.1

@[simp] theorem mutateState_pendingMessages (f : SessionState → SessionState) :
    (s.mutateState f).pendingMessages = s.pendingMessages := rfl

@[simp] theorem mutateState_acpThread (f : SessionState → SessionState) :
    (s.mutateState f).acpThread = s.acpThread := rfl

theorem cancelTurn_frame :
    s.cancelTurn.1.pendingMessages = s.pendingMessages ∧ s.cancelTurn.1.acpThread = s.acpThread := by
  unfold cancelTurn
  split
  case isFalse => exact ⟨rfl, rfl⟩
  case isTrue =>
    split
    · exact ⟨rfl, rfl⟩
    · unfold armStoppingSafetyNet
      split <;> exact ⟨rfl, rfl⟩

theorem interruptAndFlushPending_frame :
    s.interruptAndFlushPending.1.pendingMessages = s.pendingMessages ∧
      s.interruptAndFlushPending.1.acpThread = s.acpThread := by
  unfold interruptAndFlushPending
  split
  · exact ⟨rfl, rfl⟩
  · exact cancelTurn_frame _

theorem fireSafetyNet_frame (net : SafetyNet) :
    (s.fireSafetyNet net).pendingMessages = s.pendingMessages ∧ (s.fireSafetyNet net).acpThread = s.acpThread := by
  unfold fireSafetyNet
  split <;> exact ⟨rfl, rfl⟩

end

end SolutionSession

namespace SolutionAgentStore

/-! ## Sends -/

/-- The outcomes of a send. -/
inductive Sent [Inhabited M] (st : SolutionAgentStore M X) (blocks : List (Piece M X)) (target : QueueTarget)
    (env : SendEnv) : SolutionAgentStore M X × SendResult → Prop where
  | unknown (hs : st.session = none) : Sent st blocks target env (st, .ready (.error .unknownSession))
  | empty (s : SolutionSession M X) (hs : st.session = some s) (hb : blocks = []) :
      Sent st blocks target env (st, .ready (.error .noBlocks))
  | queued (s : SolutionSession M X) (hs : st.session = some s) (hb : blocks ≠ []) (hr : s.state = .running) :
      Sent st blocks target env
        ({ st with session := some (s.declineWaiting.enqueue blocks target env.now) }, .ready (.ok ()))
  | dropped (s : SolutionSession M X) (id : AgentId) (hs : st.session = some s) (hb : blocks ≠ [])
      (hr : s.state ≠ .running) (ht : target = .subagent id) :
      Sent st blocks target env
        ({ st with session := some s.declineWaiting, dropped := st.dropped ++ [blocks] }, .ready (.ok ()))
  | stuck (s : SolutionSession M X) (err : QueueError) (hs : st.session = some s) (hb : blocks ≠ [])
      (hr : s.state ≠ .running) (ht : target = .main) (hthread : s.acpThread = none) :
      Sent st blocks target env
        ({ st with session := some { s.declineWaiting with state := .running } }, .ready (.error err))
  | woken (s : SolutionSession M X) (hs : st.session = some s) (hb : blocks ≠ []) (hr : s.state ≠ .running)
      (ht : target = .main) (hthread : s.acpThread = none) :
      Sent st blocks target env ({ st with
            session := some { s.declineWaiting with state := .running }
            tasks := st.tasks ++ [.resume (some blocks)] }, .task)
  | started (s : SolutionSession M X) (thread : AcpThread) (hs : st.session = some s) (hb : blocks ≠ [])
      (hr : s.state ≠ .running) (ht : target = .main) (hthread : s.acpThread = some thread) :
      Sent st blocks target env ({ st with
            session := some { s.declineWaiting with state := .running }
            tasks := st.tasks ++ [.turn thread.entity s.declineWaiting.acpSessionId (some blocks)] }, .task)

theorem sent_sendNow [Inhabited M] {st : SolutionAgentStore M X} (hs : st.session = some s)
    {blocks : List (Piece M X)} (hb : blocks ≠ []) (hr : s.state ≠ .running) (env : SendEnv) :
    Sent st blocks .main env (st.sendNow s.declineWaiting blocks env) := by
  have hentity := (SolutionSession.declineWaiting_frame s).2.2.2.2
  simp only [sendNow, sendMessageBlocksWithWake]
  split
  case h_1 ht =>
    have hthread : s.acpThread = none := by simpa [ht] using hentity.symm
    split
    · split
      · exact .stuck s _ hs hb hr rfl hthread
      · exact .woken s hs hb hr rfl hthread
    · exact .stuck s _ hs hb hr rfl hthread
  case h_2 thread' ht =>
    rw [ht, map_some] at hentity
    obtain ⟨thread, hthread, he⟩ := Option.map_eq_some_iff.1 hentity.symm
    rw [← he]
    exact .started s thread hs hb hr rfl hthread

theorem sent [Inhabited M] (st : SolutionAgentStore M X) (blocks : List (Piece M X)) (target : QueueTarget)
    (env : SendEnv) : Sent st blocks target env (st.sendMessageBlocksTargeted blocks target env) := by
  unfold sendMessageBlocksTargeted
  cases hs : st.session with
  | none => exact .unknown hs
  | some s =>
    by_cases hb : blocks = []
    · simp only [hb, List.isEmpty_nil, if_true]
      exact .empty s hs rfl
    · have he : ¬ blocks.isEmpty := fun hn => hb (List.isEmpty_iff.1 hn)
      simp only [if_neg he, SolutionSession.declineWaiting_state]
      by_cases hr : s.state = .running
      · rw [if_pos hr]
        exact .queued s hs hb hr
      · rw [if_neg hr]
        cases target with
        | main => exact sent_sendNow hs hb hr env
        | subagent id => exact .dropped s id hs hb hr rfl

theorem send_sent [Inhabited M] (st : SolutionAgentStore M X) (blocks : List (ContentBlock M X))
    (target : QueueTarget) (env : SendEnv) :
    ∃ r : SolutionAgentStore M X × SendResult,
      Sent { st with sends := st.sends ++ [⟨target, blocks⟩] } (piecesOf st.sends.length blocks) target env r ∧
        st.send blocks target env = r.1.noteResult (piecesOf st.sends.length blocks) r.2 :=
  ⟨_, sent .., rfl⟩

/-! ## The end of a turn -/

def mainBlocks (queue : List (PendingBundle M X)) : List (Piece M X) :=
  (queue.filter fun bundle => bundle.target = .main).flatMap (·.blocks)

/-- What a flush drops. -/
def subagentBlocks (queue : List (PendingBundle M X)) : List (List (Piece M X)) :=
  (queue.filter fun bundle => bundle.target ≠ .main).map (·.blocks)

/-- The outcomes of a flush: the session has a thread and no turn is running, so what there
is for the main agent starts one. -/
inductive Flushed [Inhabited M] (st : SolutionAgentStore M X) (s : SolutionSession M X) (thread : AcpThread) :
    SolutionAgentStore M X → Prop where
  | nothing (hm : mainBlocks s.pendingMessages = []) :
      Flushed st s thread { st with
        session := some { s with pendingMessages := [] }
        dropped := st.dropped ++ subagentBlocks s.pendingMessages }
  | started (hm : mainBlocks s.pendingMessages ≠ []) :
      Flushed st s thread { st with
        session := some { ({ s with pendingMessages := [] } : SolutionSession M X).declineWaiting with state := .running }
        tasks := st.tasks ++ [.turn thread.entity
          ({ s with pendingMessages := [] } : SolutionSession M X).declineWaiting.acpSessionId
          (some (Piece.ofText (QUEUE_HINT_LINE ++ ['\n', '\n']) :: mainBlocks s.pendingMessages))]
        dropped := st.dropped ++ subagentBlocks s.pendingMessages }

theorem flushed [Inhabited M] (st : SolutionAgentStore M X)
    (hthread : s.acpThread = some thread) (hr : s.state ≠ .running) (env : SendEnv) :
    Flushed st s thread (st.flush s env) := by
  simp only [flush]
  split
  case isTrue he => exact .nothing (List.isEmpty_iff.1 he)
  case isFalse he =>
    have hm : mainBlocks s.pendingMessages ≠ [] := fun hn => he (List.isEmpty_iff.2 hn)
    obtain ⟨r, hr', hsent⟩ : ∃ r, r = sendMessageBlocksTargeted { st with
          session := some { s with pendingMessages := [] }
          dropped := st.dropped ++ subagentBlocks s.pendingMessages }
        (Piece.ofText (QUEUE_HINT_LINE ++ ['\n', '\n']) :: mainBlocks s.pendingMessages) .main env ∧ Sent _ _ _ env r :=
      ⟨_, rfl, sent ..⟩
    suffices hf : Flushed st s thread r.1 by
      rw [hr'] at hf
      exact hf
    cases hsent with
    | unknown hs => exact nomatch hs
    | empty s' hs hb => exact nomatch hb
    | queued s' hs hb hrun =>
      cases hs
      exact absurd hrun hr
    | dropped s' id hs hb hrun ht => exact nomatch ht
    | stuck s' err hs hb hrun ht hnone =>
      cases hs
      simp [hthread] at hnone
    | woken s' hs hb hrun ht hnone =>
      cases hs
      simp [hthread] at hnone
    | started s' thread' hs hb hrun ht hsome =>
      cases hs
      obtain rfl : thread = thread' := some.inj (hthread.symm.trans hsome)
      exact .started hm

inductive TurnStopped [Inhabited M] (st : SolutionAgentStore M X) (s : SolutionSession M X) (thread : AcpThread) :
    SolutionAgentStore M X → Prop where
  | discarded (s' : SolutionSession M X) (hq : s'.pendingMessages = []) (hthread : s'.acpThread = some thread) :
      TurnStopped st s thread { st with
        session := some s'
        discarded := st.discarded ++ s.pendingMessages.map (·.blocks) }
  | flushed (s' : SolutionSession M X) (hq : s'.pendingMessages = s.pendingMessages)
      (hthread : s'.acpThread = some thread) (st' : SolutionAgentStore M X) (hf : Flushed st s' thread st') :
      TurnStopped st s thread st'

theorem handleStopped_cases [Inhabited M] (st : SolutionAgentStore M X)
    (hthread : s.acpThread = some thread) (reason : StopReason) (env : SendEnv) :
    TurnStopped st s thread (st.handleStopped s reason env) := by
  simp only [handleStopped]
  split
  · exact .discarded _ rfl hthread
  · refine .flushed _ ?_ ?_ _ (flushed st ?_ ?_ env)
    · rfl
    · exact hthread
    · exact hthread
    · exact fun he => nomatch he

/-- An event other than the end of a turn touches neither the queue nor the tasks. -/
theorem handleAcpEvent_cases [Inhabited M] (st : SolutionAgentStore M X)
    (hthread : s.acpThread = some thread) (env : SendEnv) (event : AcpThreadEvent) :
    TurnStopped st s thread (st.handleAcpEvent s thread env event) ∨
      ∃ s' thread', st.handleAcpEvent s thread env event = { st with session := some s' } ∧
        s'.pendingMessages = s.pendingMessages ∧ s'.acpThread = some thread' ∧ thread'.entity = thread.entity := by
  cases event with
  | stopped reason => exact .inl (handleStopped_cases st hthread reason env)
  | newEntry => exact .inr ⟨_, thread, rfl, rfl, hthread, rfl⟩
  | error => exact .inr ⟨_, thread, rfl, rfl, hthread, rfl⟩
  | loadError => exact .inr ⟨_, thread, rfl, rfl, hthread, rfl⟩
  | toolAuthorizationRequested call =>
    refine .inr ⟨_, thread.upsertToolCall call, rfl, rfl, rfl, ?_⟩
    unfold AcpThread.upsertToolCall
    split <;> rfl
  | toolAuthorizationReceived id => exact .inr ⟨_, thread, rfl, rfl, hthread, rfl⟩
  | entryUpdated waiting => exact .inr ⟨_, _, rfl, rfl, rfl, rfl⟩

/-! ## Events, timers and tasks -/

section Tasks

variable {st st' : SolutionAgentStore M X} {i : Nat}

theorem acpEvent_inv [Inhabited M] {event : AcpThreadEvent} {env : SendEnv} (h : st.acpEvent event env = some st') :
    ∃ s thread, st.session = some s ∧ s.acpThread = some thread ∧ st' = st.handleAcpEvent s thread env event := by
  unfold acpEvent at h
  cases hs : st.session with
  | none => simp [hs] at h
  | some s =>
    cases ht : s.acpThread with
    | none => simp [hs, ht] at h
    | some thread => exact ⟨s, thread, rfl, ht, by simpa [hs, ht] using h.symm⟩

theorem timer_inv (h : st.timer = some st') :
    ∃ s net, st.session = some s ∧ s.stoppingSafetyNet = some net ∧ net.fired = false ∧
      st' = { st with session := some (s.fireSafetyNet net) } := by
  unfold timer at h
  cases hs : st.session with
  | none => simp [hs] at h
  | some s =>
    cases hn : s.stoppingSafetyNet with
    | none => simp [hs, hn] at h
    | some net =>
      simp only [hs, hn] at h
      split at h
      · exact nomatch h
      case isFalse hf => exact ⟨s, net, rfl, hn, by simpa using hf, (some.inj h).symm⟩

theorem prompt_inv (h : st.prompt i = some st') :
    ∃ thread expected blocks, st.tasks[i]? = some (.turn thread expected (some blocks)) ∧
      (st.tasks.take i).any (StoreTask.waitsOn thread) = false ∧
      st' = { st with
        tasks := st.tasks.set i (.turn thread expected none)
        handed := st.handed ++ [.prompt thread blocks] } := by
  unfold prompt at h
  split at h
  case h_1 thread expected blocks htask =>
    split at h
    · exact nomatch h
    case isFalse hw => exact ⟨thread, expected, blocks, htask, by simpa using hw, (some.inj h).symm⟩
  case h_2 => exact nomatch h

theorem turnEnded_inv {result : Except (List Char) Unit} (h : st.turnEnded i result = some st') :
    (∃ thread expected, st.tasks[i]? = some (.turn thread expected none) ∧ result = .ok () ∧
      st' = { st with tasks := st.tasks.eraseIdx i }) ∨
    (∃ thread expected blocks err, st.tasks[i]? = some (.turn thread expected blocks) ∧ result = .error err ∧
      st' = { st.updateSession fun s => turnError s expected err with
        tasks := st.tasks.eraseIdx i
        failed := st.failed ++ blocks.toList }) := by
  unfold turnEnded at h
  split at h
  case h_1 thread expected htask => exact .inl ⟨thread, expected, htask, rfl, (some.inj h).symm⟩
  case h_2 thread expected blocks err htask =>
    exact .inr ⟨thread, expected, blocks, err, htask, rfl, (some.inj h).symm⟩
  case h_3 => exact nomatch h

inductive ThreadReady (st : SolutionAgentStore M X) (i : Nat) :
    Except (List Char) AcpThread → SolutionAgentStore M X → Prop where
  | resumed (blocks : Option (List (Piece M X))) (thread : AcpThread) (htask : st.tasks[i]? = some (.resume blocks)) :
      ThreadReady st i (.ok thread)
        { st.promote thread with tasks := st.tasks.eraseIdx i ++ (blocks.map .reenter).toList }
  | notResumed (blocks : Option (List (Piece M X))) (err : List Char) (htask : st.tasks[i]? = some (.resume blocks)) :
      ThreadReady st i (.error err) { st with tasks := st.tasks.eraseIdx i, failed := st.failed ++ blocks.toList }
  | reset (entity : Nat) (thread : AcpThread) (htask : st.tasks[i]? = some (.reset entity)) :
      ThreadReady st i (.ok thread) { st.finishReset entity thread with tasks := st.tasks.eraseIdx i }
  | rotated (entity : Nat) (thread : AcpThread) (htask : st.tasks[i]? = some (.rotate entity)) :
      ThreadReady st i (.ok thread) { st.finishRotate entity thread with tasks := st.tasks.eraseIdx i }
  | gaveUp (task : StoreTask M X) (err : List Char) (htask : st.tasks[i]? = some task) (hblocks : task.blocks = none) :
      ThreadReady st i (.error err) { st with tasks := st.tasks.eraseIdx i }

theorem threadReady_inv {result : Except (List Char) AcpThread} (h : st.threadReady i result = some st') :
    ThreadReady st i result st' := by
  unfold threadReady at h
  split at h
  case h_1 blocks thread htask => exact (some.inj h) ▸ .resumed blocks thread htask
  case h_2 blocks err htask => exact (some.inj h) ▸ .notResumed blocks err htask
  case h_3 entity thread htask => exact (some.inj h) ▸ .reset entity thread htask
  case h_4 entity thread htask => exact (some.inj h) ▸ .rotated entity thread htask
  case h_5 entity err htask => exact (some.inj h) ▸ .gaveUp _ err htask rfl
  case h_6 entity err htask => exact (some.inj h) ▸ .gaveUp _ err htask rfl
  case h_7 => exact nomatch h

theorem reenter_inv [Inhabited M] {env : SendEnv} (h : st.reenter i env = some st') :
    ∃ blocks, st.tasks[i]? = some (.reenter blocks) ∧ ∃ r : SolutionAgentStore M X × SendResult,
      Sent { st with tasks := st.tasks.eraseIdx i } blocks .main env r ∧ st' = r.1.noteResult blocks r.2 := by
  unfold reenter at h
  split at h
  case h_1 blocks htask => exact ⟨blocks, htask, _, sent _ _ _ _, (some.inj h).symm⟩
  case h_2 => exact nomatch h

end Tasks

end SolutionAgentStore

end SpkEditor
