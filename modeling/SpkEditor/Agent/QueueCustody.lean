import SpkEditor.Agent.QueueSteps
import SpkEditor.Lib.Custody

/-!
# Where the messages are

A message is in the queue, with an agent, in a task, or thrown away: in one place, and
whole. Bundles are merged and drained as a whole, so no step splits a message or makes a
second one of it.
-/

namespace SpkEditor

open List Option

variable {M X : Type}

variable {s : SolutionSession M X} {task : StoreTask M X} {thread : AcpThread}

/-! ## Moving blocks -/

theorem keeps_pad {c d : List (Piece M X)} (h : ∀ p ∈ c, p.msg = none) : Keeps Piece.msg [d] [c ++ d] := by
  have hboth : Keeps Piece.msg ([] ++ [d]) ([c] ++ [d]) := (Keeps.untagged h).2.append (Keeps.refl [d])
  simpa using hboth.trans (Keeps.flatten [c, d])

theorem enqueued_keeps [Inhabited M] (queue : List (PendingBundle M X)) (blocks : List (Piece M X))
    (stamp : List Char) (target : QueueTarget) :
    Keeps Piece.msg (blocks :: queue.map (·.blocks))
      ((SolutionSession.enqueued queue (Piece.ofText stamp :: blocks) target).map (·.blocks)) := by
  have hstamp : Keeps Piece.msg [blocks] [Piece.ofText stamp :: blocks] :=
    keeps_pad (c := [Piece.ofText stamp]) (by simp [Piece.ofText])
  unfold SolutionSession.enqueued
  cases hl : queue.getLast? with
  | none =>
    obtain rfl := List.getLast?_eq_none_iff.1 hl
    exact hstamp
  | some last =>
    obtain ⟨init, rfl⟩ := List.getLast?_eq_some_iff.1 hl
    dsimp only
    split
    · -- the message joins the last bundle
      have hjoin : Keeps Piece.msg [last.blocks, blocks]
          [last.blocks ++ [Piece.ofText ['\n', '\n']] ++ Piece.ofText stamp :: blocks] := by
        have hpad : Keeps Piece.msg [blocks] [[Piece.ofText ['\n', '\n'], Piece.ofText stamp] ++ blocks] :=
          keeps_pad (by simp [Piece.ofText])
        simpa using ((Keeps.refl [last.blocks]).append hpad).trans (Keeps.flatten _)
      have hp : (blocks :: (init ++ [last]).map (·.blocks)).Perm (init.map (·.blocks) ++ [last.blocks, blocks]) := by
        simpa using (perm_append_singleton blocks (init.map (·.blocks) ++ [last.blocks])).symm
      simpa using (Keeps.of_perm hp).trans ((Keeps.refl (init.map (·.blocks))).append hjoin)
    · have hp : (blocks :: (init ++ [last]).map (·.blocks)).Perm ((init ++ [last]).map (·.blocks) ++ [blocks]) :=
        (perm_append_singleton ..).symm
      simpa using (Keeps.of_perm hp).trans ((Keeps.refl _).append hstamp)

/-- Some of the bundles are emptied into one container, the others stay. -/
theorem drain_keeps (queue : List (PendingBundle M X)) (p : PendingBundle M X → Bool) :
    Keeps Piece.msg (queue.map (·.blocks))
      ((queue.filter fun b => !p b).map (·.blocks) ++ [(queue.filter p).flatMap (·.blocks)]) := by
  have hp : (queue.map (·.blocks)).Perm
      ((queue.filter fun b => !p b).map (·.blocks) ++ (queue.filter p).map (·.blocks)) := by
    rw [← map_append]
    exact ((List.perm_append_comm.trans (filter_append_perm p queue)).map _).symm
  refine (Keeps.of_perm hp).trans ((Keeps.refl _).append ?_)
  exact Keeps.flatten _

namespace SolutionAgentStore

/-! ## The containers of the store -/

def queue (st : SolutionAgentStore M X) : List (PendingBundle M X) :=
  match st.session with
  | some s => s.pendingMessages
  | none => []

/-- The messages that tasks hold. -/
def inFlight (st : SolutionAgentStore M X) : List (List (Piece M X)) := st.tasks.filterMap StoreTask.blocks

/-- All that is not in the queue. -/
def elsewhere (st : SolutionAgentStore M X) : List (List (Piece M X)) :=
  st.handed.map Handover.blocks ++ st.inFlight ++ st.discarded ++ st.failed ++ st.dropped

def containers (st : SolutionAgentStore M X) : List (List (Piece M X)) :=
  st.queue.map (·.blocks) ++ st.elsewhere

/-- The message of the `i`-th send. -/
def message (st : SolutionAgentStore M X) (i : Nat) : List (Piece M X) :=
  match st.sends[i]? with
  | some s => piecesOf i s.blocks
  | none => []

variable {st st' : SolutionAgentStore M X} {extra : List (List (Piece M X))}

/-- What a step does to the queue, and what goes from there to the other places. -/
theorem containers_keeps (out : List (List (Piece M X)))
    (hq : Keeps Piece.msg (extra ++ st.queue.map (·.blocks)) (st'.queue.map (·.blocks) ++ out))
    (hr : (out ++ st.elsewhere).Perm st'.elsewhere) : Keeps Piece.msg (extra ++ st.containers) st'.containers := by
  unfold containers
  rw [← append_assoc]
  refine (hq.append (Keeps.refl st.elsewhere)).trans ?_
  rw [append_assoc]
  exact (Keeps.refl _).append (Keeps.of_perm hr)

theorem containers_keeps_elsewhere (hq : st'.queue = st.queue) (hr : (extra ++ st.elsewhere).Perm st'.elsewhere) :
    Keeps Piece.msg (extra ++ st.containers) st'.containers := by
  refine containers_keeps extra ?_ hr
  rw [hq]
  exact Keeps.of_perm perm_append_comm

theorem containers_keeps_emptied (out : List (List (Piece M X))) (he : st'.queue = [])
    (hq : Keeps Piece.msg (st.queue.map (·.blocks)) out) (hr : (out ++ st.elsewhere).Perm st'.elsewhere) :
    Keeps Piece.msg st.containers st'.containers := by
  rw [← nil_append st.containers]
  refine containers_keeps out ?_ hr
  simpa [he] using hq

theorem queue_of_session (h : st.session = some s) : st.queue = s.pendingMessages := by
  simp [queue, h]

theorem filterMap_blocks_snoc (tasks : List (StoreTask M X)) (task : StoreTask M X) :
    (tasks ++ [task]).filterMap StoreTask.blocks = tasks.filterMap StoreTask.blocks ++ task.blocks.toList := by
  cases hb : task.blocks <;> simp [hb]

theorem inFlight_erase {i : Nat} (h : st.tasks[i]? = some task) :
    st.inFlight.Perm (task.blocks.toList ++ (st.tasks.eraseIdx i).filterMap StoreTask.blocks) := by
  obtain ⟨hi, rfl⟩ := List.getElem?_eq_some_iff.1 h
  have hp := (getElem_cons_eraseIdx_perm hi).symm.filterMap StoreTask.blocks
  refine hp.trans ?_
  rw [filterMap_cons]
  cases (st.tasks[i]).blocks <;> simp

theorem inFlight_set {i : Nat} (task : StoreTask M X) (hi : i < st.tasks.length) (hb : task.blocks = none) :
    ((st.tasks.set i task).filterMap StoreTask.blocks).Perm ((st.tasks.eraseIdx i).filterMap StoreTask.blocks) := by
  refine ((set_perm_cons_eraseIdx hi task).filterMap StoreTask.blocks).trans ?_
  rw [filterMap_cons, hb]

/-- The parts of the store a send leaves alone, and where it puts the blocks. -/
theorem Sent.keeps [Inhabited M] {blocks : List (Piece M X)} {target : QueueTarget} {env : SendEnv}
    {r : SolutionAgentStore M X × SendResult} (h : Sent st blocks target env r) :
    Keeps Piece.msg (blocks :: st.containers) (r.1.noteResult blocks r.2).containers := by
  rw [← singleton_append]
  classical
  have hfail : ∀ st₁ : SolutionAgentStore M X, st₁.queue = st.queue → st₁.elsewhere = st.elsewhere →
      Keeps Piece.msg ([blocks] ++ st.containers) ({ st₁ with failed := st₁.failed ++ [blocks] }).containers := by
    intro st₁ hq he
    refine containers_keeps_elsewhere hq ?_
    rw [← he]
    refine List.perm_iff_count.2 fun a => ?_
    simp only [elsewhere, inFlight, count_append]
    omega
  cases h with
  | unknown hs => exact hfail st rfl rfl
  | empty s hs hb => exact hfail st rfl rfl
  | queued s hs hb hr =>
    refine containers_keeps [] ?_ (Perm.refl _)
    simp only [noteResult, queue, hs, append_nil, singleton_append]
    rw [← SolutionSession.declineWaiting_pendingMessages s]
    exact enqueued_keeps _ _ _ _
  | dropped s id hs hb hr ht =>
    refine containers_keeps_elsewhere ?_ ?_
    · simp [noteResult, queue, hs]
    · refine List.perm_iff_count.2 fun a => ?_
      simp only [noteResult, elsewhere, inFlight, count_append]
      omega
  | stuck s err hs hb hr ht hthread =>
    refine hfail _ ?_ rfl
    simp [queue, hs]
  | woken s hs hb hr ht hthread =>
    refine containers_keeps_elsewhere ?_ ?_
    · simp [noteResult, queue, hs]
    · refine List.perm_iff_count.2 fun a => ?_
      simp only [noteResult, elsewhere, inFlight, filterMap_blocks_snoc, StoreTask.blocks, toList_some,
        count_append]
      omega
  | started s thread hs hb hr ht hthread =>
    refine containers_keeps_elsewhere ?_ ?_
    · simp [noteResult, queue, hs]
    · refine List.perm_iff_count.2 fun a => ?_
      simp only [noteResult, elsewhere, inFlight, filterMap_blocks_snoc, StoreTask.blocks, toList_some,
        count_append]
      omega

/-! ## The other steps -/

theorem flushed_keeps [Inhabited M] (h : Flushed st s thread st')
    (hs : st.queue = s.pendingMessages) : Keeps Piece.msg st.containers st'.containers := by
  classical
  -- the queue is emptied: into one container what is for the main agent, and the rest stays as it is
  have hdrain : Keeps Piece.msg (st.queue.map (·.blocks))
      (subagentBlocks s.pendingMessages ++ [mainBlocks s.pendingMessages]) := by
    rw [hs]
    simpa [subagentBlocks, mainBlocks] using drain_keeps s.pendingMessages fun bundle => bundle.target = .main
  cases h with
  | nothing hm =>
    rw [hm] at hdrain
    refine containers_keeps_emptied (subagentBlocks s.pendingMessages) rfl ?_ ?_
    · have hempty := (Keeps.refl (subagentBlocks s.pendingMessages)).append
        (Keeps.untagged (c := []) (by simp : ∀ p ∈ ([] : List (Piece M X)), p.msg = none)).1
      simpa using hdrain.trans hempty
    · refine List.perm_iff_count.2 fun a => ?_
      simp only [elsewhere, inFlight, count_append]
      omega
  | started hm =>
    refine containers_keeps_emptied (subagentBlocks s.pendingMessages ++
      [Piece.ofText (QUEUE_HINT_LINE ++ ['\n', '\n']) :: mainBlocks s.pendingMessages]) ?_ ?_ ?_
    · exact (queue_of_session rfl).trans (SolutionSession.declineWaiting_pendingMessages _)
    · have hhint : Keeps Piece.msg [mainBlocks s.pendingMessages]
          [Piece.ofText (QUEUE_HINT_LINE ++ ['\n', '\n']) :: mainBlocks s.pendingMessages] :=
        keeps_pad (c := [Piece.ofText _]) (by simp [Piece.ofText])
      exact hdrain.trans ((Keeps.refl _).append hhint)
    · refine List.perm_iff_count.2 fun a => ?_
      simp only [elsewhere, inFlight, filterMap_blocks_snoc, StoreTask.blocks, toList_some, count_append]
      omega

theorem discard_keeps {st₁ : SolutionAgentStore M X} (he : st₁.queue = [])
    (hr : st₁.elsewhere = SolutionAgentStore.elsewhere
      { st with discarded := st.discarded ++ st.queue.map fun b => b.blocks }) :
    Keeps Piece.msg st.containers st₁.containers := by
  classical
  refine containers_keeps_emptied (st.queue.map (·.blocks)) he (Keeps.refl _) ?_
  rw [hr]
  refine List.perm_iff_count.2 fun a => ?_
  simp only [elsewhere, inFlight, count_append]
  omega

theorem turnStopped_keeps [Inhabited M]
    (h : TurnStopped st s thread st') (hs : st.queue = s.pendingMessages) :
    Keeps Piece.msg st.containers st'.containers := by
  cases h with
  | discarded s' hq hthread =>
    refine discard_keeps ((queue_of_session rfl).trans hq) ?_
    rw [hs]
    rfl
  | flushed s' hq hthread st' hf => exact flushed_keeps hf (hs.trans hq.symm)

theorem takePendingForDelivery_keeps (st : SolutionAgentStore M X) (agentId : Option AgentId) (isEndOfTurn : Bool) :
    Keeps Piece.msg st.containers (st.takePendingForDelivery agentId isEndOfTurn).1.containers := by
  classical
  simp only [takePendingForDelivery]
  split
  case h_1 => exact Keeps.refl _
  case h_2 s hs =>
    have hdrain := drain_keeps s.pendingMessages (SolutionSession.drains agentId)
    have hq : st.queue = s.pendingMessages := by simp [queue, hs]
    rw [← hq] at hdrain
    rw [← nil_append st.containers]
    split
    case isTrue he =>
      rw [← hq, List.isEmpty_iff] at he
      rw [he] at hdrain
      refine containers_keeps [] ?_ (Perm.refl _)
      have hempty := (Keeps.refl ((st.queue.filter fun b => !SolutionSession.drains agentId b).map (·.blocks))).append
        (Keeps.untagged (c := []) (by simp : ∀ p ∈ ([] : List (Piece M X)), p.msg = none)).1
      simpa [queue, hs] using hdrain.trans hempty
    case isFalse he =>
      refine containers_keeps ([(st.queue.filter (SolutionSession.drains agentId)).flatMap (·.blocks)]) ?_ ?_
      · simpa [queue, hs] using hdrain
      · rw [hq]
        refine List.perm_iff_count.2 fun a => ?_
        simp only [elsewhere, inFlight, map_append, map_cons, map_nil, Handover.blocks,
          count_append]
        omega

theorem erase_keeps {i : Nat} (htask : st.tasks[i]? = some task) {st₁ : SolutionAgentStore M X}
    (hq : st₁.queue = st.queue)
    (hr : (task.blocks.toList ++ SolutionAgentStore.elsewhere { st with tasks := st.tasks.eraseIdx i }).Perm
      st₁.elsewhere) :
    Keeps Piece.msg st.containers st₁.containers := by
  classical
  rw [← nil_append st.containers]
  refine containers_keeps_elsewhere hq (Perm.trans ?_ hr)
  have hc := List.perm_iff_count.1 (inFlight_erase htask)
  refine List.perm_iff_count.2 fun a => ?_
  have := hc a
  simp only [elsewhere, inFlight, count_append, nil_append] at this ⊢
  omega

section

variable {f : SolutionSession M X → SolutionSession M X}
  (hf : ∀ s, (f s).pendingMessages = s.pendingMessages) (st : SolutionAgentStore M X)
include hf

theorem queue_updateSession : (st.updateSession f).queue = st.queue := by
  unfold queue updateSession
  cases st.session with
  | none => rfl
  | some s => exact hf s

theorem updateSession_keeps : Keeps Piece.msg st.containers (st.updateSession f).containers := by
  rw [← nil_append st.containers]
  exact containers_keeps_elsewhere (queue_updateSession hf st) (Perm.refl _)

end

section

variable (st : SolutionAgentStore M X)

theorem retask_keeps {tasks : List (StoreTask M X)}
    (h : st.inFlight.Perm (tasks.filterMap StoreTask.blocks)) :
    Keeps Piece.msg st.containers (SolutionAgentStore.containers { st with tasks := tasks }) := by
  classical
  rw [← nil_append st.containers]
  refine containers_keeps_elsewhere rfl ?_
  refine List.perm_iff_count.2 fun a => ?_
  have := List.perm_iff_count.1 h a
  simp only [elsewhere, inFlight, count_append, nil_append] at this ⊢
  omega

theorem snoc_keeps (hb : task.blocks = none) :
    Keeps Piece.msg st.containers (SolutionAgentStore.containers { st with tasks := st.tasks ++ [task] }) := by
  refine retask_keeps st ?_
  rw [filterMap_blocks_snoc, hb]
  simp [inFlight]

theorem promote_keeps (thread : AcpThread) :
    Keeps Piece.msg st.containers (st.promote thread).containers := by
  classical
  unfold promote
  split
  case h_1 s hs =>
    refine containers_keeps_emptied (st.queue.map (·.blocks)) rfl (Keeps.refl _) ?_
    refine List.perm_iff_count.2 fun a => ?_
    simp only [elsewhere, inFlight, queue_of_session hs, count_append]
    omega
  case h_2 hs =>
    refine containers_keeps_emptied [] rfl ?_ (Perm.refl _)
    simpa [queue, hs] using Keeps.refl []

theorem finishReset_keeps (entity : Nat) (thread : AcpThread) :
    Keeps Piece.msg st.containers (st.finishReset entity thread).containers := by
  unfold finishReset
  split
  case h_1 s hs =>
    split
    · refine discard_keeps rfl ?_
      rw [queue_of_session hs]
      rfl
    · exact Keeps.refl _
  case h_2 => exact Keeps.refl _

end

theorem threadReady_keeps {i : Nat} {result : Except (List Char) AcpThread} (h : ThreadReady st i result st') :
    Keeps Piece.msg st.containers st'.containers := by
  classical
  cases h with
  | resumed blocks thread htask =>
    refine (promote_keeps st thread).trans (retask_keeps _ ?_)
    have htasks : (st.promote thread).inFlight = st.inFlight := by
      unfold promote
      split <;> rfl
    rw [htasks]
    refine (inFlight_erase htask).trans (List.perm_append_comm.trans ?_)
    cases blocks <;> simp [StoreTask.blocks]
  | notResumed blocks err htask =>
    refine erase_keeps htask rfl ?_
    refine List.perm_iff_count.2 fun a => ?_
    simp only [elsewhere, inFlight, StoreTask.blocks, count_append]
    omega
  | reset entity thread htask =>
    refine (finishReset_keeps st entity thread).trans (retask_keeps _ ?_)
    have htasks : (st.finishReset entity thread).inFlight = st.inFlight := by
      unfold finishReset
      split
      · split <;> rfl
      · rfl
    rw [htasks]
    exact inFlight_erase htask
  | rotated entity thread htask =>
    have hup : Keeps Piece.msg st.containers (st.finishRotate entity thread).containers := by
      refine updateSession_keeps (fun s => ?_) st
      split <;> rfl
    exact hup.trans (retask_keeps _ (inFlight_erase htask))
  | gaveUp task err htask hblocks =>
    refine erase_keeps htask rfl ?_
    rw [hblocks]
    exact Perm.refl _

/-! ## Every message is whole and in one place -/

def sentBy : StoreAction M X → List (Send M X)
  | .send blocks target _ => [⟨target, blocks⟩]
  | _ => []

/-- The blocks an action brings in. -/
def broughtBy (st : SolutionAgentStore M X) : StoreAction M X → List (List (Piece M X))
  | .send blocks _ _ => [piecesOf st.sends.length blocks]
  | _ => []

theorem step_keeps [Inhabited M] {a : StoreAction M X} (h : st.step a = some st') :
    Keeps Piece.msg (st.broughtBy a ++ st.containers) st'.containers := by
  classical
  have hup : ∀ {f : SolutionSession M X → SolutionSession M X}, (∀ s, (f s).pendingMessages = s.pendingMessages) →
      Keeps Piece.msg ([] ++ st.containers) (st.updateSession f).containers :=
    fun hf => by simpa using updateSession_keeps hf st
  cases a with
  | send blocks target env =>
    obtain ⟨r, hsent, hr⟩ := send_sent st blocks target env
    obtain rfl : st.send blocks target env = st' := some.inj h
    rw [hr]
    exact hsent.keeps
  | acpEvent event env =>
    obtain ⟨s, thread, hs, hthread, rfl⟩ := acpEvent_inv h
    rcases handleAcpEvent_cases st hthread env event with hstop | ⟨s', thread', he, hq, -, -⟩
    · simpa [broughtBy] using turnStopped_keeps hstop (queue_of_session hs)
    · rw [he]
      refine containers_keeps_elsewhere ?_ (Perm.refl _)
      rw [queue_of_session hs, ← hq]
      rfl
  | takePendingForDelivery agentId isEndOfTurn =>
    cases h
    exact takePendingForDelivery_keeps st agentId isEndOfTurn
  | cancelTurn =>
    cases h
    exact hup fun s => (SolutionSession.cancelTurn_frame s).1
  | interruptAndFlushPending =>
    cases h
    exact hup fun s => (SolutionSession.interruptAndFlushPending_frame s).1
  | resumeSession acpSessionId =>
    cases h
    unfold resumeSession
    split
    · exact Keeps.refl _
    · exact snoc_keeps st rfl
  | resetContext =>
    cases h
    unfold resetContext
    split
    · exact Keeps.refl _
    · exact snoc_keeps st rfl
  | rotateContext =>
    cases h
    unfold rotateContext
    split
    · exact Keeps.refl _
    · split
      · exact snoc_keeps st rfl
      · exact Keeps.refl _
  | closeSession =>
    cases h
    unfold closeSession
    split
    · exact Keeps.refl _
    case h_2 s hs =>
      refine discard_keeps rfl ?_
      rw [queue_of_session hs]
      rfl
  | forceIdle =>
    cases h
    exact hup fun s => rfl
  | timer =>
    obtain ⟨s, net, hs, -, -, rfl⟩ := timer_inv h
    refine containers_keeps_elsewhere ?_ (Perm.refl _)
    rw [queue_of_session hs]
    exact (SolutionSession.fireSafetyNet_frame s net).1
  | prompt i =>
    obtain ⟨thread, expected, blocks, htask, -, rfl⟩ := prompt_inv h
    have hi := (List.getElem?_eq_some_iff.1 htask).1
    refine erase_keeps htask rfl (List.perm_iff_count.2 fun a => ?_)
    have := List.perm_iff_count.1 (inFlight_set (.turn thread expected none) hi rfl) a
    simp only [elsewhere, inFlight, StoreTask.blocks, toList_some, map_append, map_cons,
      map_nil, Handover.blocks, count_append] at this ⊢
    omega
  | turnEnded i result =>
    obtain ⟨thread, expected, htask, -, rfl⟩ | ⟨thread, expected, blocks, err, htask, -, rfl⟩ := turnEnded_inv h
    · exact erase_keeps htask rfl (Perm.refl _)
    · refine erase_keeps htask ?_ (List.perm_iff_count.2 fun a => ?_)
      · refine queue_updateSession (fun s => ?_) st
        unfold turnError
        split <;> rfl
      · simp only [elsewhere, inFlight, updateSession, StoreTask.blocks, count_append]
        omega
  | threadReady i result => exact threadReady_keeps (threadReady_inv h)
  | reenter i env =>
    obtain ⟨blocks, htask, r, hsent, rfl⟩ := reenter_inv h
    refine Keeps.trans (Keeps.of_perm (List.perm_iff_count.2 fun a => ?_)) hsent.keeps
    have := List.perm_iff_count.1 (inFlight_erase htask) a
    rw [← singleton_append]
    simp only [broughtBy, containers, elsewhere, inFlight, queue, StoreTask.blocks, toList_some,
      nil_append, count_append] at this ⊢
    omega

theorem sent_sends [Inhabited M] {blocks : List (Piece M X)} {target : QueueTarget} {env : SendEnv}
    {r : SolutionAgentStore M X × SendResult} (h : Sent st blocks target env r) : r.1.sends = st.sends := by
  cases h <;> rfl

theorem noteResult_sends (st : SolutionAgentStore M X) (blocks : List (Piece M X)) (result : SendResult) :
    (st.noteResult blocks result).sends = st.sends := by
  unfold noteResult
  split <;> rfl

theorem turnStopped_sends [Inhabited M]
    (h : TurnStopped st s thread st') : st'.sends = st.sends := by
  cases h with
  | discarded s' hq hthread => rfl
  | flushed s' hq hthread st' hf => cases hf <;> rfl

theorem step_sends [Inhabited M] {a : StoreAction M X} (h : st.step a = some st') :
    st'.sends = st.sends ++ sentBy a := by
  cases a with
  | send blocks target env =>
    obtain ⟨r, hsent, hr⟩ := send_sent st blocks target env
    obtain rfl : st.send blocks target env = st' := some.inj h
    rw [hr, noteResult_sends, sent_sends hsent]
    rfl
  | acpEvent event env =>
    obtain ⟨s, thread, hs, hthread, rfl⟩ := acpEvent_inv h
    rcases handleAcpEvent_cases st hthread env event with hstop | ⟨s', thread', he, hq, -, -⟩
    · simp [turnStopped_sends hstop, sentBy]
    · simp [he, sentBy]
  | takePendingForDelivery agentId isEndOfTurn =>
    cases h
    simp only [takePendingForDelivery, sentBy, append_nil]
    split
    · rfl
    · split <;> rfl
  | resumeSession acpSessionId =>
    cases h
    unfold resumeSession
    split <;> simp [sentBy]
  | resetContext =>
    cases h
    unfold resetContext
    split <;> simp [sentBy]
  | rotateContext =>
    cases h
    unfold rotateContext
    split
    · simp [sentBy]
    · split <;> simp [sentBy]
  | closeSession =>
    cases h
    unfold closeSession
    split <;> simp [sentBy]
  | cancelTurn =>
    cases h
    simp [sentBy, onSession, updateSession]
  | interruptAndFlushPending =>
    cases h
    simp [sentBy, onSession, updateSession]
  | forceIdle =>
    cases h
    simp [sentBy, updateSession]
  | timer =>
    obtain ⟨s, net, hs, -, -, rfl⟩ := timer_inv h
    simp [sentBy]
  | prompt i =>
    obtain ⟨thread, expected, blocks, htask, -, rfl⟩ := prompt_inv h
    simp [sentBy]
  | turnEnded i result =>
    obtain ⟨thread, expected, htask, -, rfl⟩ | ⟨thread, expected, blocks, err, htask, -, rfl⟩ := turnEnded_inv h
    · simp [sentBy]
    · simp [sentBy, updateSession]
  | threadReady i result =>
    cases threadReady_inv h with
    | resumed blocks thread htask =>
      unfold promote
      split <;> simp [sentBy]
    | notResumed blocks err htask => simp [sentBy]
    | reset entity thread htask =>
      unfold finishReset
      split
      · split <;> simp [sentBy]
      · simp [sentBy]
    | rotated entity thread htask => simp [sentBy, finishRotate, updateSession]
    | gaveUp task err htask hblocks => simp [sentBy]
  | reenter i env =>
    obtain ⟨blocks, htask, r, hsent, rfl⟩ := reenter_inv h
    rw [noteResult_sends, sent_sends hsent]
    simp [sentBy]

/-- **A step moves messages as a whole**: none is split, lost sight of or doubled. -/
theorem step_held [Inhabited M] {a : StoreAction M X} (h : Held Piece.msg st.message st.containers)
    (hs : st.step a = some st') : Held Piece.msg st'.message st'.containers := by
  have hsends := step_sends hs
  have hk := step_keeps hs
  cases a with
  | send blocks target env =>
    refine Held.keeps (h.insert (i := st.sends.length) ?_ ?_ ?_ ?_) hk
    · simp [piecesOf]
    · simp [message]
    · intro j hj
      unfold message
      rw [hsends]
      by_cases hlt : j < st.sends.length
      · simp [List.getElem?_append_left hlt]
      · have hge : (st.sends ++ sentBy (.send blocks target env)).length ≤ j := by
          simp only [sentBy, length_append, length_singleton]
          omega
        rw [List.getElem?_eq_none hge, List.getElem?_eq_none (Nat.le_of_not_lt hlt)]
    · unfold message
      rw [hsends]
      simp [sentBy]
  | _ =>
    have hm : st'.message = st.message := by
      funext i
      unfold message
      rw [hsends]
      simp [sentBy]
    rw [hm]
    exact h.keeps hk

theorem init_held (id : AcpSessionId) (thread : Option AcpThread) :
    Held Piece.msg (init id thread : SolutionAgentStore M X).message (init id thread).containers :=
  fun _ => rfl

end SolutionAgentStore

end SpkEditor
