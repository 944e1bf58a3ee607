import SpkEditor.Agent.QueueCustody

/-!
# Follow-ups are delivered once, to whom they are for

A message for the main agent is handed to the main thread or to a hook of the main agent, a
message for a subagent to a hook of that subagent; none twice, and none with an image to a
hook. A message for the main agent is lost without anyone being told in two cases only: a
session is resumed while the message is queued, or the turn that a flush started fails
before it has prompted the agent.
-/

namespace SpkEditor

open List Option

variable {M X : Type}

variable {c : List (Piece M X)} {task : StoreTask M X} {target : QueueTarget}

/-- Every message with blocks in `c` is one of `sends` and satisfies `P`. -/
def From (sends : List (Send M X)) (P : Send M X → Prop) (c : List (Piece M X)) : Prop :=
  ∀ p ∈ c, ∀ i, p.msg = some i → ∃ s, sends[i]? = some s ∧ P s

namespace From

variable {sends more : List (Send M X)} {P Q : Send M X → Prop} {d : List (Piece M X)}

theorem mono (h : From sends P c) : From (sends ++ more) P c := by
  intro p hp i hi
  obtain ⟨s, hs, hP⟩ := h p hp i hi
  refine ⟨s, ?_, hP⟩
  rw [getElem?_append_left (List.getElem?_eq_some_iff.1 hs).1, hs]

theorem imp (h : From sends P c) (hPQ : ∀ s, P s → Q s) : From sends Q c := by
  intro p hp i hi
  obtain ⟨s, hs, hP⟩ := h p hp i hi
  exact ⟨s, hs, hPQ s hP⟩

theorem append (h : From sends P c) (h' : From sends P d) : From sends P (c ++ d) := by
  intro p hp
  rcases List.mem_append.1 hp with hp | hp
  · exact h p hp
  · exact h' p hp

theorem ofText [Inhabited M] (text : List Char) : From sends P [(Piece.ofText text : Piece M X)] := by
  intro p hp i hi
  rw [List.mem_singleton.1 hp] at hi
  exact nomatch hi

theorem flatMap {bundles : List (PendingBundle M X)} (h : ∀ b ∈ bundles, From sends P b.blocks) :
    From sends P (bundles.flatMap (·.blocks)) := by
  intro p hp
  obtain ⟨b, hb, hpb⟩ := List.mem_flatMap.1 hp
  exact h b hb p hpb

theorem piecesOf {s : Send M X} {i : Nat} (hs : sends[i]? = some s) (hP : P s) :
    From sends P (SolutionAgentStore.piecesOf i s.blocks) := by
  intro p hp j hj
  obtain ⟨block, -, rfl⟩ := List.mem_map.1 hp
  obtain rfl : i = j := some.inj hj
  exact ⟨s, hs, hP⟩

end From

/-- The agent that was given `h` is the one a message for `target` is for. -/
def Handover.IsFor (h : Handover M X) (target : QueueTarget) : Prop :=
  match h with
  | .prompt .. | .hook none .. => target = .main
  | .hook (some agentId) .. => target = .subagent agentId

def Handover.Shows (h : Handover M X) (s : Send M X) : Prop :=
  match h with
  | .prompt .. => True
  | .hook .. => ∀ block ∈ s.blocks, block.isImage = false

theorem matchesHook_isFor {agentId : Option AgentId} {blocks : List (Piece M X)}
    {text : List Char} (h : target.matchesHook agentId = true) : (Handover.hook agentId blocks text).IsFor target := by
  cases target with
  | main =>
    cases agentId with
    | none => rfl
    | some id => exact nomatch h
  | subagent id =>
    cases agentId with
    | none => exact nomatch h
    | some hookId =>
      have he : id = hookId := by simpa [QueueTarget.matchesHook] using h
      exact congrArg QueueTarget.subagent he

namespace SolutionAgentStore

variable {st st' : SolutionAgentStore M X}

/-- Every message is on its way to the agent it is for. -/
structure Routed (st : SolutionAgentStore M X) : Prop where
  queued : ∀ b ∈ st.queue, From st.sends (fun s => s.target = b.target) b.blocks
  flying : ∀ c ∈ st.inFlight, From st.sends (fun s => s.target = .main) c
  handed : ∀ h ∈ st.handed, From st.sends (fun s => h.IsFor s.target ∧ h.Shows s) h.blocks

theorem Routed.of_parts (h : st.Routed) (hq : ∀ b ∈ st'.queue, b ∈ st.queue) (hf : ∀ c ∈ st'.inFlight, c ∈ st.inFlight)
    (hh : st'.handed = st.handed) (hs : st'.sends = st.sends) : st'.Routed := by
  refine ⟨fun b hb => ?_, fun c hc => ?_, fun d hd => ?_⟩
  · rw [hs]
    exact h.queued b (hq b hb)
  · rw [hs]
    exact h.flying c (hf c hc)
  · rw [hs]
    exact h.handed d (hh ▸ hd)

theorem Routed.moreSends (h : st.Routed) (more : List (Send M X)) :
    Routed { st with sends := st.sends ++ more } :=
  ⟨fun b hb => (h.queued b hb).mono, fun c hc => (h.flying c hc).mono, fun d hd => (h.handed d hd).mono⟩

/-- What holds of the bundles of a queue and of the message that comes holds of the bundles
of the queue it is in. -/
theorem mem_enqueued [Inhabited M] {P : PendingBundle M X → Prop} {queue : List (PendingBundle M X)}
    {stamped : List (Piece M X)} (hq : ∀ b ∈ queue, P b) (hnew : P ⟨target, stamped⟩)
    (hjoin : ∀ b ∈ queue, b.target = target →
      P ⟨b.target, b.blocks ++ [Piece.ofText ['\n', '\n']] ++ stamped⟩) :
    ∀ b ∈ SolutionSession.enqueued queue stamped target, P b := by
  unfold SolutionSession.enqueued
  cases hl : queue.getLast? with
  | none => simpa using hnew
  | some last =>
    have hlast : last ∈ queue := mem_of_getLast? hl
    dsimp only
    split
    case isTrue ht =>
      intro b hb
      rcases List.mem_append.1 hb with hb | hb
      · exact hq b (mem_of_mem_dropLast hb)
      · rw [List.mem_singleton.1 hb]
        exact hjoin last hlast ht
    case isFalse =>
      intro b hb
      rcases List.mem_append.1 hb with hb | hb
      · exact hq b hb
      · rw [List.mem_singleton.1 hb]
        exact hnew

theorem mem_inFlight_snoc {tasks : List (StoreTask M X)}
    (h : c ∈ (tasks ++ [task]).filterMap StoreTask.blocks) :
    c ∈ tasks.filterMap StoreTask.blocks ∨ task.blocks = some c := by
  rw [filterMap_blocks_snoc, mem_append] at h
  rcases h with h | h
  · exact .inl h
  · exact .inr (by simpa using h)

theorem Sent.routed [Inhabited M] {blocks : List (Piece M X)} {env : SendEnv}
    {r : SolutionAgentStore M X × SendResult} (hsent : Sent st blocks target env r) (h : st.Routed)
    (hb : From st.sends (fun s => s.target = target) blocks) : (r.1.noteResult blocks r.2).Routed := by
  cases hsent with
  | unknown hs => exact h.of_parts (fun _ hm => hm) (fun _ hm => hm) rfl rfl
  | empty s hs he => exact h.of_parts (fun _ hm => hm) (fun _ hm => hm) rfl rfl
  | queued s hs he hr =>
    refine ⟨?_, h.flying, h.handed⟩
    have hq : ∀ b ∈ s.declineWaiting.pendingMessages, From st.sends (fun s => s.target = b.target) b.blocks := by
      rw [SolutionSession.declineWaiting_pendingMessages, ← queue_of_session hs]
      exact h.queued
    have hstamped := (From.ofText (queueTimestampPrefix env.now)).append hb
    refine mem_enqueued hq hstamped fun b hbq ht => ?_
    exact ((hq b hbq).append (From.ofText _)).append (ht ▸ hstamped)
  | dropped s id hs he hr ht =>
    refine h.of_parts (fun b hm => ?_) (fun _ hm => hm) rfl rfl
    rw [queue_of_session hs]
    simpa [noteResult, queue] using hm
  | stuck s err hs he hr ht hthread =>
    refine h.of_parts (fun b hm => ?_) (fun _ hm => hm) rfl rfl
    rw [queue_of_session hs]
    simpa [noteResult, queue] using hm
  | woken s hs he hr ht hthread =>
    refine ⟨fun b hm => h.queued b ?_, fun c hc => ?_, h.handed⟩
    · rw [queue_of_session hs]
      simpa [noteResult, queue] using hm
    · rcases mem_inFlight_snoc hc with hc | hc
      · exact h.flying c hc
      · obtain rfl : blocks = c := some.inj hc
        exact ht ▸ hb
  | started s thread hs he hr ht hthread =>
    refine ⟨fun b hm => h.queued b ?_, fun c hc => ?_, h.handed⟩
    · rw [queue_of_session hs]
      simpa [noteResult, queue] using hm
    · rcases mem_inFlight_snoc hc with hc | hc
      · exact h.flying c hc
      · obtain rfl : blocks = c := some.inj hc
        exact ht ▸ hb

theorem from_mainBlocks {sends : List (Send M X)} {queue : List (PendingBundle M X)}
    (h : ∀ b ∈ queue, From sends (fun s => s.target = b.target) b.blocks) :
    From sends (fun s => s.target = .main) (mainBlocks queue) := by
  refine From.flatMap fun b hb => ?_
  obtain ⟨hm, ht⟩ := List.mem_filter.1 hb
  have ht' : b.target = .main := by simpa using ht
  exact ht' ▸ h b hm

theorem turnStopped_routed [Inhabited M] {s : SolutionSession M X} {thread : AcpThread}
    (h : TurnStopped st s thread st') (hs : st.session = some s) (hr : st.Routed) : st'.Routed := by
  have hqueue := queue_of_session hs
  cases h with
  | discarded s' hq hthread =>
    refine hr.of_parts (fun b hb => ?_) (fun _ hm => hm) rfl rfl
    simp [queue, hq] at hb
  | flushed s' hq hthread st' hf =>
    have hmain : From st.sends (fun s => s.target = .main) (mainBlocks s'.pendingMessages) := by
      refine from_mainBlocks ?_
      rw [hq, ← hqueue]
      exact hr.queued
    cases hf with
    | nothing hm =>
      refine hr.of_parts (fun b hb => ?_) (fun _ hm => hm) rfl rfl
      simp [queue] at hb
    | started hm =>
      refine ⟨fun b hb => ?_, fun c hc => ?_, hr.handed⟩
      · simp [queue] at hb
      · rcases mem_inFlight_snoc hc with hc | hc
        · exact hr.flying c hc
        · cases hc
          exact (From.ofText _).append hmain

/-- The bundles a hook drains are for it and show no image: a message is in a bundle as a
whole, so its images would be there. -/
theorem drained_from {agentId : Option AgentId} {text : List Char} (hr : st.Routed)
    (hheld : Held Piece.msg st.message st.containers) {b : PendingBundle M X} (hb : b ∈ st.queue)
    (hd : SolutionSession.drains agentId b = true) (blocks : List (Piece M X)) :
    From st.sends (fun s => (Handover.hook agentId blocks text).IsFor s.target ∧
      (Handover.hook agentId blocks text).Shows s) b.blocks := by
  have hmatch : b.target.matchesHook agentId = true ∧ b.hasImage = false := by
    simpa [SolutionSession.drains] using hd
  intro p hp i hi
  obtain ⟨s, hs, ht⟩ := hr.queued b hb p hp i hi
  refine ⟨s, hs, ht ▸ matchesHook_isFor hmatch.1, ?_⟩
  -- the share of the message in this bundle is all of it
  have hc : b.blocks ∈ st.containers := mem_append_left _ (List.mem_map_of_mem hb)
  have hne : share Piece.msg i b.blocks ≠ [] := by
    intro hn
    have hmem : p ∈ share Piece.msg i b.blocks := List.mem_filter.2 ⟨hp, by simpa using hi⟩
    simp [hn] at hmem
  have hwhole := hheld.share_mem hc hne
  intro block hblock
  have hpiece : (⟨some i, block⟩ : Piece M X) ∈ share Piece.msg i (st.message i) := by
    refine List.mem_filter.2 ⟨?_, by simp⟩
    simp only [message, hs, piecesOf]
    exact List.mem_map_of_mem hblock
  rw [← hwhole] at hpiece
  have hall : ∀ q ∈ b.blocks, q.block.isImage = false := by simpa [PendingBundle.hasImage] using hmatch.2
  exact hall _ (List.mem_filter.1 hpiece).1

theorem takePendingForDelivery_routed (hr : st.Routed) (hheld : Held Piece.msg st.message st.containers)
    (agentId : Option AgentId) (isEndOfTurn : Bool) :
    (st.takePendingForDelivery agentId isEndOfTurn).1.Routed := by
  simp only [takePendingForDelivery]
  split
  case h_1 => exact hr
  case h_2 s hs =>
    have hkept : ∀ b ∈ s.pendingMessages.filter (fun b => !SolutionSession.drains agentId b), b ∈ st.queue := by
      intro b hb
      rw [queue_of_session hs]
      exact (List.mem_filter.1 hb).1
    split
    · exact hr.of_parts hkept (fun _ hm => hm) rfl rfl
    · refine ⟨fun b hb => hr.queued b (hkept b hb), hr.flying, fun d hd => ?_⟩
      rcases List.mem_append.1 hd with hd | hd
      · exact hr.handed d hd
      · rw [List.mem_singleton.1 hd]
        refine From.flatMap fun b hb => ?_
        obtain ⟨hm, hdrain⟩ := List.mem_filter.1 hb
        exact drained_from hr hheld (queue_of_session hs ▸ hm) hdrain _

theorem mem_inFlight_of_task {i : Nat} (h : st.tasks[i]? = some task)
    (hc : task.blocks = some c) : c ∈ st.inFlight :=
  List.mem_filterMap.2 ⟨task, mem_of_getElem? h, hc⟩

theorem mem_inFlight_erase {i : Nat}
    (h : c ∈ (st.tasks.eraseIdx i).filterMap StoreTask.blocks) : c ∈ st.inFlight := by
  obtain ⟨task, ht, hc⟩ := List.mem_filterMap.1 h
  exact List.mem_filterMap.2 ⟨task, mem_of_mem_eraseIdx ht, hc⟩

theorem updateSession_routed {f : SolutionSession M X → SolutionSession M X}
    (hf : ∀ s, (f s).pendingMessages = s.pendingMessages) (hr : st.Routed) : (st.updateSession f).Routed :=
  hr.of_parts (fun _ hb => queue_updateSession hf st ▸ hb) (fun _ hm => hm) rfl rfl

theorem threadReady_routed {i : Nat} {result : Except (List Char) AcpThread} (h : ThreadReady st i result st')
    (hr : st.Routed) : st'.Routed := by
  cases h with
  | resumed blocks thread htask =>
    have hq : (st.promote thread).queue = [] := by
      unfold promote
      split <;> rfl
    have hframe : (st.promote thread).handed = st.handed ∧ (st.promote thread).sends = st.sends := by
      unfold promote
      split <;> exact ⟨rfl, rfl⟩
    refine hr.of_parts (fun b hb => ?_) (fun c hc => ?_) hframe.1 hframe.2
    · have hb' : b ∈ (st.promote thread).queue := hb
      simp [hq] at hb'
    · have hc' : c ∈ (st.tasks.eraseIdx i ++ (blocks.map StoreTask.reenter).toList).filterMap StoreTask.blocks := hc
      cases blocks with
      | none =>
        rw [map_none, toList_none, append_nil] at hc'
        exact mem_inFlight_erase hc'
      | some bs =>
        rcases mem_inFlight_snoc hc' with hc' | hc'
        · exact mem_inFlight_erase hc'
        · exact mem_inFlight_of_task htask hc'
  | notResumed blocks err htask => exact hr.of_parts (fun _ hm => hm) (fun c hc => mem_inFlight_erase hc) rfl rfl
  | reset entity thread htask =>
    unfold finishReset
    split
    case h_1 s hs =>
      split
      · refine hr.of_parts (fun b hb => ?_) (fun c hc => mem_inFlight_erase hc) rfl rfl
        simp [queue, SolutionSession.attached] at hb
      · exact hr.of_parts (fun _ hm => hm) (fun c hc => mem_inFlight_erase hc) rfl rfl
    case h_2 => exact hr.of_parts (fun _ hm => hm) (fun c hc => mem_inFlight_erase hc) rfl rfl
  | rotated entity thread htask =>
    have hup : (st.finishRotate entity thread).Routed := by
      refine updateSession_routed (fun s => ?_) hr
      split <;> rfl
    exact hup.of_parts (fun _ hm => hm) (fun c hc => mem_inFlight_erase hc) rfl rfl
  | gaveUp task err htask hblocks => exact hr.of_parts (fun _ hm => hm) (fun c hc => mem_inFlight_erase hc) rfl rfl

/-- **Every step keeps every message on its way to the agent it is for.** -/
theorem step_routed [Inhabited M] {a : StoreAction M X} (hr : st.Routed)
    (hheld : Held Piece.msg st.message st.containers) (h : st.step a = some st') : st'.Routed := by
  cases a with
  | send blocks target env =>
    obtain ⟨r, hsent, he⟩ := send_sent st blocks target env
    obtain rfl : st.send blocks target env = st' := some.inj h
    rw [he]
    refine hsent.routed (hr.moreSends _) ?_
    exact From.piecesOf (s := ⟨target, blocks⟩) (by simp) rfl
  | acpEvent event env =>
    obtain ⟨s, thread, hs, hthread, rfl⟩ := acpEvent_inv h
    rcases handleAcpEvent_cases st hthread env event with hstop | ⟨s', thread', he, hq, -, -⟩
    · exact turnStopped_routed hstop hs hr
    · rw [he]
      refine hr.of_parts (fun b hb => ?_) (fun _ hm => hm) rfl rfl
      rw [queue_of_session hs, ← hq]
      exact hb
  | takePendingForDelivery agentId isEndOfTurn =>
    cases h
    exact takePendingForDelivery_routed hr hheld agentId isEndOfTurn
  | cancelTurn =>
    cases h
    exact updateSession_routed (fun s => (SolutionSession.cancelTurn_frame s).1) hr
  | interruptAndFlushPending =>
    cases h
    exact updateSession_routed (fun s => (SolutionSession.interruptAndFlushPending_frame s).1) hr
  | resumeSession acpSessionId =>
    cases h
    unfold resumeSession
    split
    · exact hr
    · exact hr.of_parts (fun _ hm => hm) (fun c hc => (mem_inFlight_snoc hc).resolve_right nofun) rfl rfl
  | resetContext =>
    cases h
    unfold resetContext
    split
    · exact hr
    · exact hr.of_parts (fun _ hm => hm) (fun c hc => (mem_inFlight_snoc hc).resolve_right nofun) rfl rfl
  | rotateContext =>
    cases h
    unfold rotateContext
    split
    · exact hr
    · split
      · exact hr.of_parts (fun _ hm => hm) (fun c hc => (mem_inFlight_snoc hc).resolve_right nofun) rfl rfl
      · exact hr
  | closeSession =>
    cases h
    unfold closeSession
    split
    · exact hr
    · exact hr.of_parts (fun b hb => nomatch hb) (fun _ hm => hm) rfl rfl
  | forceIdle =>
    cases h
    exact updateSession_routed (fun s => rfl) hr
  | timer =>
    obtain ⟨s, net, hs, -, -, rfl⟩ := timer_inv h
    refine hr.of_parts (fun b hb => ?_) (fun _ hm => hm) rfl rfl
    rw [queue_of_session hs, ← (SolutionSession.fireSafetyNet_frame s net).1]
    exact hb
  | prompt i =>
    obtain ⟨thread, expected, blocks, htask, -, rfl⟩ := prompt_inv h
    refine ⟨hr.queued, fun c hc => ?_, fun d hd => ?_⟩
    · have hi := (List.getElem?_eq_some_iff.1 htask).1
      exact hr.flying c (mem_inFlight_erase ((inFlight_set (.turn thread expected none) hi rfl).mem_iff.1 hc))
    · rcases List.mem_append.1 hd with hd | hd
      · exact hr.handed d hd
      · rw [List.mem_singleton.1 hd]
        exact (hr.flying blocks (mem_inFlight_of_task htask rfl)).imp fun s hs => ⟨hs, trivial⟩
  | turnEnded i result =>
    obtain ⟨thread, expected, htask, -, rfl⟩ | ⟨thread, expected, blocks, err, htask, -, rfl⟩ := turnEnded_inv h
    · exact hr.of_parts (fun _ hm => hm) (fun c hc => mem_inFlight_erase hc) rfl rfl
    · have hup : (st.updateSession fun s => turnError s expected err).Routed := by
        refine updateSession_routed (fun s => ?_) hr
        unfold turnError
        split <;> rfl
      exact hup.of_parts (fun _ hm => hm) (fun c hc => mem_inFlight_erase hc) rfl rfl
  | threadReady i result => exact threadReady_routed (threadReady_inv h) hr
  | reenter i env =>
    obtain ⟨blocks, htask, r, hsent, rfl⟩ := reenter_inv h
    refine hsent.routed ?_ (hr.flying blocks (mem_inFlight_of_task htask rfl))
    exact hr.of_parts (fun _ hm => hm) (fun c hc => mem_inFlight_erase hc) rfl rfl

theorem init_routed (id : AcpSessionId) (thread : Option AcpThread) :
    (init id thread : SolutionAgentStore M X).Routed :=
  ⟨fun _ hb => (nomatch hb), fun _ hc => (nomatch hc), fun _ hd => (nomatch hd)⟩

theorem Reaches.held_routed [Inhabited M] {id : AcpSessionId} {thread : Option AcpThread}
    {actions : List (StoreAction M X)} (h : (init id thread).Reaches actions st) :
    Held Piece.msg st.message st.containers ∧ st.Routed :=
  Run.invariant (I := fun st => Held Piece.msg st.message st.containers) (P := Routed)
    (fun _ _ _ hx hs => step_held hx hs) (fun _ _ _ hx hr _ hs => step_routed hr hx hs) h (init_held id thread)
    (init_routed id thread)

/-! ## At most once, and to the right agent -/

/-- The agents were given all of a message, once, or nothing of it. -/
def HandedOnce (st : SolutionAgentStore M X) : Prop :=
  ∀ (i : Nat) (s : Send M X), st.sends[i]? = some s → share Piece.msg i (st.handed.flatMap Handover.blocks) = [] ∨
    share Piece.msg i (st.handed.flatMap Handover.blocks) = piecesOf i s.blocks

theorem share_message {i : Nat} {s : Send M X} (hs : st.sends[i]? = some s) :
    share Piece.msg i (st.message i) = piecesOf i s.blocks := by
  have hm : st.message i = piecesOf i s.blocks := by simp [message, hs]
  rw [hm]
  exact share_eq_self (by simp [piecesOf])

theorem handedOnce_of_held (h : Held Piece.msg st.message st.containers) : st.HandedOnce := by
  intro i s hs
  have hp : (st.handed.map Handover.blocks ++ (st.queue.map (·.blocks) ++ (st.inFlight ++ st.discarded ++ st.failed ++
      st.dropped))).Perm st.containers := by
    unfold containers elsewhere
    rw [← append_assoc]
    refine (List.perm_append_comm.append_right _).trans (Perm.of_eq ?_)
    simp only [append_assoc]
  rw [flatMap_def, ← share_message hs]
  exact h.share_flatten_part hp

/-- **In every run each message is handed to an agent at most once, and to the agent it is
for, and no message with an image is handed to a hook.** -/
theorem follow_up_delivery [Inhabited M] {id : AcpSessionId} {thread : Option AcpThread}
    {actions : List (StoreAction M X)} (hrun : (init id thread).Reaches actions st) :
    st.HandedOnce ∧ (∀ h ∈ st.handed, From st.sends (fun s => h.IsFor s.target) h.blocks) ∧
      ∀ h ∈ st.handed, From st.sends h.Shows h.blocks := by
  obtain ⟨hheld, hrouted⟩ := hrun.held_routed
  exact ⟨handedOnce_of_held hheld, fun h hh => (hrouted.handed h hh).imp fun s hs => hs.1,
    fun h hh => (hrouted.handed h hh).imp fun s hs => hs.2⟩

/-- A turn, and two messages that come while it runs: one for a subagent, whose hook takes
it, and one for the main agent. -/
theorem follow_up_delivery_hook : ∃ st : SolutionAgentStore Unit Unit,
      (init [] (some ⟨0, [], []⟩)).Reaches [sendText ['a'] .main, .prompt 0, sendText ['b'] (.subagent ['x']),
        sendText ['c'] .main, .takePendingForDelivery (some ['x']) false] st ∧
      st.HandedOnce ∧ st.handed.length = 2 := by
  obtain ⟨st, hrun, hlen⟩ : ∃ st : SolutionAgentStore Unit Unit,
      (init [] (some ⟨0, [], []⟩)).Reaches [sendText ['a'] .main, .prompt 0, sendText ['b'] (.subagent ['x']),
        sendText ['c'] .main, .takePendingForDelivery (some ['x']) false] st ∧ st.handed.length = 2 :=
    ⟨_, .cons rfl (.cons rfl (.cons rfl (.cons rfl (.cons rfl .nil)))), rfl⟩
  exact ⟨st, hrun, (follow_up_delivery hrun).1, hlen⟩

/-! ## Losses -/

def OfOneSend (sends : List (Send M X)) (c : List (Piece M X)) : Prop :=
  ∃ (i : Nat) (s : Send M X), sends[i]? = some s ∧ c = piecesOf i s.blocks

/-- The step loses messages for the main agent: a session with such messages in its queue is
resumed, or a turn that a flush has started fails before it has prompted the agent. -/
def Loses (st : SolutionAgentStore M X) : StoreAction M X → Prop
  | .threadReady i (.ok _) =>
    (∃ blocks, st.tasks[i]? = some (.resume blocks)) ∧ ∃ b ∈ st.queue, b.target = .main
  | .turnEnded i (.error _) =>
    ∃ thread expected blocks, st.tasks[i]? = some (.turn thread expected (some blocks)) ∧ ∃ p ∈ blocks, p.msg = none
  | _ => False

/-- Where a message for the main agent is, if its send has not failed. -/
def Accounted (st : SolutionAgentStore M X) (i : Nat) (s : Send M X) : Prop :=
  (∃ b ∈ st.queue, share Piece.msg i b.blocks = piecesOf i s.blocks) ∨
  (∃ h ∈ st.handed, share Piece.msg i h.blocks = piecesOf i s.blocks) ∨
  (∃ c ∈ st.inFlight, share Piece.msg i c = piecesOf i s.blocks) ∨
  (∃ c ∈ st.discarded, share Piece.msg i c = piecesOf i s.blocks)

/-- A task holds one message as it was sent, or a turn what a flush has put together. -/
def TaskOk (sends : List (Send M X)) : StoreTask M X → Prop
  | .turn _ _ (some blocks) => OfOneSend sends blocks ∨ ∃ p ∈ blocks, p.msg = none
  | .resume (some blocks) | .reenter blocks => OfOneSend sends blocks
  | _ => True

/-- No message for the main agent is among those dropped, and what failed are sends. -/
structure Tracked (st : SolutionAgentStore M X) : Prop where
  dropped : ∀ c ∈ st.dropped, From st.sends (fun s => s.target ≠ .main) c
  failed : ∀ c ∈ st.failed, OfOneSend st.sends c
  tasks : ∀ task ∈ st.tasks, TaskOk st.sends task
  empty : ∀ (i : Nat) (s : Send M X), st.sends[i]? = some s → s.blocks = [] → [] ∈ st.failed

theorem OfOneSend.mono {sends more : List (Send M X)} (h : OfOneSend sends c) :
    OfOneSend (sends ++ more) c := by
  obtain ⟨i, s, hs, hc⟩ := h
  refine ⟨i, s, ?_, hc⟩
  rw [getElem?_append_left (List.getElem?_eq_some_iff.1 hs).1, hs]

theorem TaskOk.mono {sends more : List (Send M X)} (h : TaskOk sends task) :
    TaskOk (sends ++ more) task := by
  match task, h with
  | .turn _ _ (some _), .inl h => exact .inl h.mono
  | .turn _ _ (some _), .inr h => exact .inr h
  | .turn _ _ none, _ => trivial
  | .resume (some _), h => exact OfOneSend.mono h
  | .resume none, _ => trivial
  | .reenter _, h => exact OfOneSend.mono h
  | .reset _, _ => trivial
  | .rotate _, _ => trivial

/-- What a step may change of the history without harm. -/
theorem Tracked.of_parts (h : st.Tracked) (hd : st'.dropped = st.dropped) (hf : st'.failed = st.failed)
    (ht : ∀ task ∈ st'.tasks, TaskOk st.sends task) (hs : st'.sends = st.sends) : st'.Tracked := by
  refine ⟨?_, ?_, ?_, ?_⟩
  · rw [hd, hs]
    exact h.dropped
  · rw [hf, hs]
    exact h.failed
  · rw [hs]
    exact ht
  · rw [hf, hs]
    exact h.empty

theorem Tracked.drop (h : st.Tracked) {cs : List (List (Piece M X))}
    (hc : ∀ c ∈ cs, From st.sends (fun s => s.target ≠ .main) c) :
    Tracked { st with dropped := st.dropped ++ cs } := by
  refine ⟨fun c hm => ?_, h.failed, h.tasks, h.empty⟩
  rcases List.mem_append.1 hm with hm | hm
  · exact h.dropped c hm
  · exact hc c hm

theorem Tracked.fail (h : st.Tracked) {cs : List (List (Piece M X))} (hc : ∀ c ∈ cs, OfOneSend st.sends c) :
    Tracked { st with failed := st.failed ++ cs } := by
  refine ⟨h.dropped, fun c hm => ?_, h.tasks, fun i s hs hb => mem_append_left _ (h.empty i s hs hb)⟩
  rcases List.mem_append.1 hm with hm | hm
  · exact h.failed c hm
  · exact hc c hm

theorem Sent.tracked [Inhabited M] {blocks : List (Piece M X)} {env : SendEnv}
    {r : SolutionAgentStore M X × SendResult} (hsent : Sent st blocks target env r) (h : st.Tracked)
    (hone : OfOneSend st.sends blocks) (hb : From st.sends (fun s => s.target = target) blocks) :
    (r.1.noteResult blocks r.2).Tracked := by
  have hfail : ∀ {st₁ : SolutionAgentStore M X}, st₁.dropped = st.dropped → st₁.failed = st.failed →
      st₁.tasks = st.tasks → st₁.sends = st.sends → Tracked { st₁ with failed := st₁.failed ++ [blocks] } := by
    intro st₁ h₁ h₂ h₃ h₄
    have htr : st₁.Tracked := h.of_parts h₁ h₂ (h₃ ▸ h.tasks) h₄
    refine htr.fail fun c hc => ?_
    rw [List.mem_singleton.1 hc, h₄]
    exact hone
  cases hsent with
  | unknown hs => exact hfail rfl rfl rfl rfl
  | empty s hs he => exact hfail rfl rfl rfl rfl
  | queued s hs he hr => exact h.of_parts rfl rfl h.tasks rfl
  | dropped s id hs he hr ht =>
    have hdrop : Tracked { st with dropped := st.dropped ++ [blocks] } := by
      refine h.drop fun c hc => ?_
      rw [List.mem_singleton.1 hc]
      exact hb.imp fun s hs => by simp [hs, ht]
    exact hdrop.of_parts rfl rfl hdrop.tasks rfl
  | stuck s err hs he hr ht hthread => exact hfail rfl rfl rfl rfl
  | woken s hs he hr ht hthread =>
    refine h.of_parts rfl rfl (fun task hm => ?_) rfl
    rcases List.mem_append.1 hm with hm | hm
    · exact h.tasks task hm
    · rw [List.mem_singleton.1 hm]
      exact hone
  | started s thread hs he hr ht hthread =>
    refine h.of_parts rfl rfl (fun task hm => ?_) rfl
    rcases List.mem_append.1 hm with hm | hm
    · exact h.tasks task hm
    · rw [List.mem_singleton.1 hm]
      exact .inl hone

theorem turnStopped_tracked [Inhabited M] {s : SolutionSession M X} {thread : AcpThread}
    (h : TurnStopped st s thread st') (hs : st.session = some s) (hr : st.Routed) (ht : st.Tracked) : st'.Tracked := by
  cases h with
  | discarded s' hq hthread => exact ht.of_parts rfl rfl ht.tasks rfl
  | flushed s' hq hthread st' hf =>
    have hdrop : Tracked { st with dropped := st.dropped ++ subagentBlocks s'.pendingMessages } := by
      refine ht.drop fun c hc => ?_
      obtain ⟨b, hb, rfl⟩ := List.mem_map.1 hc
      obtain ⟨hm, htarget⟩ := List.mem_filter.1 hb
      rw [hq, ← queue_of_session hs] at hm
      have hne : b.target ≠ .main := by simpa using htarget
      exact (hr.queued b hm).imp fun s he => he ▸ hne
    cases hf with
    | nothing hm => exact hdrop.of_parts rfl rfl hdrop.tasks rfl
    | started hm =>
      refine hdrop.of_parts rfl rfl (fun task htask => ?_) rfl
      rcases List.mem_append.1 htask with htask | htask
      · exact ht.tasks task htask
      · rw [List.mem_singleton.1 htask]
        exact .inr ⟨_, mem_cons_self .., rfl⟩

theorem Tracked.erase (h : st.Tracked) (i : Nat) : ∀ task ∈ st.tasks.eraseIdx i, TaskOk st.sends task :=
  fun task hm => h.tasks task (mem_of_mem_eraseIdx hm)

theorem Tracked.snoc (h : st.Tracked) (hok : TaskOk st.sends task) :
    ∀ t ∈ st.tasks ++ [task], TaskOk st.sends t := by
  intro t hm
  rcases List.mem_append.1 hm with hm | hm
  · exact h.tasks t hm
  · exact List.mem_singleton.1 hm ▸ hok

theorem Tracked.moreSends (h : st.Tracked) {s : Send M X} (hs : s.blocks ≠ []) :
    Tracked { st with sends := st.sends ++ [s] } := by
  refine ⟨fun c hc => (h.dropped c hc).mono, fun c hc => (h.failed c hc).mono,
    fun task ht => (h.tasks task ht).mono, fun i s' hs' hb => ?_⟩
  rcases Nat.lt_trichotomy i st.sends.length with hlt | heq | hgt
  · exact h.empty i s' (by simpa [getElem?_append_left hlt] using hs') hb
  · subst heq
    obtain rfl : s = s' := by simpa using hs'
    exact absurd hb hs
  · have hge : (st.sends ++ [s]).length ≤ i := by
      rw [length_append, length_singleton]
      omega
    have hnone := getElem?_eq_none hge
    exact nomatch hs'.symm.trans hnone

theorem threadReady_tracked {i : Nat} {result : Except (List Char) AcpThread} (h : ThreadReady st i result st')
    (hr : st.Routed) (ht : st.Tracked) (hl : ¬ st.Loses (.threadReady i result)) : st'.Tracked := by
  cases h with
  | resumed blocks thread htask =>
    -- the queue that is cleared holds no message for the main agent
    have hqueue : ∀ b ∈ st.queue, From st.sends (fun s => s.target ≠ .main) b.blocks := by
      intro b hb
      have hne : b.target ≠ .main := fun he => hl ⟨⟨blocks, htask⟩, b, hb, he⟩
      exact (hr.queued b hb).imp fun s he => he ▸ hne
    have hpromote : (st.promote thread).Tracked := by
      unfold promote
      split
      case h_1 s hs =>
        have hdrop : Tracked { st with dropped := st.dropped ++ s.pendingMessages.map (·.blocks) } := by
          refine ht.drop fun c hc => ?_
          obtain ⟨b, hb, rfl⟩ := List.mem_map.1 hc
          exact hqueue b (queue_of_session hs ▸ hb)
        exact hdrop.of_parts rfl rfl hdrop.tasks rfl
      case h_2 => exact ht.of_parts rfl rfl ht.tasks rfl
    have hsends : (st.promote thread).sends = st.sends := by
      unfold promote
      split <;> rfl
    refine hpromote.of_parts rfl rfl (fun task hm => ?_) rfl
    rw [hsends]
    rcases List.mem_append.1 hm with hm | hm
    · exact ht.erase i task hm
    · cases blocks with
      | none => simp at hm
      | some bs =>
        obtain rfl : task = .reenter bs := by simpa using hm
        exact (ht.tasks (.resume (some bs)) (mem_of_getElem? htask) : OfOneSend st.sends bs)
  | notResumed blocks err htask =>
    have hfail : Tracked { st with failed := st.failed ++ blocks.toList } := by
      refine ht.fail fun c hc => ?_
      obtain rfl : blocks = some c := by simpa using hc
      exact ht.tasks _ (mem_of_getElem? htask)
    exact hfail.of_parts rfl rfl (ht.erase i) rfl
  | reset entity thread htask =>
    unfold finishReset
    split
    · split <;> exact ht.of_parts rfl rfl (ht.erase i) rfl
    · exact ht.of_parts rfl rfl (ht.erase i) rfl
  | rotated entity thread htask => exact ht.of_parts rfl rfl (ht.erase i) rfl
  | gaveUp task err htask hblocks => exact ht.of_parts rfl rfl (ht.erase i) rfl

theorem send_nil_tracked (ht : st.Tracked) (target : QueueTarget) :
    Tracked { st with sends := st.sends ++ [⟨target, []⟩], failed := st.failed ++ [[]] } := by
  refine ⟨fun c hc => (ht.dropped c hc).mono, fun c hc => ?_, fun task hm => (ht.tasks task hm).mono,
    fun i s hs hb => by simp⟩
  rcases List.mem_append.1 hc with hc | hc
  · exact (ht.failed c hc).mono
  · exact ⟨st.sends.length, ⟨target, []⟩, by simp, List.mem_singleton.1 hc⟩

theorem send_tracked [Inhabited M] (ht : st.Tracked) (blocks : List (ContentBlock M X)) (target : QueueTarget)
    (env : SendEnv) : (st.send blocks target env).Tracked := by
  obtain ⟨r, hsent, he⟩ := send_sent st blocks target env
  rw [he]
  by_cases hb : blocks = []
  · subst hb
    cases hsent with
    | unknown hs => exact send_nil_tracked ht target
    | empty s hs hb => exact send_nil_tracked ht target
    | queued s hs hb => exact absurd rfl hb
    | dropped s id hs hb => exact absurd rfl hb
    | stuck s err hs hb => exact absurd rfl hb
    | woken s hs hb => exact absurd rfl hb
    | started s thread hs hb => exact absurd rfl hb
  · refine hsent.tracked (ht.moreSends hb) ?_ ?_
    · exact ⟨st.sends.length, ⟨target, blocks⟩, by simp, rfl⟩
    · exact From.piecesOf (s := ⟨target, blocks⟩) (by simp) rfl

/-- **A step that does not lose messages keeps track of them.** -/
theorem step_tracked [Inhabited M] {a : StoreAction M X} (hr : st.Routed) (ht : st.Tracked) (hl : ¬ st.Loses a)
    (h : st.step a = some st') : st'.Tracked := by
  cases a with
  | send blocks target env =>
    obtain rfl : st.send blocks target env = st' := some.inj h
    exact send_tracked ht blocks target env
  | acpEvent event env =>
    obtain ⟨s, thread, hs, hthread, rfl⟩ := acpEvent_inv h
    rcases handleAcpEvent_cases st hthread env event with hstop | ⟨s', thread', he, -, -, -⟩
    · exact turnStopped_tracked hstop hs hr ht
    · rw [he]
      exact ht.of_parts rfl rfl ht.tasks rfl
  | takePendingForDelivery agentId isEndOfTurn =>
    cases h
    simp only [takePendingForDelivery]
    split
    · exact ht
    · split <;> exact ht.of_parts rfl rfl ht.tasks rfl
  | cancelTurn =>
    cases h
    exact ht.of_parts rfl rfl ht.tasks rfl
  | interruptAndFlushPending =>
    cases h
    exact ht.of_parts rfl rfl ht.tasks rfl
  | resumeSession acpSessionId =>
    cases h
    unfold resumeSession
    split
    · exact ht
    · exact ht.of_parts rfl rfl (ht.snoc trivial) rfl
  | resetContext =>
    cases h
    unfold resetContext
    split
    · exact ht
    · exact ht.of_parts rfl rfl (ht.snoc trivial) rfl
  | rotateContext =>
    cases h
    unfold rotateContext
    split
    · exact ht
    · split
      · exact ht.of_parts rfl rfl (ht.snoc trivial) rfl
      · exact ht
  | closeSession =>
    cases h
    unfold closeSession
    split
    · exact ht
    · exact ht.of_parts rfl rfl ht.tasks rfl
  | forceIdle =>
    cases h
    exact ht.of_parts rfl rfl ht.tasks rfl
  | timer =>
    obtain ⟨s, net, hs, -, -, rfl⟩ := timer_inv h
    exact ht.of_parts rfl rfl ht.tasks rfl
  | prompt i =>
    obtain ⟨thread, expected, blocks, htask, -, rfl⟩ := prompt_inv h
    refine ht.of_parts rfl rfl (fun task hm => ?_) rfl
    rcases mem_or_eq_of_mem_set hm with hm | rfl
    · exact ht.tasks task hm
    · trivial
  | turnEnded i result =>
    obtain ⟨thread, expected, htask, -, rfl⟩ | ⟨thread, expected, blocks, err, htask, rfl, rfl⟩ := turnEnded_inv h
    · exact ht.of_parts rfl rfl (ht.erase i) rfl
    · have hfail : Tracked { st with failed := st.failed ++ blocks.toList } := by
        refine ht.fail fun c hc => ?_
        obtain rfl : blocks = some c := by simpa using hc
        -- what the turn holds is one message, or it comes from a flush
        rcases ht.tasks _ (mem_of_getElem? htask) with hone | hnone
        · exact hone
        · exact (hl ⟨thread, expected, c, htask, hnone⟩).elim
      exact hfail.of_parts rfl rfl (ht.erase i) rfl
  | threadReady i result => exact threadReady_tracked (threadReady_inv h) hr ht hl
  | reenter i env =>
    obtain ⟨blocks, htask, r, hsent, rfl⟩ := reenter_inv h
    have hmem := mem_of_getElem? htask
    have herase : Tracked { st with tasks := st.tasks.eraseIdx i } := ht.of_parts rfl rfl (ht.erase i) rfl
    exact hsent.tracked herase (ht.tasks _ hmem) (hr.flying blocks (mem_inFlight_of_task htask rfl))

theorem init_tracked (id : AcpSessionId) (thread : Option AcpThread) :
    (init id thread : SolutionAgentStore M X).Tracked :=
  ⟨fun _ hc => (nomatch hc), fun _ hc => (nomatch hc), fun _ ht => (nomatch ht), fun _ _ hs => by simp [init] at hs⟩

/-- A run whose steps lose no messages for the main agent. -/
def ReachesUnlost [Inhabited M] (st : SolutionAgentStore M X) (actions : List (StoreAction M X))
    (st' : SolutionAgentStore M X) : Prop :=
  Run (fun x a y => step x a = some y ∧ ¬ x.Loses a) st actions st'

theorem ReachesUnlost.invariants [Inhabited M] {id : AcpSessionId} {thread : Option AcpThread}
    {actions : List (StoreAction M X)} (h : (init id thread).ReachesUnlost actions st) :
    Held Piece.msg st.message st.containers ∧ st.Routed ∧ st.Tracked := by
  refine Run.keeps (I := fun st => Held Piece.msg st.message st.containers ∧ st.Routed ∧ st.Tracked) ?_ h
    ⟨init_held id thread, init_routed id thread, init_tracked id thread⟩
  rintro x a y ⟨hheld, hrouted, htracked⟩ ⟨hstep, hl⟩
  exact ⟨step_held hheld hstep, step_routed hrouted hheld hstep, step_tracked hrouted htracked hl hstep⟩

/-- **In a run that takes no losing step, a message for the main agent whose send has not
failed is queued, with the agent, in a task or among the discarded ones.** -/
theorem follow_up_kept [Inhabited M] {id : AcpSessionId} {thread : Option AcpThread}
    {actions : List (StoreAction M X)} (hrun : (init id thread).ReachesUnlost actions st) {i : Nat} {s : Send M X}
    (hs : st.sends[i]? = some s) (hmain : s.target = .main) (hok : piecesOf i s.blocks ∉ st.failed) :
    st.Accounted i s := by
  obtain ⟨hheld, hrouted, htracked⟩ := hrun.invariants
  have hne : piecesOf i s.blocks ≠ [] := by
    intro hn
    rw [hn] at hok
    exact hok (htracked.empty i s hs (List.map_eq_nil_iff.1 hn))
  have hshare := share_message hs
  obtain ⟨c, hc, hci⟩ := hheld.exists_mem (i := i) (by rw [hshare]; exact hne)
  rw [hshare] at hci
  -- a piece of the message in `c`
  obtain ⟨p, hp⟩ := exists_mem_of_ne_nil _ (hci ▸ hne)
  obtain ⟨hpc, hpi⟩ := List.mem_filter.1 hp
  have hpi' : p.msg = some i := by simpa using hpi
  simp only [containers, elsewhere, mem_append] at hc
  rcases hc with hc | (((hc | hc) | hc) | hc) | hc
  · obtain ⟨b, hb, rfl⟩ := List.mem_map.1 hc
    exact .inl ⟨b, hb, hci⟩
  · obtain ⟨h, hh, rfl⟩ := List.mem_map.1 hc
    exact .inr (.inl ⟨h, hh, hci⟩)
  · exact .inr (.inr (.inl ⟨c, hc, hci⟩))
  · exact .inr (.inr (.inr ⟨c, hc, hci⟩))
  · -- a send that failed is the send of its blocks
    obtain ⟨j, s', hs', rfl⟩ := htracked.failed c hc
    obtain ⟨block, -, rfl⟩ := List.mem_map.1 hpc
    obtain rfl : j = i := some.inj hpi'
    obtain rfl : s' = s := some.inj (hs'.symm.trans hs)
    exact absurd hc hok
  · obtain ⟨s', hs', ht⟩ := htracked.dropped c hc p hpc i hpi'
    obtain rfl : s' = s := some.inj (hs'.symm.trans hs)
    exact absurd hmain ht

/-- A message that comes while a turn runs. -/
theorem follow_up_kept_queued : ∃ st : SolutionAgentStore Unit Unit,
      (init [] (some ⟨0, [], []⟩)).ReachesUnlost [sendText ['a'] .main, sendText ['b'] .main] st ∧
        st.Accounted 1 ⟨.main, [.text ['b'] ()]⟩ := by
  obtain ⟨st, hrun, hs, hf⟩ : ∃ st : SolutionAgentStore Unit Unit,
      (init [] (some ⟨0, [], []⟩)).ReachesUnlost [sendText ['a'] .main, sendText ['b'] .main] st ∧
        st.sends[1]? = some ⟨.main, [.text ['b'] ()]⟩ ∧ st.failed = [] :=
    ⟨_, .cons ⟨rfl, id⟩ (.cons ⟨rfl, id⟩ .nil), rfl, rfl⟩
  exact ⟨st, hrun, follow_up_kept hrun hs rfl (by simp [hf])⟩

/-- A cold session is woken by a message, and another message comes before the agent is
there. It is queued, its send returns no error, and it is gone when the session is awake. -/
theorem follow_up_lost_on_resume : ∃ st : SolutionAgentStore Unit Unit,
      (init [] none).Reaches [sendText ['a'] .main, sendText ['b'] .main, .threadReady 0 (.ok ⟨0, [], []⟩)] st ∧
        st.sends[1]? = some ⟨.main, [.text ['b'] ()]⟩ ∧ st.failed = [] ∧
        ¬ st.Accounted 1 ⟨.main, [.text ['b'] ()]⟩ := by
  refine ⟨_, .cons rfl (.cons rfl (.cons rfl .nil)), rfl, rfl, ?_⟩
  rintro (⟨b, hb, -⟩ | ⟨h, hh, -⟩ | ⟨c, hc, hshare⟩ | ⟨c, hc, -⟩)
  · exact nomatch hb
  · exact nomatch hh
  · -- the only task is the send that goes on
    obtain rfl : c = piecesOf 0 [.text ['a'] ()] := List.mem_singleton.1 hc
    exact nomatch hshare
  · exact nomatch hc

end SolutionAgentStore

end SpkEditor
