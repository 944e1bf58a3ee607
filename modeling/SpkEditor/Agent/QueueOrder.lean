import SpkEditor.Agent.QueueDelivery
import Mathlib.Data.List.Flatten

/-!
# The order of follow-ups

The messages with the agent, those that turns hold and those in the queue make one line,
and every step moves a message forward in it: the text messages for the main agent are
handed over in the order they were sent. Three things break the line. A message is sent at
once, because no turn is running, while another is still queued; a hook takes a message
while a turn that started before waits to prompt the agent; a hook leaves a bundle with an
image in the queue and takes one that came later.
-/

namespace SpkEditor

open List Option

variable {M X : Type}

variable {s : SolutionSession M X} {thread : AcpThread} {e : Nat}

/-! ## Text messages for the main agent -/

def isMainText (sends : List (Send M X)) (i : Nat) : Bool :=
  match sends[i]? with
  | some s => decide (s.target = .main) && s.blocks.all ContentBlock.isText
  | none => false

/-- The text messages for the main agent that a container has blocks of, in order. -/
def textIds (sends : List (Send M X)) (c : List (Piece M X)) : List Nat :=
  c.filterMap fun p => p.msg.filter (isMainText sends)

section TextIds

variable {sends more : List (Send M X)} {c d : List (Piece M X)} {i : Nat}

@[simp] theorem textIds_nil : textIds sends [] = [] := rfl

@[simp] theorem textIds_append : textIds sends (c ++ d) = textIds sends c ++ textIds sends d :=
  filterMap_append ..

@[simp] theorem textIds_ofText [Inhabited M] (text : List Char) :
    textIds sends [(Piece.ofText text : Piece M X)] = [] := rfl

theorem textIds_cons_ofText [Inhabited M] (text : List Char) :
    textIds sends (Piece.ofText text :: c) = textIds sends c := rfl

theorem mem_textIds : i ∈ textIds sends c ↔ (∃ p ∈ c, p.msg = some i) ∧ isMainText sends i = true := by
  simp only [textIds, mem_filterMap, filter_eq_some_iff]
  constructor
  · rintro ⟨p, hp, hi, ht⟩
    exact ⟨⟨p, hp, hi⟩, ht⟩
  · rintro ⟨⟨p, hp, hi⟩, ht⟩
    exact ⟨p, hp, hi, ht⟩

theorem lt_of_isMainText (h : isMainText sends i = true) : i < sends.length := by
  by_contra hge
  simp [isMainText, List.getElem?_eq_none (Nat.le_of_not_lt hge)] at h

theorem textIds_lt (h : i ∈ textIds sends c) : i < sends.length := lt_of_isMainText (mem_textIds.1 h).2

/-- Messages that come later change nothing for those that are there. -/
theorem textIds_mono {P : Send M X → Prop} (h : From sends P c) : textIds (sends ++ more) c = textIds sends c := by
  refine filterMap_congr fun p hp => ?_
  cases hm : p.msg with
  | none => rfl
  | some i =>
    obtain ⟨s, hs, -⟩ := h p hp i hm
    have hlt := (List.getElem?_eq_some_iff.1 hs).1
    have he : isMainText (sends ++ more) i = isMainText sends i := by
      unfold isMainText
      rw [List.getElem?_append_left hlt]
    simp only [Option.filter, he]

theorem mem_textIds_piecesOf {j : Nat} {blocks : List (ContentBlock M X)}
    (h : i ∈ textIds sends (SolutionAgentStore.piecesOf j blocks)) : i = j := by
  obtain ⟨⟨p, hp, hm⟩, -⟩ := mem_textIds.1 h
  obtain ⟨block, -, rfl⟩ := List.mem_map.1 hp
  exact (some.inj hm).symm

theorem textIds_enqueued [Inhabited M] (queue : List (PendingBundle M X)) (blocks : List (Piece M X))
    (stamp : List Char) (target : QueueTarget) :
    textIds sends ((SolutionSession.enqueued queue (Piece.ofText stamp :: blocks) target).flatMap (·.blocks)) =
      textIds sends (queue.flatMap (·.blocks)) ++ textIds sends blocks := by
  unfold SolutionSession.enqueued
  cases hl : queue.getLast? with
  | none =>
    obtain rfl := List.getLast?_eq_none_iff.1 hl
    simp [textIds_cons_ofText]
  | some last =>
    obtain ⟨init, rfl⟩ := List.getLast?_eq_some_iff.1 hl
    dsimp only
    split <;> simp [textIds_cons_ofText]

end TextIds

namespace SolutionAgentStore

variable {st st' : SolutionAgentStore M X}

/-- All that is with the agent or on its way to it, in order. -/
def line (st : SolutionAgentStore M X) : List (Piece M X) :=
  st.handed.flatMap Handover.blocks ++ st.inFlight.flatten ++ st.queue.flatMap (·.blocks)

/-- The text messages for the main agent stand in the order they were sent. -/
def InLine (st : SolutionAgentStore M X) : Prop := (textIds st.sends st.line).Pairwise (· ≤ ·)

/-- The agent was given the text messages for it in the order they were sent. -/
def FirstInFirstOut (st : SolutionAgentStore M X) : Prop :=
  (textIds st.sends (st.handed.flatMap Handover.blocks)).Pairwise (· ≤ ·)

theorem InLine.firstInFirstOut (h : st.InLine) : st.FirstInFirstOut := by
  unfold InLine line at h
  rw [textIds_append, textIds_append, append_assoc] at h
  exact (List.pairwise_append.1 h).1

/-- What a bundle has of text messages for the main agent. -/
def HoldsText (st : SolutionAgentStore M X) (c : List (Piece M X)) : Prop := textIds st.sends c ≠ []

/-- The step lets a text message overtake another one. -/
def Overtakes (st : SolutionAgentStore M X) : StoreAction M X → Prop
  | .send blocks target _ =>
    target = .main ∧ blocks.all ContentBlock.isText = true ∧
      (∃ s, st.session = some s ∧ s.state ≠ .running) ∧ ∃ b ∈ st.queue, st.HoldsText b.blocks
  | .takePendingForDelivery none _ =>
    ∃ b ∈ st.queue, SolutionSession.drains none b = true ∧ st.HoldsText b.blocks ∧
      ((∃ c ∈ st.inFlight, st.HoldsText c) ∨
        ∃ k, [k, b].Sublist st.queue ∧ SolutionSession.drains none k = false ∧ st.HoldsText k.blocks)
  | _ => False

/-- The steps of a session that stays awake. -/
def Awake : StoreAction M X → Prop
  | .send .. | .acpEvent .. | .takePendingForDelivery .. | .cancelTurn | .interruptAndFlushPending | .forceIdle
  | .timer | .prompt .. | .turnEnded .. => True
  | _ => False

/-- The session has the thread `e`, and the tasks are turns of it. -/
def OnThread (e : Nat) (st : SolutionAgentStore M X) : Prop :=
  (∃ s thread, st.session = some s ∧ s.acpThread = some thread ∧ thread.entity = e) ∧
    ∀ task ∈ st.tasks, ∃ expected blocks, task = .turn e expected blocks

theorem OnThread.updateSession (h : st.OnThread e) {f : SolutionSession M X → SolutionSession M X}
    (hf : ∀ s, (f s).acpThread = s.acpThread) : (st.updateSession f).OnThread e := by
  obtain ⟨⟨s, thread, hs, ht, he⟩, htasks⟩ := h
  exact ⟨⟨f s, thread, by simp [SolutionAgentStore.updateSession, hs], (hf s).trans ht, he⟩, htasks⟩

theorem declineWaiting_thread (ht : s.acpThread = some thread) :
    ∃ thread', s.declineWaiting.acpThread = some thread' ∧ thread'.entity = thread.entity := by
  have he := (SolutionSession.declineWaiting_frame s).2.2.2.2
  rw [ht, map_some] at he
  exact Option.map_eq_some_iff.1 he

theorem OnThread.snoc (h : ∀ task ∈ st.tasks, ∃ expected blocks, task = .turn e expected blocks)
    (expected : AcpSessionId) (blocks : Option (List (Piece M X))) :
    ∀ task ∈ st.tasks ++ [.turn e expected blocks], ∃ expected blocks, task = .turn e expected blocks := by
  intro task hm
  rcases List.mem_append.1 hm with hm | hm
  · exact h task hm
  · exact ⟨expected, blocks, List.mem_singleton.1 hm⟩

theorem Sent.onThread [Inhabited M] {blocks : List (Piece M X)} {target : QueueTarget} {env : SendEnv}
    {r : SolutionAgentStore M X × SendResult} (hsent : Sent st blocks target env r) (h : st.OnThread e) :
    (r.1.noteResult blocks r.2).OnThread e := by
  obtain ⟨⟨s, thread, hs, ht, he⟩, htasks⟩ := h
  obtain ⟨thread', ht', he'⟩ := declineWaiting_thread ht
  have hsame : ∀ {s'}, st.session = some s' → s' = s := fun hs' => some.inj (hs'.symm.trans hs)
  cases hsent with
  | unknown hs' => simp [hs] at hs'
  | empty s' hs' hb => exact ⟨⟨s, thread, hs, ht, he⟩, htasks⟩
  | queued s' hs' hb hr =>
    obtain rfl := hsame hs'
    exact ⟨⟨_, thread', rfl, ht', he'.trans he⟩, htasks⟩
  | dropped s' id hs' hb hr htarget =>
    obtain rfl := hsame hs'
    exact ⟨⟨_, thread', rfl, ht', he'.trans he⟩, htasks⟩
  | stuck s' err hs' hb hr htarget hnone =>
    obtain rfl := hsame hs'
    simp [ht] at hnone
  | woken s' hs' hb hr htarget hnone =>
    obtain rfl := hsame hs'
    simp [ht] at hnone
  | started s' thread₁ hs' hb hr htarget hsome =>
    obtain rfl := hsame hs'
    obtain rfl : thread = thread₁ := some.inj (ht.symm.trans hsome)
    refine ⟨⟨_, thread', rfl, ht', he'.trans he⟩, ?_⟩
    rw [← he] at htasks ⊢
    exact OnThread.snoc htasks _ _

theorem turnStopped_onThread [Inhabited M] (h : TurnStopped st s thread st')
    (htasks : ∀ task ∈ st.tasks, ∃ expected blocks, task = .turn thread.entity expected blocks) :
    st'.OnThread thread.entity := by
  cases h with
  | discarded s' hq hthread => exact ⟨⟨s', thread, rfl, hthread, rfl⟩, htasks⟩
  | flushed s' hq hthread st' hf =>
    cases hf with
    | nothing hm => exact ⟨⟨_, thread, rfl, hthread, rfl⟩, htasks⟩
    | started hm =>
      obtain ⟨thread', ht', he'⟩ := declineWaiting_thread
        (s := ({ s' with pendingMessages := [] } : SolutionSession M X)) hthread
      exact ⟨⟨_, thread', rfl, ht', he'⟩, OnThread.snoc htasks _ _⟩

theorem step_onThread [Inhabited M] {a : StoreAction M X} (h : st.OnThread e) (ha : Awake a)
    (hs : st.step a = some st') : st'.OnThread e := by
  have htasks := h.2
  cases a with
  | send blocks target env =>
    obtain ⟨r, hsent, he⟩ := send_sent st blocks target env
    obtain rfl : st.send blocks target env = st' := some.inj hs
    rw [he]
    exact hsent.onThread h
  | acpEvent event env =>
    obtain ⟨s, thread, hsession, hthread, rfl⟩ := acpEvent_inv hs
    obtain ⟨s₀, thread₀, hs₀, ht₀, he⟩ := h.1
    obtain rfl : s = s₀ := some.inj (hsession.symm.trans hs₀)
    obtain rfl : thread = thread₀ := some.inj (hthread.symm.trans ht₀)
    rcases handleAcpEvent_cases st hthread env event with hstop | ⟨s', thread', heq, -, ht', he'⟩
    · rw [← he] at htasks ⊢
      exact turnStopped_onThread hstop htasks
    · rw [heq]
      exact ⟨⟨s', thread', rfl, ht', he'.trans he⟩, htasks⟩
  | takePendingForDelivery agentId isEndOfTurn =>
    cases hs
    obtain ⟨s, thread, hsession, ht, he⟩ := h.1
    simp only [takePendingForDelivery, hsession]
    split <;> exact ⟨⟨_, thread, rfl, ht, he⟩, htasks⟩
  | cancelTurn =>
    cases hs
    exact h.updateSession fun s => (SolutionSession.cancelTurn_frame s).2
  | interruptAndFlushPending =>
    cases hs
    exact h.updateSession fun s => (SolutionSession.interruptAndFlushPending_frame s).2
  | forceIdle =>
    cases hs
    exact h.updateSession fun s => rfl
  | timer =>
    obtain ⟨s, net, hsession, -, -, rfl⟩ := timer_inv hs
    obtain ⟨s₀, thread, hs₀, ht, he⟩ := h.1
    obtain rfl : s = s₀ := some.inj (hsession.symm.trans hs₀)
    exact ⟨⟨_, thread, rfl, (SolutionSession.fireSafetyNet_frame s net).2.trans ht, he⟩, htasks⟩
  | prompt i =>
    obtain ⟨thread, expected, blocks, htask, -, rfl⟩ := prompt_inv hs
    refine ⟨h.1, fun task hm => ?_⟩
    rcases mem_or_eq_of_mem_set hm with hm | rfl
    · exact htasks task hm
    · obtain ⟨exp', blocks', he⟩ := htasks _ (mem_of_getElem? htask)
      obtain ⟨rfl, -, -⟩ := StoreTask.turn.inj he
      exact ⟨_, _, rfl⟩
  | turnEnded i result =>
    have herase : ∀ task ∈ st.tasks.eraseIdx i, ∃ expected blocks, task = .turn e expected blocks :=
      fun task hm => htasks task (mem_of_mem_eraseIdx hm)
    obtain ⟨thread, expected, htask, -, rfl⟩ | ⟨thread, expected, blocks, err, htask, -, rfl⟩ := turnEnded_inv hs
    · exact ⟨h.1, herase⟩
    · refine ⟨(h.updateSession fun s => ?_).1, herase⟩
      unfold turnError
      split <;> rfl
  | _ => exact ha.elim

/-! ## Moving forward in the line -/

theorem textIds_line (st : SolutionAgentStore M X) (sends : List (Send M X)) :
    textIds sends st.line = textIds sends (st.handed.flatMap Handover.blocks) ++
      (textIds sends st.inFlight.flatten ++ textIds sends (st.queue.flatMap (·.blocks))) := by
  rw [line, textIds_append, textIds_append, append_assoc]

theorem textIds_sublist (sends : List (Send M X)) {c d : List (Piece M X)} (h : c.Sublist d) :
    (textIds sends c).Sublist (textIds sends d) := h.filterMap _

theorem InLine.of_sublist (h : st.InLine) (hl : (textIds st'.sends st'.line).Sublist (textIds st.sends st.line)) :
    st'.InLine := List.Pairwise.sublist hl h

theorem InLine.of_line (h : st.InLine) (hl : st'.line.Sublist st.line) (hs : st'.sends = st.sends) : st'.InLine := by
  refine h.of_sublist ?_
  rw [hs]
  exact textIds_sublist _ hl

theorem InLine.queue (h : st.InLine) : (textIds st.sends (st.queue.flatMap (·.blocks))).Pairwise (· ≤ ·) := by
  unfold InLine at h
  rw [textIds_line, ← append_assoc] at h
  exact (List.pairwise_append.1 h).2.1

theorem line_sublist (hh : st'.handed = st.handed) (hf : st'.inFlight.Sublist st.inFlight)
    (hq : st'.queue.Sublist st.queue) : st'.line.Sublist st.line := by
  unfold line
  rw [hh]
  exact ((Sublist.refl _).append hf.flatten).append (hq.flatMap _)

theorem InLine.same (h : st.InLine) (hh : st'.handed = st.handed) (hf : st'.inFlight = st.inFlight)
    (hq : st'.queue = st.queue) (hs : st'.sends = st.sends) : st'.InLine := by
  unfold InLine line at h ⊢
  rwa [hh, hf, hq, hs]

theorem Routed.line_from (h : st.Routed) : From st.sends (fun _ => True) st.line := by
  refine From.append (From.append ?_ ?_) (From.flatMap fun b hb => (h.queued b hb).imp fun _ _ => trivial)
  · intro p hp
    obtain ⟨d, hd, hpd⟩ := List.mem_flatMap.1 hp
    exact ((h.handed d hd).imp fun _ _ => trivial) p hpd
  · intro p hp
    obtain ⟨c, hc, hpc⟩ := List.mem_flatten.1 hp
    exact ((h.flying c hc).imp fun _ _ => trivial) p hpc

theorem inLine_moreSends (h : st.InLine) (hr : st.Routed) (more : List (Send M X)) :
    InLine { st with sends := st.sends ++ more } := by
  have he : textIds (st.sends ++ more) st.line = textIds st.sends st.line := textIds_mono hr.line_from
  unfold InLine at h ⊢
  rw [← he] at h
  exact h

theorem inFlight_snoc_flatten (tasks : List (StoreTask M X)) (task : StoreTask M X) :
    ((tasks ++ [task]).filterMap StoreTask.blocks).flatten =
      (tasks.filterMap StoreTask.blocks).flatten ++ task.blocks.toList.flatten := by
  rw [filterMap_blocks_snoc, flatten_append]

/-- A new message goes to the end of the line, if the queue is empty when it goes past it. -/
theorem Sent.inLine [Inhabited M] {blocks : List (Piece M X)} {target : QueueTarget} {env : SendEnv}
    {r : SolutionAgentStore M X × SendResult} (hsent : Sent st blocks target env r) (h : st.InLine)
    (hb : (textIds st.sends blocks).Pairwise (· ≤ ·))
    (hlast : ∀ j ∈ textIds st.sends st.line, ∀ i ∈ textIds st.sends blocks, j ≤ i)
    (hqueue : ∀ s, st.session = some s → s.state ≠ .running → target = .main → textIds st.sends blocks ≠ [] →
      textIds st.sends (st.queue.flatMap (·.blocks)) = []) :
    (r.1.noteResult blocks r.2).InLine := by
  have hend : (textIds st.sends st.line ++ textIds st.sends blocks).Pairwise (· ≤ ·) :=
    List.pairwise_append.2 ⟨h, hb, hlast⟩
  have hturn : ∀ s, st.session = some s → s.state ≠ .running → target = .main →
      ∀ task : StoreTask M X, task.blocks = some blocks →
      InLine { st with
        session := some { s.declineWaiting with state := .running }
        tasks := st.tasks ++ [task] } := by
    intro s hs hr ht task htask
    unfold InLine
    rw [textIds_line]
    have hq : queue { st with
        session := some { s.declineWaiting with state := .running }
        tasks := st.tasks ++ [task] } = st.queue := by simp [queue, hs]
    rw [hq]
    simp only [inFlight, inFlight_snoc_flatten, htask, toList_some, flatten_cons, flatten_nil,
      append_nil, textIds_append]
    rw [textIds_line] at hend
    by_cases hnil : textIds st.sends blocks = []
    · simpa [hnil, inFlight] using hend
    · rw [hqueue s hs hr ht hnil] at hend ⊢
      simpa [inFlight] using hend
  cases hsent with
  | unknown hs => exact h
  | empty s hs he => exact h
  | queued s hs he hr =>
    unfold InLine
    rw [textIds_line]
    have hq : (({ st with session := some (s.declineWaiting.enqueue blocks target env.now) } :
        SolutionAgentStore M X).noteResult blocks (.ready (.ok ()))).queue =
        SolutionSession.enqueued st.queue (Piece.ofText (queueTimestampPrefix env.now) :: blocks) target := by
      simp [noteResult, queue, hs, SolutionSession.enqueue]
    rw [hq, textIds_enqueued]
    rw [textIds_line] at hend
    simpa [noteResult, inFlight] using hend
  | dropped s id hs he hr ht =>
    refine h.same rfl rfl ?_ rfl
    simp [noteResult, queue, hs]
  | stuck s err hs he hr ht hthread =>
    refine h.same rfl rfl ?_ rfl
    simp [noteResult, queue, hs]
  | woken s hs he hr ht hthread => exact hturn s hs hr ht _ rfl
  | started s thread hs he hr ht hthread => exact hturn s hs hr ht _ rfl

theorem turnStopped_inLine [Inhabited M]
    (h : TurnStopped st s thread st') (hs : st.queue = s.pendingMessages) (hl : st.InLine) : st'.InLine := by
  cases h with
  | discarded s' hq hthread =>
    refine hl.of_line (line_sublist rfl (Sublist.refl _) ?_) rfl
    simp [queue, hq]
  | flushed s' hq hthread st' hf =>
    cases hf with
    | nothing hm =>
      refine hl.of_line (line_sublist rfl (Sublist.refl _) ?_) rfl
      simp [queue]
    | started hm =>
      -- the blocks for the main agent were the queue, and are the last turn now
      refine hl.of_sublist ?_
      rw [textIds_line, textIds_line]
      have hq' : (mainBlocks s'.pendingMessages).Sublist (st.queue.flatMap (·.blocks)) := by
        rw [hs, ← hq]
        exact (filter_sublist (p := fun b : PendingBundle M X => b.target = .main)).flatMap _
      simp only [inFlight, inFlight_snoc_flatten, StoreTask.blocks, toList_some, flatten_cons,
        flatten_nil, append_nil, textIds_append, textIds_cons_ofText]
      have hsub := (Sublist.refl (textIds st.sends (st.handed.flatMap Handover.blocks))).append
        ((Sublist.refl (textIds st.sends st.inFlight.flatten)).append (textIds_sublist st.sends hq'))
      simpa [queue, inFlight] using hsub

theorem pair_sublist {α : Type} {l : List α} {a b : α} (ha : a ∈ l) (hb : b ∈ l) (hne : a ≠ b) :
    [a, b].Sublist l ∨ [b, a].Sublist l := by
  induction l with
  | nil => exact nomatch ha
  | cons x xs ih =>
    rcases List.mem_cons.1 ha with rfl | ha'
    · rcases List.mem_cons.1 hb with rfl | hb'
      · exact absurd rfl hne
      · exact .inl (Sublist.cons_cons _ (List.singleton_sublist.2 hb'))
    · rcases List.mem_cons.1 hb with rfl | hb'
      · exact .inr (Sublist.cons_cons _ (List.singleton_sublist.2 ha'))
      · rcases ih ha' hb' with h | h
        · exact .inl (h.cons _)
        · exact .inr (h.cons _)

/-- Bundles are taken from the queue to the front of the line: nothing else is on its way,
and none that stays came earlier. -/
theorem drain_inLine (hl : st.InLine) {taken kept : List (PendingBundle M X)} (ht : taken.Sublist st.queue)
    (hk : kept.Sublist st.queue)
    (hfree : textIds st.sends (taken.flatMap (·.blocks)) ≠ [] → textIds st.sends st.inFlight.flatten = [] ∧
      ∀ b ∈ taken, ∀ k ∈ kept, ∀ i ∈ textIds st.sends b.blocks, ∀ j ∈ textIds st.sends k.blocks, i ≤ j) :
    (textIds st.sends (st.handed.flatMap Handover.blocks) ++ (textIds st.sends (taken.flatMap (·.blocks)) ++
      (textIds st.sends st.inFlight.flatten ++ textIds st.sends (kept.flatMap (·.blocks))))).Pairwise (· ≤ ·) := by
  unfold InLine at hl
  rw [textIds_line] at hl
  have htq : (textIds st.sends (taken.flatMap (·.blocks))).Sublist (textIds st.sends (st.queue.flatMap (·.blocks))) :=
    textIds_sublist _ (ht.flatMap _)
  have hkq : (textIds st.sends (kept.flatMap (·.blocks))).Sublist (textIds st.sends (st.queue.flatMap (·.blocks))) :=
    textIds_sublist _ (hk.flatMap _)
  by_cases hnil : textIds st.sends (taken.flatMap (·.blocks)) = []
  · rw [hnil, nil_append]
    exact hl.sublist ((Sublist.refl _).append ((Sublist.refl _).append hkq))
  · obtain ⟨hf, hcross⟩ := hfree hnil
    rw [hf, nil_append] at hl ⊢
    obtain ⟨hh, hq, hhq⟩ := List.pairwise_append.1 hl
    refine List.pairwise_append.2 ⟨hh, List.pairwise_append.2 ⟨hq.sublist htq, hq.sublist hkq, ?_⟩, ?_⟩
    · intro i hi j hj
      obtain ⟨⟨p, hp, hpi⟩, hti⟩ := mem_textIds.1 hi
      obtain ⟨⟨q, hq, hqj⟩, htj⟩ := mem_textIds.1 hj
      obtain ⟨b, hb, hpb⟩ := List.mem_flatMap.1 hp
      obtain ⟨k, hk, hqk⟩ := List.mem_flatMap.1 hq
      exact hcross b hb k hk i (mem_textIds.2 ⟨⟨p, hpb, hpi⟩, hti⟩) j (mem_textIds.2 ⟨⟨q, hqk, hqj⟩, htj⟩)
    · intro i hi j hj
      rcases List.mem_append.1 hj with hj | hj
      · exact hhq i hi j (htq.subset hj)
      · exact hhq i hi j (hkq.subset hj)

theorem takePendingForDelivery_inLine (hl : st.InLine) (hr : st.Routed) (agentId : Option AgentId)
    (isEndOfTurn : Bool) (ho : ¬ st.Overtakes (.takePendingForDelivery agentId isEndOfTurn)) :
    (st.takePendingForDelivery agentId isEndOfTurn).1.InLine := by
  simp only [takePendingForDelivery]
  split
  case h_1 => exact hl
  case h_2 s hs =>
    have hq := queue_of_session hs
    have hkept : (s.pendingMessages.filter fun b => !SolutionSession.drains agentId b).Sublist st.queue := by
      rw [hq]
      exact filter_sublist
    split
    · exact hl.of_line (line_sublist rfl (Sublist.refl _) hkept) rfl
    · have htaken : (s.pendingMessages.filter (SolutionSession.drains agentId)).Sublist st.queue := by
        rw [hq]
        exact filter_sublist
      have hdrain := drain_inLine hl htaken hkept ?_
      · unfold InLine
        rw [textIds_line]
        simpa [queue, inFlight, Handover.blocks] using hdrain
      -- what a hook takes of text messages for the main agent, the hook of the main agent takes
      intro hne
      obtain ⟨i, hi⟩ := exists_mem_of_ne_nil _ hne
      obtain ⟨⟨p, hp, hpi⟩, hti⟩ := mem_textIds.1 hi
      obtain ⟨b₀, hb₀, hpb₀⟩ := List.mem_flatMap.1 hp
      obtain ⟨hm₀, hd₀⟩ := List.mem_filter.1 hb₀
      rw [← hq] at hm₀
      have hagent : agentId = none := by
        obtain ⟨s', hs', ht'⟩ := hr.queued b₀ hm₀ p hpb₀ i hpi
        have hmain : s'.target = .main := by
          have := hti
          simp only [isMainText, hs', Bool.and_eq_true, decide_eq_true_eq] at this
          exact this.1
        have hmatch : b₀.target.matchesHook agentId = true := (Bool.and_eq_true_iff.1 hd₀).1
        rw [← ht', hmain] at hmatch
        cases agentId with
        | none => rfl
        | some id => simp [QueueTarget.matchesHook] at hmatch
      subst hagent
      have htext : ∀ {b : PendingBundle M X} {j : Nat}, j ∈ textIds st.sends b.blocks → st.HoldsText b.blocks :=
        fun hj hn => by simp [hn] at hj
      have hi₀ : i ∈ textIds st.sends b₀.blocks := mem_textIds.2 ⟨⟨p, hpb₀, hpi⟩, hti⟩
      constructor
      · refine List.eq_nil_iff_forall_not_mem.2 fun j hj => ho ⟨b₀, hm₀, hd₀, htext hi₀, .inl ?_⟩
        obtain ⟨⟨q, hq, hqj⟩, htj⟩ := mem_textIds.1 hj
        obtain ⟨c, hc, hqc⟩ := List.mem_flatten.1 hq
        have hjc : j ∈ textIds st.sends c := mem_textIds.2 ⟨⟨q, hqc, hqj⟩, htj⟩
        exact ⟨c, hc, fun hn => by simp [hn] at hjc⟩
      · intro b hb k hk i hi j hj
        obtain ⟨hbm, hbd⟩ := List.mem_filter.1 hb
        obtain ⟨hkm, hkd⟩ := List.mem_filter.1 hk
        rw [← hq] at hbm hkm
        have hkd' : SolutionSession.drains none k = false := by simpa using hkd
        have hne : b ≠ k := by
          rintro rfl
          simp [hbd] at hkd'
        rcases pair_sublist hbm hkm hne with hsub | hsub
        · -- the bundle that is taken came first
          have hids := textIds_sublist st.sends (hsub.flatMap (·.blocks))
          have hpair := hl.queue.sublist hids
          simp only [flatMap_cons, flatMap_nil, append_nil, textIds_append] at hpair
          exact (List.pairwise_append.1 hpair).2.2 i hi j hj
        · exact (ho ⟨b, hbm, hbd, htext hi, .inr ⟨k, hsub, hkd', htext hj⟩⟩).elim

/-- The turns before the one that prompts the agent have done so. -/
theorem filterMap_blocks_take {i : Nat} (h : st.OnThread e)
    (hw : (st.tasks.take i).any (StoreTask.waitsOn e) = false) :
    (st.tasks.take i).filterMap StoreTask.blocks = [] := by
  refine List.filterMap_eq_nil_iff.2 fun task hm => ?_
  obtain ⟨expected, blocks, rfl⟩ := h.2 task (mem_of_mem_take hm)
  have hno : StoreTask.waitsOn e (StoreTask.turn e expected blocks) = false := by
    by_contra hyes
    rw [List.any_eq_false] at hw
    exact hw _ hm (by simpa using hyes)
  cases blocks with
  | none => rfl
  | some bs => simp [StoreTask.waitsOn] at hno

theorem prompt_inLine {i : Nat} (hl : st.InLine) (h : st.OnThread e) (hs : st.prompt i = some st') : st'.InLine := by
  obtain ⟨thread, expected, blocks, htask, hw, rfl⟩ := prompt_inv hs
  obtain ⟨hi, hget⟩ := List.getElem?_eq_some_iff.1 htask
  obtain ⟨exp', blocks', he⟩ := h.2 _ (mem_of_getElem? htask)
  obtain ⟨rfl, -, -⟩ := StoreTask.turn.inj he
  have hbefore := filterMap_blocks_take h hw
  have hsplit : st.tasks = st.tasks.take i ++ .turn thread expected (some blocks) :: st.tasks.drop (i + 1) := by
    rw [← hget, ← drop_eq_getElem_cons hi, take_append_drop]
  have hold : st.inFlight = blocks :: (st.tasks.drop (i + 1)).filterMap StoreTask.blocks := by
    unfold inFlight
    conv_lhs => rw [hsplit]
    rw [filterMap_append, hbefore, nil_append]
    exact filterMap_cons_some rfl
  have hnew : (st.tasks.set i (.turn thread expected none)).filterMap StoreTask.blocks =
      (st.tasks.drop (i + 1)).filterMap StoreTask.blocks := by
    rw [set_eq_take_append_cons_drop, if_pos hi, filterMap_append, hbefore, nil_append]
    exact filterMap_cons_none rfl
  refine hl.of_line ?_ rfl
  unfold line
  rw [hold]
  simp only [inFlight, hnew, queue, flatMap_append, flatMap_cons, flatMap_nil, Handover.blocks,
    append_nil, flatten_cons, append_assoc]
  exact Sublist.refl _

/-- **A step that lets no message overtake another keeps the line in order.** -/
theorem step_inLine [Inhabited M] {a : StoreAction M X} (hl : st.InLine) (hr : st.Routed)
    (ht : st.OnThread e) (ha : Awake a) (ho : ¬ st.Overtakes a) (hs : st.step a = some st') : st'.InLine := by
  have hup : ∀ {f : SolutionSession M X → SolutionSession M X}, (∀ s, (f s).pendingMessages = s.pendingMessages) →
      (st.updateSession f).InLine := fun hf => hl.same rfl rfl (queue_updateSession hf st) rfl
  cases a with
  | send blocks target env =>
    obtain ⟨r, hsent, he⟩ := send_sent st blocks target env
    obtain rfl : st.send blocks target env = st' := some.inj hs
    rw [he]
    refine hsent.inLine (inLine_moreSends hl hr _) ?_ ?_ ?_
    · refine pairwise_of_forall_mem_list fun i hi j hj => ?_
      rw [mem_textIds_piecesOf hi, mem_textIds_piecesOf hj]
    · intro j hj i hi
      have hj' : j ∈ textIds st.sends st.line := textIds_mono hr.line_from ▸ hj
      rw [mem_textIds_piecesOf hi]
      exact le_of_lt (textIds_lt hj')
    · intro s hsession hrun htarget hne
      refine List.eq_nil_iff_forall_not_mem.2 fun j hj => ho ?_
      have hj' : j ∈ textIds st.sends (st.queue.flatMap (·.blocks)) := by
        have hq : From st.sends (fun _ => True) (st.queue.flatMap (·.blocks)) :=
          From.flatMap fun b hb => (hr.queued b hb).imp fun _ _ => trivial
        exact textIds_mono hq ▸ hj
      obtain ⟨⟨p, hp, hpj⟩, htj⟩ := mem_textIds.1 hj'
      obtain ⟨b, hb, hpb⟩ := List.mem_flatMap.1 hp
      have hjb : j ∈ textIds st.sends b.blocks := mem_textIds.2 ⟨⟨p, hpb, hpj⟩, htj⟩
      refine ⟨htarget, ?_, ⟨s, hsession, hrun⟩, b, hb, fun hn => by simp [hn] at hjb⟩
      -- the message counts, so it is all text
      obtain ⟨i, hi⟩ := exists_mem_of_ne_nil _ hne
      have htext := (mem_textIds.1 hi).2
      rw [mem_textIds_piecesOf hi] at htext
      simpa [isMainText, htarget] using htext
  | acpEvent event env =>
    obtain ⟨s, thread, hsession, hthread, rfl⟩ := acpEvent_inv hs
    rcases handleAcpEvent_cases st hthread env event with hstop | ⟨s', thread', he, hq, -, -⟩
    · exact turnStopped_inLine hstop (queue_of_session hsession) hl
    · rw [he]
      refine hl.same rfl rfl ?_ rfl
      rw [queue_of_session hsession, ← hq]
      rfl
  | takePendingForDelivery agentId isEndOfTurn =>
    cases hs
    exact takePendingForDelivery_inLine hl hr agentId isEndOfTurn ho
  | cancelTurn =>
    cases hs
    exact hup fun s => (SolutionSession.cancelTurn_frame s).1
  | interruptAndFlushPending =>
    cases hs
    exact hup fun s => (SolutionSession.interruptAndFlushPending_frame s).1
  | forceIdle =>
    cases hs
    exact hup fun s => rfl
  | timer =>
    obtain ⟨s, net, hsession, -, -, rfl⟩ := timer_inv hs
    refine hl.same rfl rfl ?_ rfl
    rw [queue_of_session hsession]
    exact (SolutionSession.fireSafetyNet_frame s net).1
  | prompt i => exact prompt_inLine hl ht hs
  | turnEnded i result =>
    have herase : ((st.tasks.eraseIdx i).filterMap StoreTask.blocks).Sublist st.inFlight :=
      (eraseIdx_sublist ..).filterMap _
    obtain ⟨thread, expected, htask, -, rfl⟩ | ⟨thread, expected, blocks, err, htask, -, rfl⟩ := turnEnded_inv hs
    · exact hl.of_line (line_sublist rfl herase (Sublist.refl _)) rfl
    · have hupdated : (st.updateSession fun s => turnError s expected err).InLine := by
        refine hup fun s => ?_
        unfold turnError
        split <;> rfl
      exact hupdated.of_line (line_sublist rfl herase (Sublist.refl _)) rfl
  | _ => exact ha.elim

/-- A run of a session that stays awake in which no step lets a message overtake another. -/
def ReachesInTurn [Inhabited M] (st : SolutionAgentStore M X) (actions : List (StoreAction M X))
    (st' : SolutionAgentStore M X) : Prop :=
  Run (fun x a y => step x a = some y ∧ Awake a ∧ ¬ x.Overtakes a) st actions st'

/-- **In a run of a live session in which no step lets a message overtake another, the
agent is given the text messages for it in the order they were sent.** -/
theorem follow_up_order [Inhabited M] {id : AcpSessionId} {thread : AcpThread} {actions : List (StoreAction M X)}
    (hrun : (init id (some thread)).ReachesInTurn actions st) : st.FirstInFirstOut := by
  have hinv := Run.keeps
    (I := fun st => Held Piece.msg st.message st.containers ∧ st.Routed ∧ st.OnThread thread.entity ∧ st.InLine) ?_
    hrun ⟨init_held id _, init_routed id _, ⟨⟨_, thread, rfl, rfl, rfl⟩, fun _ hm => nomatch hm⟩, List.Pairwise.nil⟩
  · exact hinv.2.2.2.firstInFirstOut
  · rintro x a y ⟨hheld, hrouted, hthread, hline⟩ ⟨hstep, hawake, hover⟩
    exact ⟨step_held hheld hstep, step_routed hrouted hheld hstep, step_onThread hthread hawake hstep,
      step_inLine hline hrouted hthread hawake hover hstep⟩

/-- A message comes while a turn runs, and is delivered at the end of it. -/
theorem follow_up_order_flushed : ∃ st : SolutionAgentStore Unit Unit,
      (init [] (some ⟨0, [], []⟩)).ReachesInTurn [sendText ['a'] .main, .prompt 0, sendText ['b'] .main,
        .acpEvent (.stopped .endTurn) ⟨⟨0, 0, 0⟩, true, none⟩, .prompt 1] st ∧
      textIds st.sends (st.handed.flatMap Handover.blocks) = [0, 1] ∧ st.FirstInFirstOut := by
  obtain ⟨st, hrun, hids⟩ : ∃ st : SolutionAgentStore Unit Unit,
      (init [] (some ⟨0, [], []⟩)).ReachesInTurn [sendText ['a'] .main, .prompt 0, sendText ['b'] .main,
        .acpEvent (.stopped .endTurn) ⟨⟨0, 0, 0⟩, true, none⟩, .prompt 1] st ∧
      textIds st.sends (st.handed.flatMap Handover.blocks) = [0, 1] := by
    refine ⟨_, .cons ⟨rfl, trivial, ?_⟩ (.cons ⟨rfl, trivial, id⟩ (.cons ⟨rfl, trivial, ?_⟩
      (.cons ⟨rfl, trivial, id⟩ (.cons ⟨rfl, trivial, id⟩ .nil)))), rfl⟩
    · rintro ⟨-, -, -, b, hb, -⟩
      exact nomatch hb
    · rintro ⟨-, -, ⟨s, hs, hr⟩, -⟩
      cases hs
      exact hr rfl
  exact ⟨st, hrun, hids, follow_up_order hrun⟩

/-- The turn fails while a message is queued. The next message goes to the agent at once,
and the queued one after it, at the end of that turn. -/
theorem follow_up_overtaken : ∃ st : SolutionAgentStore Unit Unit,
      (init [] (some ⟨0, [], []⟩)).Reaches [sendText ['a'] .main, .prompt 0, sendText ['b'] .main,
        .acpEvent .error ⟨⟨0, 0, 0⟩, true, none⟩, sendText ['c'] .main, .prompt 1,
        .acpEvent (.stopped .endTurn) ⟨⟨0, 0, 0⟩, true, none⟩, .prompt 2] st ∧
      textIds st.sends (st.handed.flatMap Handover.blocks) = [0, 2, 1] ∧ ¬ st.FirstInFirstOut := by
  obtain ⟨st, hrun, hids⟩ : ∃ st : SolutionAgentStore Unit Unit,
      (init [] (some ⟨0, [], []⟩)).Reaches [sendText ['a'] .main, .prompt 0, sendText ['b'] .main,
        .acpEvent .error ⟨⟨0, 0, 0⟩, true, none⟩, sendText ['c'] .main, .prompt 1,
        .acpEvent (.stopped .endTurn) ⟨⟨0, 0, 0⟩, true, none⟩, .prompt 2] st ∧
      textIds st.sends (st.handed.flatMap Handover.blocks) = [0, 2, 1] :=
    ⟨_, .cons rfl (.cons rfl (.cons rfl (.cons rfl (.cons rfl (.cons rfl (.cons rfl (.cons rfl .nil))))))), rfl⟩
  refine ⟨st, hrun, hids, fun h => ?_⟩
  rw [FirstInFirstOut, hids] at h
  exact absurd h (by decide)

end SolutionAgentStore

end SpkEditor
