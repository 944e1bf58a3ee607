import SpkEditor.Agent.QueueSteps
import Mathlib.Data.List.Perm.Basic

/-!
# The flag that keeps the queue

`flush_after_cancel` says that the turn which is running was interrupted to deliver the queue,
so its `Stopped(Cancelled)` is no reason to throw the queue away. It is meant for one turn. The
end of a turn clears it, but a turn can end without a `Stopped`, and the flag can be set while no
turn is running or by the very send that starts one. What matters is that no turn starts under
the flag: `flush_one_shot_iff` says that this is all that can go wrong, and when it does.
-/

namespace SpkEditor

open List Option

variable {M X : Type}

variable {st₀ : SolutionAgentStore M X} {s : SolutionSession M X}

/-- A tool call waits that a send would decline. -/
def SolutionSession.Declines (s : SolutionSession M X) : Prop :=
  ∃ thread, s.acpThread = some thread ∧ (pendingAuthorizationReject thread).isSome = true

def StoreTask.isTurn : StoreTask M X → Bool
  | .turn .. => true
  | _ => false

namespace SolutionAgentStore

def FlagUp (st : SolutionAgentStore M X) : Prop :=
  ∃ s, st.session = some s ∧ s.flushAfterCancel = true

def turnCount (st : SolutionAgentStore M X) : Nat := st.tasks.countP StoreTask.isTurn

def StartsTurn (st st' : SolutionAgentStore M X) : Prop := st.turnCount < st'.turnCount

/-- A message for the main agent meets a session in which no turn is running, and the flag is
up or about to be set for a call that is declined. -/
def SendsFlagged (st : SolutionAgentStore M X) {β : Type} (blocks : List β) : Prop :=
  ∃ s, st.session = some s ∧ blocks ≠ [] ∧ s.state ≠ .running ∧ s.acpThread.isSome = true ∧
    (s.flushAfterCancel = true ∨ s.Declines)

/-- A message meets a call that it declines. -/
def SendDeclines (st : SolutionAgentStore M X) {β : Type} (blocks : List β) : Prop :=
  ∃ s, st.session = some s ∧ blocks ≠ [] ∧ s.Declines

/-- The end of a turn delivers the queue while a call waits that is declined. -/
def FlushDeclines (st : SolutionAgentStore M X) (reason : StopReason) : Prop :=
  ∃ s, st.session = some s ∧ (reason = .cancelled → s.flushAfterCancel = true) ∧
    mainBlocks s.pendingMessages ≠ [] ∧ s.Declines

/-- The step has a turn start under the flag. -/
def StartsFlagged (st : SolutionAgentStore M X) : StoreAction M X → Prop
  | .send blocks target _ => target = .main ∧ st.SendsFlagged blocks
  | .reenter i _ => ∃ blocks, st.tasks[i]? = some (.reenter blocks) ∧ st.SendsFlagged blocks
  | .acpEvent (.stopped reason) _ => st.FlushDeclines reason
  | _ => False

/-- The step asks for the queue to be kept: it interrupts the turn, or declines a waiting call. -/
def Requests (st : SolutionAgentStore M X) : StoreAction M X → Prop
  | .interruptAndFlushPending => ∃ s, st.session = some s ∧ s.pendingMessages ≠ []
  | .send blocks _ _ => st.SendDeclines blocks
  | .reenter i _ => ∃ blocks, st.tasks[i]? = some (.reenter blocks) ∧ st.SendDeclines blocks
  | .acpEvent (.stopped reason) _ => st.FlushDeclines reason
  | _ => False

/-- There is a queue, and the step does not throw it away. -/
def KeepsQueue (st st' : SolutionAgentStore M X) : Prop :=
  (∃ s, st.session = some s ∧ s.pendingMessages ≠ []) ∧ st'.discarded = st.discarded

/-- The run up to here has a request and after it no start of a turn. -/
inductive RequestedSince [Inhabited M] (st₀ : SolutionAgentStore M X) :
    List (StoreAction M X) → SolutionAgentStore M X → Prop where
  | request {before : List (StoreAction M X)} {a : StoreAction M X} {st st' : SolutionAgentStore M X}
      (hrun : Reaches st₀ before st) (hstep : st.step a = some st') (hreq : st.Requests a)
      (hturn : ¬StartsTurn st st') : RequestedSince st₀ (before ++ [a]) st'
  | later {before : List (StoreAction M X)} {a : StoreAction M X} {st st' : SolutionAgentStore M X}
      (h : RequestedSince st₀ before st) (hstep : st.step a = some st') (hturn : ¬StartsTurn st st') :
      RequestedSince st₀ (before ++ [a]) st'

/-- **The flag is for one turn**: none starts under it, and a cancelled turn leaves the queue only
if that was asked for since the last turn has started. -/
def OneShot [Inhabited M] (st₀ : SolutionAgentStore M X) (actions : List (StoreAction M X)) : Prop :=
  ∀ before a after st st', actions = before ++ a :: after → Reaches st₀ before st → st.step a = some st' →
    (StartsTurn st st' → ¬FlagUp st') ∧
      ∀ env, a = .acpEvent (.stopped .cancelled) env → KeepsQueue st st' → RequestedSince st₀ before st

end SolutionAgentStore

namespace SolutionSession

variable {s : SolutionSession M X}

theorem declineWaiting_flag :
    s.declineWaiting.flushAfterCancel = true ↔ s.flushAfterCancel = true ∨ s.Declines := by
  unfold declineWaiting Declines
  cases ht : s.acpThread with
  | none => simp
  | some thread => cases hc : pendingAuthorizationReject thread <;> simp [hc]

theorem cancelTurn_flag (s : SolutionSession M X) : s.cancelTurn.1.flushAfterCancel = s.flushAfterCancel := by
  unfold cancelTurn
  split
  case isFalse => rfl
  case isTrue =>
    split
    · rfl
    · unfold armStoppingSafetyNet
      split <;> rfl

theorem fireSafetyNet_flag (s : SolutionSession M X) (net : SafetyNet) :
    (s.fireSafetyNet net).flushAfterCancel = s.flushAfterCancel := by
  unfold fireSafetyNet
  split <;> rfl

end SolutionSession

namespace SolutionAgentStore

variable {st st' : SolutionAgentStore M X} {a : StoreAction M X}

theorem turnCount_eraseIdx {i : Nat} {task : StoreTask M X} (h : st.tasks[i]? = some task) :
    st.turnCount = (st.tasks.eraseIdx i).countP StoreTask.isTurn + if task.isTurn then 1 else 0 := by
  obtain ⟨hi, rfl⟩ := List.getElem?_eq_some_iff.1 h
  have hperm := (getElem_cons_eraseIdx_perm hi).countP_eq StoreTask.isTurn
  rw [turnCount, ← hperm, countP_cons]

theorem countP_eraseIdx_le (l : List (StoreTask M X)) (i : Nat) :
    (l.eraseIdx i).countP StoreTask.isTurn ≤ l.countP StoreTask.isTurn :=
  (eraseIdx_sublist ..).countP_le

theorem turnCount_snoc_turn {thread : Nat} {expected : AcpSessionId} {blocks : Option (List (Piece M X))} :
    (st.tasks ++ [StoreTask.turn thread expected blocks]).countP StoreTask.isTurn = st.turnCount + 1 := by
  rw [countP_append]
  rfl

/-! ## What a step does to the flag -/

/-- A step that starts a turn does so under the flag in the one case; and the flag comes from
before the step or from a request in it. -/
structure FlagStep (st : SolutionAgentStore M X) (a : StoreAction M X) (st' : SolutionAgentStore M X) : Prop where
  starts : StartsTurn st st' ∧ FlagUp st' ↔ st.StartsFlagged a
  raises : FlagUp st' → FlagUp st ∨ st.Requests a

theorem FlagStep.quiet (hturn : st'.turnCount ≤ st.turnCount) (hno : ¬st.StartsFlagged a)
    (hraises : FlagUp st' → FlagUp st ∨ st.Requests a) : FlagStep st a st' :=
  ⟨⟨fun h => absurd h.1 (Nat.not_lt.mpr hturn), fun h => absurd h hno⟩, hraises⟩

theorem flagUp_of_session (he : st'.session = st.session) (h : FlagUp st') : FlagUp st := by
  obtain ⟨s, hs, hf⟩ := h
  exact ⟨s, he ▸ hs, hf⟩

theorem flagUp_of_update {f : SolutionSession M X → SolutionSession M X}
    (hf : ∀ s, (f s).flushAfterCancel = true → s.flushAfterCancel = true) (h : FlagUp (st.updateSession f)) :
    FlagUp st := by
  obtain ⟨s, hs, hup⟩ := h
  obtain ⟨s₀, hs₀, rfl⟩ := Option.map_eq_some_iff.1 hs
  exact ⟨s₀, hs₀, hf s₀ hup⟩

theorem flagUp_some (hs : st.session = some s) : FlagUp st ↔ s.flushAfterCancel = true :=
  ⟨fun ⟨t, ht, h⟩ => by obtain rfl := some.inj (hs.symm.trans ht); exact h, fun h => ⟨s, hs, h⟩⟩

theorem Sent.flag [Inhabited M] {blocks : List (Piece M X)} {target : QueueTarget} {env : SendEnv}
    {r : SolutionAgentStore M X × SendResult} (hsent : Sent st blocks target env r) :
    (StartsTurn st r.1 ∧ FlagUp r.1 ↔ target = .main ∧ st.SendsFlagged blocks) ∧
      (FlagUp r.1 → FlagUp st ∨ st.SendDeclines blocks) := by
  -- the flag is up after the send if it was before, or if the send declines a call
  have hup : ∀ {s s' : SolutionSession M X} {st' : SolutionAgentStore M X}, st.session = some s → blocks ≠ [] →
      st'.session = some s' → s'.flushAfterCancel = s.declineWaiting.flushAfterCancel → FlagUp st' →
      FlagUp st ∨ st.SendDeclines blocks := by
    intro s s' st' hs hb hs' hflag h
    rw [flagUp_some hs', hflag, SolutionSession.declineWaiting_flag] at h
    exact h.imp (fun h => ⟨s, hs, h⟩) (fun h => ⟨s, hs, hb, h⟩)
  -- no turn starts
  have hquiet : ∀ {st' : SolutionAgentStore M X}, st'.turnCount = st.turnCount →
      (target = .main → ¬st.SendsFlagged blocks) →
      (StartsTurn st st' ∧ FlagUp st' ↔ target = .main ∧ st.SendsFlagged blocks) := by
    intro st' he hno
    exact ⟨fun h => absurd h.1 (by rw [StartsTurn, he]; exact lt_irrefl _), fun h => absurd h.2 (hno h.1)⟩
  cases hsent with
  | unknown hs =>
    refine ⟨hquiet rfl ?_, .inl⟩
    rintro - ⟨s, he, -⟩
    exact nomatch hs.symm.trans he
  | empty s hs hb =>
    refine ⟨hquiet rfl ?_, .inl⟩
    rintro - ⟨s', -, hne, -⟩
    exact hne hb
  | queued s hs hb hr =>
    refine ⟨hquiet rfl ?_, hup hs hb rfl rfl⟩
    rintro - ⟨s', he, -, hne, -⟩
    obtain rfl := some.inj (hs.symm.trans he)
    exact hne hr
  | dropped s id hs hb hr ht => exact ⟨hquiet rfl (fun hm => nomatch ht.symm.trans hm), hup hs hb rfl rfl⟩
  | stuck s err hs hb hr ht hthread =>
    refine ⟨hquiet rfl ?_, hup hs hb rfl rfl⟩
    rintro - ⟨s', he, -, -, hsome, -⟩
    obtain rfl := some.inj (hs.symm.trans he)
    rw [hthread] at hsome
    exact nomatch hsome
  | woken s hs hb hr ht hthread =>
    refine ⟨hquiet ?_ ?_, hup hs hb rfl rfl⟩
    · show (st.tasks ++ [_]).countP _ = _
      rw [countP_append]
      rfl
    · rintro - ⟨s', he, -, -, hsome, -⟩
      obtain rfl := some.inj (hs.symm.trans he)
      rw [hthread] at hsome
      exact nomatch hsome
  | started s thread hs hb hr ht hthread =>
    refine ⟨?_, hup hs hb rfl rfl⟩
    rw [flagUp_some rfl]
    rw [SolutionSession.declineWaiting_flag]
    constructor
    · rintro ⟨-, h⟩
      exact ⟨ht, s, hs, hb, hr, by rw [hthread]; rfl, h⟩
    · rintro ⟨-, s', he, -, -, -, h⟩
      obtain rfl := some.inj (hs.symm.trans he)
      refine ⟨?_, h⟩
      show st.turnCount < (st.tasks ++ [_]).countP _
      rw [turnCount_snoc_turn]
      exact Nat.lt_succ_self _

theorem handleStopped_discards [Inhabited M] {reason : StopReason} (env : SendEnv)
    (h : reason = .cancelled ∧ s.flushAfterCancel = false) :
    st.handleStopped s reason env = { st with
        session := some { s.mutateState fun _ => .idle with flushAfterCancel := false, pendingMessages := [] }
        discarded := st.discarded ++ s.pendingMessages.map (·.blocks) } := if_pos h

theorem handleStopped_flushes [Inhabited M] {reason : StopReason} (env : SendEnv)
    (h : ¬(reason = .cancelled ∧ s.flushAfterCancel = false)) :
    st.handleStopped s reason env =
      st.flush { s.mutateState fun _ => .idle with flushAfterCancel := false } env := if_neg h

/-- **The end of a turn** clears the flag; the send that follows may set it again. -/
theorem handleStopped_flag [Inhabited M] {thread : AcpThread} (hs : st.session = some s)
    (hthread : s.acpThread = some thread) (reason : StopReason) (env : SendEnv) :
    (StartsTurn st (st.handleStopped s reason env) ∧ FlagUp (st.handleStopped s reason env) ↔
        st.FlushDeclines reason) ∧
      (FlagUp (st.handleStopped s reason env) → st.FlushDeclines reason) ∧
      (reason = .cancelled → KeepsQueue st (st.handleStopped s reason env) → FlagUp st) := by
  have hflush : st.FlushDeclines reason ↔ (reason = .cancelled → s.flushAfterCancel = true) ∧
      mainBlocks s.pendingMessages ≠ [] ∧ s.Declines := by
    constructor
    · rintro ⟨s', he, h⟩
      obtain rfl := some.inj (hs.symm.trans he)
      exact h
    · exact fun h => ⟨s, hs, h⟩
  rw [hflush, flagUp_some hs]
  by_cases hdrop : reason = .cancelled ∧ s.flushAfterCancel = false
  · have hdown : ¬(reason = .cancelled → s.flushAfterCancel = true) := by
      rw [hdrop.2]
      exact fun h => nomatch h hdrop.1
    rw [handleStopped_discards env hdrop]
    refine ⟨⟨fun h => absurd h.1 (lt_irrefl _), fun h => absurd h.1 hdown⟩,
      fun ⟨t, ht, h⟩ => ?_, fun _ hkeep => ?_⟩
    · cases ht
      exact nomatch h
    · -- the bundles of the queue went to what is discarded
      obtain ⟨⟨t, ht, hne⟩, hsame⟩ := hkeep
      obtain rfl := some.inj (hs.symm.trans ht)
      have hnil : s.pendingMessages.map (·.blocks) = [] := List.append_right_eq_self.mp hsame
      exact absurd (List.map_eq_nil_iff.mp hnil) hne
  · have hup : reason = .cancelled → s.flushAfterCancel = true := fun hc => by
      rw [← Bool.not_eq_false]
      exact fun hf => hdrop ⟨hc, hf⟩
    rw [handleStopped_flushes env hdrop]
    have hkeep : (reason = .cancelled → s.flushAfterCancel = true) ∧ mainBlocks s.pendingMessages ≠ [] ∧
          s.Declines ↔ mainBlocks s.pendingMessages ≠ [] ∧ s.Declines :=
      ⟨fun h => h.2, fun h => ⟨hup, h⟩⟩
    rw [hkeep]
    have hf := flushed st (s := { s.mutateState fun _ => .idle with flushAfterCancel := false }) hthread
      (fun he => nomatch he) env
    generalize st.flush { s.mutateState fun _ => .idle with flushAfterCancel := false } env = st₁ at hf ⊢
    refine ⟨?_, ?_, fun hc _ => hup hc⟩
    · cases hf with
      | nothing hm => exact ⟨fun h => absurd h.1 (lt_irrefl _), fun h => absurd hm h.1⟩
      | started hm =>
        rw [flagUp_some rfl]
        rw [SolutionSession.declineWaiting_flag]
        constructor
        · rintro ⟨-, h | h⟩
          · exact nomatch h
          · exact ⟨hm, h⟩
        · rintro ⟨-, h⟩
          refine ⟨?_, .inr h⟩
          show st.turnCount < (st.tasks ++ [_]).countP _
          rw [turnCount_snoc_turn]
          exact Nat.lt_succ_self _
    · intro h
      cases hf with
      | nothing hm =>
        rw [flagUp_some rfl] at h
        exact nomatch h
      | started hm =>
        rw [flagUp_some rfl] at h
        rcases SolutionSession.declineWaiting_flag.mp h with h | h
        · exact nomatch h
        · exact ⟨hm, h⟩

theorem flagStep [Inhabited M] (hs : st.step a = some st') : FlagStep st a st' := by
  cases a with
  | send blocks target env =>
    obtain ⟨r, hsent, he⟩ := send_sent st blocks target env
    obtain rfl : st.send blocks target env = st' := some.inj hs
    have hp : piecesOf st.sends.length blocks ≠ [] ↔ blocks ≠ [] := by simp [piecesOf]
    obtain ⟨hstart, hraise⟩ := Sent.flag hsent
    rw [he]
    have hsession : (r.1.noteResult (piecesOf st.sends.length blocks) r.2).session = r.1.session := by
      unfold noteResult
      split <;> rfl
    have hcount : (r.1.noteResult (piecesOf st.sends.length blocks) r.2).turnCount = r.1.turnCount := by
      unfold noteResult
      split <;> rfl
    have hflag : FlagUp (r.1.noteResult (piecesOf st.sends.length blocks) r.2) ↔ FlagUp r.1 :=
      ⟨flagUp_of_session hsession, flagUp_of_session hsession.symm⟩
    refine ⟨?_, fun h => ?_⟩
    · rw [hflag, StartsTurn, hcount]
      refine hstart.trans ?_
      rw [SendsFlagged, hp]
      rfl
    · refine (hraise (hflag.mp h)).imp id (fun hd => ?_)
      rw [SendDeclines, hp] at hd
      exact hd
  | acpEvent event env =>
    obtain ⟨s, thread, he, hthread, rfl⟩ := acpEvent_inv hs
    have hother : ∀ {st' : SolutionAgentStore M X},
        st'.session.map (·.flushAfterCancel) = some s.flushAfterCancel → FlagUp st' → FlagUp st := by
      rintro st' hf ⟨t, ht, h⟩
      rw [ht] at hf
      exact ⟨s, he, (some.inj hf).symm.trans h⟩
    cases event with
    | stopped reason =>
      obtain ⟨h₁, h₂, -⟩ := handleStopped_flag he hthread reason env
      exact ⟨h₁, fun h => .inr (h₂ h)⟩
    | newEntry => exact .quiet (le_refl _) id fun h => .inl (hother rfl h)
    | error => exact .quiet (le_refl _) id fun h => .inl (hother rfl h)
    | loadError => exact .quiet (le_refl _) id fun h => .inl (hother rfl h)
    | toolAuthorizationRequested call => exact .quiet (le_refl _) id fun h => .inl (hother rfl h)
    | toolAuthorizationReceived id' => exact .quiet (le_refl _) id fun h => .inl (hother rfl h)
    | entryUpdated waiting => exact .quiet (le_refl _) id fun h => .inl (hother rfl h)
  | takePendingForDelivery agentId isEndOfTurn =>
    cases hs
    refine .quiet ?_ id fun h => .inl ?_
    · unfold takePendingForDelivery
      split
      · exact le_refl _
      · dsimp only
        split <;> exact le_refl _
    · unfold takePendingForDelivery at h
      split at h
      · exact h
      case h_2 s he =>
        have hsame : ∀ st₁ : SolutionAgentStore M X,
            (∃ q, st₁.session = some { s with pendingMessages := q }) → FlagUp st₁ → FlagUp st := by
          rintro st₁ ⟨q, hq⟩ ⟨t, ht, hf⟩
          obtain rfl := some.inj (hq.symm.trans ht)
          exact ⟨s, he, hf⟩
        dsimp only at h
        split at h <;> exact hsame _ ⟨_, rfl⟩ h
  | cancelTurn =>
    cases hs
    refine .quiet (le_refl _) id fun h => .inl (flagUp_of_update (fun s hf => ?_) h)
    rwa [SolutionSession.cancelTurn_flag] at hf
  | interruptAndFlushPending =>
    cases hs
    refine .quiet (le_refl _) id fun h => ?_
    obtain ⟨t, ht, hf⟩ := h
    obtain ⟨s, he, rfl⟩ := Option.map_eq_some_iff.1 ht
    by_cases hq : s.pendingMessages = []
    · rw [SolutionSession.interruptAndFlushPending, hq] at hf
      exact .inl ⟨s, he, hf⟩
    · exact .inr ⟨s, he, hq⟩
  | resumeSession acpSessionId =>
    cases hs
    unfold resumeSession
    split
    · exact .quiet (le_refl _) id .inl
    · refine .quiet ?_ id .inl
      show (st.tasks ++ [_]).countP _ ≤ _
      rw [countP_append]
      exact le_refl _
  | resetContext =>
    cases hs
    unfold resetContext
    split
    · exact .quiet (le_refl _) id .inl
    · refine .quiet ?_ id .inl
      show (st.tasks ++ [_]).countP _ ≤ _
      rw [countP_append]
      exact le_refl _
  | rotateContext =>
    cases hs
    unfold rotateContext
    split
    · exact .quiet (le_refl _) id .inl
    · split
      · refine .quiet ?_ id .inl
        show (st.tasks ++ [_]).countP _ ≤ _
        rw [countP_append]
        exact le_refl _
      · exact .quiet (le_refl _) id .inl
  | closeSession =>
    cases hs
    unfold closeSession
    split
    · exact .quiet (le_refl _) id .inl
    · exact .quiet (le_refl _) id fun ⟨s, he, _⟩ => nomatch he
  | forceIdle =>
    cases hs
    refine .quiet (le_refl _) id fun h => .inl (flagUp_of_update ?_ h)
    exact fun s => id
  | timer =>
    obtain ⟨s, net, he, -, -, rfl⟩ := timer_inv hs
    refine .quiet (le_refl _) id fun ⟨t, ht, hf⟩ => .inl ?_
    cases ht
    rw [SolutionSession.fireSafetyNet_flag] at hf
    exact ⟨s, he, hf⟩
  | prompt i =>
    obtain ⟨thread, expected, blocks, htask, -, rfl⟩ := prompt_inv hs
    refine .quiet ?_ id .inl
    obtain ⟨hi, -⟩ := List.getElem?_eq_some_iff.1 htask
    show (st.tasks.set i _).countP _ ≤ _
    rw [(set_perm_cons_eraseIdx hi _).countP_eq, turnCount_eraseIdx htask, countP_cons]
    exact le_refl _
  | turnEnded i result =>
    obtain ⟨thread, expected, -, -, rfl⟩ | ⟨thread, expected, blocks, err, -, rfl, rfl⟩ := turnEnded_inv hs
    · exact .quiet (countP_eraseIdx_le ..) id .inl
    · refine .quiet (countP_eraseIdx_le ..) id fun h => .inl ?_
      have h' : FlagUp (st.updateSession fun s => turnError s expected err) := flagUp_of_session rfl h
      refine flagUp_of_update (fun s hf => ?_) h'
      unfold turnError at hf
      split at hf <;> exact hf
  | threadReady i result =>
    cases threadReady_inv hs with
    | resumed blocks thread htask =>
      refine .quiet ?_ id fun ⟨t, ht, hf⟩ => ?_
      · show (st.tasks.eraseIdx i ++ _).countP _ ≤ _
        rw [countP_append]
        have hnone : (blocks.map StoreTask.reenter).toList.countP StoreTask.isTurn = 0 := by
          cases blocks <;> rfl
        rw [hnone]
        exact countP_eraseIdx_le ..
      · -- the flag is down on a session that has got its thread
        unfold promote at ht
        split at ht <;>
        · cases ht
          exact nomatch hf
    | notResumed blocks err htask => exact .quiet (countP_eraseIdx_le ..) id .inl
    | reset entity thread htask =>
      refine .quiet (countP_eraseIdx_le ..) id fun h => .inl ?_
      have h' : FlagUp (st.finishReset entity thread) := flagUp_of_session rfl h
      unfold finishReset at h'
      split at h'
      · split at h'
        · obtain ⟨t, ht, hf⟩ := h'
          cases ht
          exact nomatch hf
        · exact h'
      · exact h'
    | rotated entity thread htask =>
      refine .quiet (countP_eraseIdx_le ..) id fun h => .inl ?_
      have h' : FlagUp (st.finishRotate entity thread) := flagUp_of_session rfl h
      refine flagUp_of_update (fun s hf => ?_) h'
      split at hf <;> exact hf
    | gaveUp task err htask hblocks => exact .quiet (countP_eraseIdx_le ..) id .inl
  | reenter i env =>
    obtain ⟨blocks, htask, r, hsent, rfl⟩ := reenter_inv hs
    obtain ⟨hstart, hraise⟩ := Sent.flag hsent
    have hsession : (r.1.noteResult blocks r.2).session = r.1.session := by
      unfold noteResult
      split <;> rfl
    have hcount : (r.1.noteResult blocks r.2).turnCount = r.1.turnCount := by
      unfold noteResult
      split <;> rfl
    have herase : st.turnCount = turnCount { st with tasks := st.tasks.eraseIdx i } := turnCount_eraseIdx htask
    have hflag : FlagUp (r.1.noteResult blocks r.2) ↔ FlagUp r.1 :=
      ⟨flagUp_of_session hsession, flagUp_of_session hsession.symm⟩
    refine ⟨?_, fun h => (hraise (hflag.mp h)).imp id fun hd => ⟨blocks, htask, hd⟩⟩
    rw [hflag, StartsTurn, hcount, herase]
    refine hstart.trans ⟨fun h => ⟨blocks, htask, h.2⟩, fun ⟨b, hb, h⟩ => ⟨rfl, ?_⟩⟩
    rw [StoreTask.reenter.inj (some.inj (htask.symm.trans hb))]
    exact h

theorem requestedSince_of_flagUp [Inhabited M] {actions : List (StoreAction M X)} (h₀ : ¬FlagUp st₀)
    (hcond : ∀ before a after st st', actions = before ++ a :: after → Reaches st₀ before st →
      st.step a = some st' → ¬st.StartsFlagged a) :
    ∀ before after st, actions = before ++ after → Reaches st₀ before st → FlagUp st →
      RequestedSince st₀ before st := by
  intro before
  induction before using List.reverseRecOn with
  | nil =>
    intro after st _ hrun hup
    cases hrun
    exact absurd hup h₀
  | append_singleton before a ih =>
    intro after st' he hrun hup
    obtain ⟨st, hbefore, hlast⟩ := Run.split hrun
    have hstep : st.step a = some st' := by
      cases hlast with
      | cons h htail =>
        cases htail
        exact h
    have he' : actions = before ++ a :: after := by rw [he, append_assoc]; rfl
    have hflag := flagStep hstep
    have hturn : ¬StartsTurn st st' := fun ht =>
      hcond before a after st st' he' hbefore hstep (hflag.starts.mp ⟨ht, hup⟩)
    rcases hflag.raises hup with h | h
    · exact .later (ih (a :: after) st he' hbefore h) hstep hturn
    · exact .request hbefore hstep h hturn

/-- **When the flag is for one turn**: exactly in the runs in which no message reaches the main
agent outside of a running turn while the flag is up or sets it by declining a call. -/
theorem flush_one_shot_iff [Inhabited M] (id : AcpSessionId) (thread : Option AcpThread)
    (actions : List (StoreAction M X)) :
    OneShot (init id thread) actions ↔
      ∀ before a after st st', actions = before ++ a :: after → Reaches (init id thread) before st →
        st.step a = some st' → ¬st.StartsFlagged a := by
  constructor
  · intro h before a after st st' he hrun hstep hstarts
    obtain ⟨hturn, hup⟩ := (flagStep hstep).starts.mpr hstarts
    exact (h before a after st st' he hrun hstep).1 hturn hup
  · intro h before a after st st' he hrun hstep
    have h₀ : ¬FlagUp (init id thread : SolutionAgentStore M X) := by
      rintro ⟨s, hs, hf⟩
      cases hs
      exact nomatch hf
    refine ⟨fun hturn hup => h before a after st st' he hrun hstep ((flagStep hstep).starts.mp ⟨hturn, hup⟩),
      fun env ha hkeep => requestedSince_of_flagUp h₀ h before (a :: after) st he hrun ?_⟩
    subst ha
    obtain ⟨s, t, hs, ht, rfl⟩ := acpEvent_inv hstep
    exact (handleStopped_flag hs ht .cancelled env).2.2 rfl hkeep

theorem RequestedSince.reaches [Inhabited M] {before : List (StoreAction M X)}
    (h : RequestedSince st₀ before st) : Reaches st₀ before st := by
  induction h with
  | request hrun hstep _ _ => exact hrun.snoc hstep
  | later _ hstep _ ih => exact ih.snoc hstep

theorem RequestedSince.last [Inhabited M] {before : List (StoreAction M X)}
    (h : RequestedSince st₀ (before ++ [a]) st') :
    ∃ st, Reaches st₀ before st ∧ st.step a = some st' ∧ ¬StartsTurn st st' ∧
      (st.Requests a ∨ RequestedSince st₀ before st) := by
  generalize he : before ++ [a] = all at h
  cases h with
  | request hrun hstep hreq hturn =>
    obtain ⟨rfl, hlast⟩ := append_inj' he rfl
    obtain rfl := List.singleton_inj.mp hlast
    exact ⟨_, hrun, hstep, hturn, .inl hreq⟩
  | later h hstep hturn =>
    obtain ⟨rfl, hlast⟩ := append_inj' he rfl
    obtain rfl := List.singleton_inj.mp hlast
    exact ⟨_, h.reaches, hstep, hturn, .inr h⟩

theorem Reaches.functional [Inhabited M] {actions : List (StoreAction M X)}
    (h : Reaches st₀ actions st) (h' : Reaches st₀ actions st') : st = st' :=
  Run.functional (fun _ _ _ _ hy hz => some.inj (hy.symm.trans hz)) h h'

/-- The turn of `a` ends in an error with `b` in the queue; only then is the queue to be sent now.
The turn of `c` has `d` behind it and is stopped by the user. -/
def lateFlag : List (StoreAction Unit Unit) :=
  [sendText ['a'] .main, sendText ['b'] .main, .acpEvent .error ⟨⟨0, 0, 0⟩, true, none⟩,
    .interruptAndFlushPending, sendText ['c'] .main, sendText ['d'] .main, .cancelTurn]

/-- After some of these steps. -/
def lateStore (n : Nat) : SolutionAgentStore Unit Unit :=
  (lateFlag.take n).foldl (fun st a => (st.step a).getD st) (init ['s'] (some ⟨0, ['s'], []⟩))

/-- **The queue of the second turn is sent, not discarded**, and nobody asked for it since that turn
has started. -/
theorem late_flag_keeps_queue : Reaches (init ['s'] (some ⟨0, ['s'], []⟩)) lateFlag (lateStore 7) ∧
      (∃ st', (lateStore 7).step (.acpEvent (.stopped .cancelled) ⟨⟨0, 0, 0⟩, true, none⟩) = some st' ∧
        KeepsQueue (lateStore 7) st') ∧
      ¬RequestedSince (init ['s'] (some ⟨0, ['s'], []⟩)) lateFlag (lateStore 7) := by
  have h₄ : Reaches (init ['s'] (some ⟨0, ['s'], []⟩)) (lateFlag.take 4) (lateStore 4) :=
    .cons rfl (.cons rfl (.cons rfl (.cons rfl .nil)))
  have h₅ : Reaches (init ['s'] (some ⟨0, ['s'], []⟩)) (lateFlag.take 5) (lateStore 5) := h₄.snoc rfl
  have h₆ : Reaches (init ['s'] (some ⟨0, ['s'], []⟩)) (lateFlag.take 6) (lateStore 6) := h₅.snoc rfl
  refine ⟨h₆.snoc rfl, ⟨_, rfl, ⟨_, rfl, cons_ne_nil _ _⟩, rfl⟩, fun h => ?_⟩
  have h' : RequestedSince _ (lateFlag.take 6 ++ [.cancelTurn]) _ := h
  obtain ⟨st, hrun, -, -, hreq | h⟩ := h'.last
  · exact hreq
  obtain rfl := h₆.functional hrun
  have h' : RequestedSince _ (lateFlag.take 5 ++ [sendText ['d'] .main]) _ := h
  obtain ⟨st, hrun, -, -, hreq | h⟩ := h'.last
  · -- no call waits that `d` could decline
    obtain rfl := h₅.functional hrun
    obtain ⟨s, hs, -, thread, hthread, hcall⟩ := hreq
    cases hs
    cases hthread
    exact nomatch hcall
  obtain rfl := h₅.functional hrun
  have h' : RequestedSince _ (lateFlag.take 4 ++ [sendText ['c'] .main]) _ := h
  obtain ⟨st, hrun, -, hturn, -⟩ := h'.last
  obtain rfl := h₄.functional hrun
  refine hturn ?_
  show List.countP _ _ < List.countP _ _
  decide

end SolutionAgentStore

end SpkEditor
