import Mathlib.Algebra.Order.Ring.Int
import SpkEditor.Lib.Run

/-!
# The proxy to the embedded server

`remote_control/src/proxy.rs`: calls share one socket. Each call mints an id, puts the sender
of a oneshot channel into the map `pending` under it, writes its request and waits for the
channel, for at most thirty seconds; a reader task takes the frames off the socket, hands a
frame with an id to the sender under it and queues the others as notifications.

Calls, their timeouts, the reader and the one who takes the notifications go on one step at a
time, in any order. Ids are 32 bits wide and wrap, so that fewer than `2 ^ 32` calls have ids
of their own; then a frame reaches the call that minted its id or nobody.

The queue of notifications is bounded: one that finds it full is dropped.
-/

namespace SpkEditor.Remote

open List Option

/-- `serde_json::Value`; a number is an integer or not. -/
inductive JsonValue where
  | null
  | bool (b : Bool)
  | int (n : Int)
  | float (digits : List Char)
  | str (s : List Char)
  | arr (items : List JsonValue)
  | obj (fields : List (List Char × JsonValue))

def JsonValue.get (key : List Char) : JsonValue → Option JsonValue
  | .obj fields => fields.lookup key
  | _ => none

/-- `Value::as_i64`. -/
def JsonValue.asI64 : JsonValue → Option Int
  | .int n => if -2 ^ 63 ≤ n ∧ n < 2 ^ 63 then some n else none
  | _ => none

def JsonValue.intId (frame : JsonValue) : Option Int := (frame.get ['i', 'd']).bind asI64

/-- An `i32` after an addition that wraps. -/
def wrapI32 (n : Int) : Int := (n + 2 ^ 31) % 2 ^ 32 - 2 ^ 31

/-- `i32::try_from`. -/
def IsI32 (n : Int) : Prop := -2 ^ 31 ≤ n ∧ n < 2 ^ 31

instance (n : Int) : Decidable (IsI32 n) := inferInstanceAs (Decidable (_ ∧ _))

/-! ## The parties -/

inductive CallError where
  | serialising
  | writing
  | flushing
  | readerClosed
  | timedOut

/-- A frame, and beside it the number under which it arrived. -/
structure Mail where
  arrival : Nat
  frame : JsonValue

/-- Where `call_tool` stands. A call that fails first removes its entry. -/
inductive Phase where
  | idle
  | minted
  | inserted
  | awaiting
  | failing (error : CallError)
  | returned (result : Except CallError Mail)

inductive Channel where
  | empty
  | sent (mail : Mail)
  | closed

def NOTIFICATION_QUEUE_CAPACITY : Nat := 256

/-- The proxy and the reader. Calls are numbered; `started` of them have begun. `arrived` and
`notified` record what the code does not keep: every frame that came, and every frame without
an integer id with whether there was room for it. -/
structure UnixMcpProxy where
  nextId : Int
  started : Nat
  id : Nat → Int
  phase : Nat → Phase
  channel : Nat → Channel
  pending : Int → Option Nat
  readerAlive : Bool
  /-- A sender the reader has taken out of the map, and the frame it is about to send. -/
  holding : Option (Nat × Mail)
  queue : List JsonValue
  receiverOpen : Bool
  received : List JsonValue
  arrived : List JsonValue
  notified : List (JsonValue × Bool)

def UnixMcpProxy.connect : UnixMcpProxy where
  nextId := 1
  started := 0
  id _ := 0
  phase _ := .idle
  channel _ := .empty
  pending _ := none
  readerAlive := true
  holding := none
  queue := []
  receiverOpen := true
  received := []
  arrived := []
  notified := []

inductive ProxyOp where
  | mint
  | insert (k : Nat)
  | written (k : Nat)
  /-- The request cannot be serialised, written or flushed. -/
  | writeFailed (k : Nat) (error : CallError)
  | timeout (k : Nat)
  | senderDropped (k : Nat)
  | receive (k : Nat)
  /-- A failing call takes its entry out of the map and returns. -/
  | remove (k : Nat)
  | garbage
  | frame (v : JsonValue)
  /-- The reader sends what it holds. -/
  | deliver
  /-- The end of the socket, or a read error. -/
  | eof
  | recv
  | closeReceiver

namespace UnixMcpProxy

def dropSender (p : UnixMcpProxy) : Option Nat → Nat → Channel
  | none => p.channel
  | some k => Function.update p.channel k .closed

def readFrame (p : UnixMcpProxy) (v : JsonValue) : UnixMcpProxy :=
  let q := { p with arrived := p.arrived ++ [v] }
  match v.intId with
  | some id =>
    if IsI32 id then
      match p.pending id with
      | some k =>
        { q with
          pending := Function.update p.pending id none
          holding := some (k, ⟨p.arrived.length, v⟩) }
      | none => q
    else q
  | none =>
    if p.receiverOpen ∧ p.queue.length < NOTIFICATION_QUEUE_CAPACITY then
      { q with queue := p.queue ++ [v], notified := p.notified ++ [(v, true)] }
    else { q with notified := p.notified ++ [(v, false)] }

def step (p : UnixMcpProxy) : ProxyOp → Option UnixMcpProxy
  | .mint =>
    -- fewer than `2 ^ 32` calls
    if p.started + 1 < 2 ^ 32 then
      some { p with
        nextId := wrapI32 (p.nextId + 1)
        started := p.started + 1
        id := Function.update p.id p.started p.nextId
        phase := Function.update p.phase p.started .minted }
    else none
  | .insert k =>
    match p.phase k with
    | .minted =>
      some { p with
        pending := Function.update p.pending (p.id k) (some k)
        channel := p.dropSender (p.pending (p.id k))
        phase := Function.update p.phase k .inserted }
    | _ => none
  | .written k =>
    match p.phase k with
    | .inserted => some { p with phase := Function.update p.phase k .awaiting }
    | _ => none
  | .writeFailed k error =>
    match p.phase k with
    | .inserted => some { p with phase := Function.update p.phase k (.failing error) }
    | _ => none
  | .timeout k =>
    match p.phase k with
    | .awaiting => some { p with phase := Function.update p.phase k (.failing .timedOut) }
    | _ => none
  | .senderDropped k =>
    match p.phase k, p.channel k with
    | .awaiting, .closed =>
      some { p with phase := Function.update p.phase k (.failing .readerClosed) }
    | _, _ => none
  | .receive k =>
    match p.phase k, p.channel k with
    | .awaiting, .sent mail =>
      some { p with phase := Function.update p.phase k (.returned (.ok mail)) }
    | _, _ => none
  | .remove k =>
    match p.phase k with
    | .failing error =>
      some { p with
        pending := Function.update p.pending (p.id k) none
        phase := Function.update p.phase k (.returned (.error error)) }
    | _ => none
  | .garbage => if p.readerAlive ∧ p.holding.isNone then some p else none
  | .frame v => if p.readerAlive ∧ p.holding.isNone then some (p.readFrame v) else none
  | .deliver =>
    match p.holding with
    | none => none
    | some (k, mail) =>
      some { p with holding := none, channel := Function.update p.channel k (.sent mail) }
  | .eof =>
    if p.readerAlive ∧ p.holding.isNone then
      some { p with
        readerAlive := false
        pending := fun _ => none
        channel := fun k => if p.pending (p.id k) = some k then .closed else p.channel k }
    else none
  | .recv =>
    match p.receiverOpen, p.queue with
    | true, v :: queue => some { p with queue, received := p.received ++ [v] }
    | _, _ => none
  | .closeReceiver => some { p with receiverOpen := false }

end UnixMcpProxy

def ProxyStep (p : UnixMcpProxy) (op : ProxyOp) (q : UnixMcpProxy) : Prop := p.step op = some q

/-- A call that has its sender in the map, or may still have. -/
def Phase.Open : Phase → Prop
  | .inserted | .awaiting | .failing _ => True
  | _ => False

/-- A call that has put nothing into the map yet. -/
def Phase.Early : Phase → Prop
  | .idle | .minted => True
  | _ => False

namespace UnixMcpProxy

def For (p : UnixMcpProxy) (k : Nat) (mail : Mail) : Prop :=
  mail.frame.intId = some (p.id k) ∧ p.arrived[mail.arrival]? = some mail.frame

structure Inv (p : UnixMcpProxy) : Prop where
  /-- Ids are minted one after the other. -/
  next : p.nextId = wrapI32 (1 + p.started)
  ids : ∀ k, k < p.started → p.id k = wrapI32 (1 + k)
  bound : p.started < 2 ^ 32
  idle : ∀ k, p.started ≤ k → p.phase k = .idle
  /-- An entry of the map is the sender of an open call, under its id. -/
  pending : ∀ i k, p.pending i = some k → p.id k = i ∧ (p.phase k).Open
  /-- A sender that has left the map is not in it any more. -/
  holding : ∀ k mail, p.holding = some (k, mail) →
    ¬ (p.phase k).Early ∧ p.For k mail ∧ p.pending (p.id k) = none
  sent : ∀ k mail, p.channel k = .sent mail →
    ¬ (p.phase k).Early ∧ p.For k mail ∧ p.pending (p.id k) = none
  returned : ∀ k mail, p.phase k = .returned (.ok mail) → p.For k mail
  /-- What the receiver has got and will get are the notifications that found room. -/
  forwarded : p.received ++ p.queue = (p.notified.filter Prod.snd).map Prod.fst
  notified : p.notified.map Prod.fst = p.arrived.filter fun v => v.intId.isNone

end UnixMcpProxy

theorem Phase.Open.ne_idle {ph : Phase} (h : ph.Open) : ph ≠ .idle := by
  rintro rfl
  exact h

theorem Phase.ne_idle_of_not_early {ph : Phase} (h : ¬ ph.Early) : ph ≠ .idle := by
  rintro rfl
  exact h trivial

theorem wrapI32_succ (n : Int) : wrapI32 (wrapI32 n + 1) = wrapI32 (n + 1) := by
  simp only [wrapI32]
  omega

theorem wrapI32_inj {k l : Nat} (hk : k < 2 ^ 32) (hl : l < 2 ^ 32)
    (h : wrapI32 (1 + k) = wrapI32 (1 + l)) : k = l := by
  simp only [wrapI32] at h
  omega

namespace UnixMcpProxy

variable {p q : UnixMcpProxy}

theorem inv_connect : connect.Inv where
  next := by decide
  ids k hk := absurd hk (Nat.not_lt_zero k)
  bound := Nat.two_pow_pos 32
  idle _ _ := rfl
  pending i k h := by simp [connect] at h
  holding k mail h := by simp [connect] at h
  sent k mail h := by simp [connect] at h
  returned k mail h := by simp [connect] at h
  forwarded := rfl
  notified := rfl

theorem Inv.started_of (h : p.Inv) {k : Nat} (hk : p.phase k ≠ .idle) : k < p.started := by
  by_contra hge
  exact hk (h.idle k (by omega))

theorem Inv.id_inj (h : p.Inv) {k l : Nat} (hk : p.phase k ≠ .idle) (hl : p.phase l ≠ .idle)
    (hid : p.id k = p.id l) : k = l := by
  have hk' := h.started_of hk
  have hl' := h.started_of hl
  rw [h.ids k hk', h.ids l hl'] at hid
  have := h.bound
  exact wrapI32_inj (by omega) (by omega) hid

/-- **A call that has begun and is not open has no entry in the map.** -/
theorem Inv.pending_none (h : p.Inv) {k : Nat} (hidle : p.phase k ≠ .idle)
    (hk : ¬ (p.phase k).Open) : p.pending (p.id k) = none := by
  cases hp : p.pending (p.id k) with
  | none => rfl
  | some l =>
    obtain ⟨hid, hopen⟩ := h.pending _ l hp
    obtain rfl := h.id_inj hopen.ne_idle hidle hid
    exact absurd hopen hk

theorem For.arrive {k : Nat} {mail : Mail} (h : p.For k mail) (v : JsonValue) :
    mail.frame.intId = some (p.id k) ∧ (p.arrived ++ [v])[mail.arrival]? = some mail.frame := by
  refine ⟨h.1, ?_⟩
  rw [List.getElem?_append_left (List.getElem?_eq_some_iff.mp h.2).1]
  exact h.2

/-! ## The steps of a call -/

theorem Inv.mint (h : p.Inv) (hb : p.started + 1 < 2 ^ 32) : Inv { p with
      nextId := wrapI32 (p.nextId + 1)
      started := p.started + 1
      id := Function.update p.id p.started p.nextId
      phase := Function.update p.phase p.started .minted } := by
  -- every call anything is known about began earlier
  have hid : ∀ k, p.phase k ≠ .idle → Function.update p.id p.started p.nextId k = p.id k ∧
        Function.update p.phase p.started .minted k = p.phase k := by
    intro k hk
    have hne : k ≠ p.started := ne_of_lt (h.started_of hk)
    exact ⟨Function.update_of_ne hne .., Function.update_of_ne hne ..⟩
  refine ⟨?_, ?_, hb, ?_, ?_, ?_, ?_, ?_, h.forwarded, h.notified⟩
  · rw [h.next, wrapI32_succ, Nat.cast_succ, Int.add_assoc]
  · intro k hk
    dsimp only at hk ⊢
    by_cases hkst : k = p.started
    · rw [hkst, Function.update_self, h.next]
    · rw [Function.update_of_ne hkst]
      exact h.ids k (by omega)
  · intro k hk
    dsimp only at hk ⊢
    rw [Function.update_of_ne (by omega)]
    exact h.idle k (by omega)
  · intro i k hk
    obtain ⟨hidk, hopen⟩ := h.pending i k hk
    obtain ⟨h₁, h₂⟩ := hid k hopen.ne_idle
    dsimp only
    rw [h₁, h₂]
    exact ⟨hidk, hopen⟩
  · intro k mail hk
    obtain ⟨hearly, hfor, hnone⟩ := h.holding k mail hk
    obtain ⟨h₁, h₂⟩ := hid k (Phase.ne_idle_of_not_early hearly)
    simp only [For, h₁, h₂]
    exact ⟨hearly, hfor, hnone⟩
  · intro k mail hk
    obtain ⟨hearly, hfor, hnone⟩ := h.sent k mail hk
    obtain ⟨h₁, h₂⟩ := hid k (Phase.ne_idle_of_not_early hearly)
    simp only [For, h₁, h₂]
    exact ⟨hearly, hfor, hnone⟩
  · intro k mail hk
    dsimp only at hk
    by_cases hkst : k = p.started
    · rw [hkst, Function.update_self] at hk
      simp at hk
    · rw [Function.update_of_ne hkst] at hk
      obtain ⟨h₁, -⟩ := hid k (by rw [hk]; simp)
      simp only [For, h₁]
      exact h.returned k mail hk

theorem Inv.setPhase (h : p.Inv) {k : Nat} {ph : Phase} (hk : ¬ (p.phase k).Early)
    (hearly : ¬ ph.Early) (hopen : ph.Open ∨ p.pending (p.id k) = none)
    (hret : ∀ mail, ph = .returned (.ok mail) → p.For k mail) :
    Inv { p with phase := Function.update p.phase k ph } := by
  have hkeep : ∀ l, ¬ (p.phase l).Early → ¬ (Function.update p.phase k ph l).Early := by
    intro l hl
    by_cases hlk : l = k
    · rw [hlk, Function.update_self]
      exact hearly
    · rw [Function.update_of_ne hlk]
      exact hl
  refine ⟨h.next, h.ids, h.bound, ?_, ?_, ?_, ?_, ?_, h.forwarded, h.notified⟩
  · intro l hl
    have hst := h.started_of (Phase.ne_idle_of_not_early hk)
    dsimp only at hl ⊢
    rw [Function.update_of_ne (by omega)]
    exact h.idle l hl
  · intro i l hl
    obtain ⟨hid, hl'⟩ := h.pending i l hl
    refine ⟨hid, ?_⟩
    dsimp only
    by_cases hlk : l = k
    · rw [hlk, Function.update_self]
      refine hopen.resolve_right ?_
      rw [← hlk, hid, hl]
      simp
    · rw [Function.update_of_ne hlk]
      exact hl'
  · intro l mail hl
    obtain ⟨he, hfor, hnone⟩ := h.holding l mail hl
    exact ⟨hkeep l he, hfor, hnone⟩
  · intro l mail hl
    obtain ⟨he, hfor, hnone⟩ := h.sent l mail hl
    exact ⟨hkeep l he, hfor, hnone⟩
  · intro l mail hl
    dsimp only at hl
    by_cases hlk : l = k
    · rw [hlk, Function.update_self] at hl
      rw [hlk]
      exact hret mail hl
    · rw [Function.update_of_ne hlk] at hl
      exact h.returned l mail hl

theorem Inv.insert (h : p.Inv) {k : Nat} (hk : p.phase k = .minted) : Inv { p with
      pending := Function.update p.pending (p.id k) (some k)
      channel := p.dropSender (p.pending (p.id k))
      phase := Function.update p.phase k .inserted } := by
  have hidle : p.phase k ≠ .idle := by
    rw [hk]
    simp
  have hnone : p.pending (p.id k) = none := h.pending_none hidle (by rw [hk]; exact fun h => h)
  have hchannel : p.dropSender (p.pending (p.id k)) = p.channel := by
    rw [hnone]
    rfl
  rw [hchannel]
  -- another call that has left the map has another id
  have hother : ∀ l, ¬ (p.phase l).Early → p.pending (p.id l) = none →
      ¬ (Function.update p.phase k .inserted l).Early ∧
        Function.update p.pending (p.id k) (some k) (p.id l) = none := by
    intro l hl hln
    have hlk : l ≠ k := by
      rintro rfl
      rw [hk] at hl
      exact hl trivial
    have hid : p.id l ≠ p.id k := fun hid =>
      hlk (h.id_inj (Phase.ne_idle_of_not_early hl) hidle hid)
    rw [Function.update_of_ne hlk, Function.update_of_ne hid]
    exact ⟨hl, hln⟩
  refine ⟨h.next, h.ids, h.bound, ?_, ?_, ?_, ?_, ?_, h.forwarded, h.notified⟩
  · intro l hl
    have hst := h.started_of hidle
    dsimp only at hl ⊢
    rw [Function.update_of_ne (by omega)]
    exact h.idle l hl
  · intro i l hl
    dsimp only at hl ⊢
    by_cases hi : i = p.id k
    · rw [hi, Function.update_self] at hl
      cases hl
      rw [Function.update_self]
      exact ⟨hi.symm, trivial⟩
    · rw [Function.update_of_ne hi] at hl
      obtain ⟨hid, hopen⟩ := h.pending i l hl
      have hlk : l ≠ k := by
        rintro rfl
        exact hi hid.symm
      rw [Function.update_of_ne hlk]
      exact ⟨hid, hopen⟩
  · intro l mail hl
    obtain ⟨he, hfor, hln⟩ := h.holding l mail hl
    obtain ⟨h₁, h₂⟩ := hother l he hln
    exact ⟨h₁, hfor, h₂⟩
  · intro l mail hl
    obtain ⟨he, hfor, hln⟩ := h.sent l mail hl
    obtain ⟨h₁, h₂⟩ := hother l he hln
    exact ⟨h₁, hfor, h₂⟩
  · intro l mail hl
    dsimp only at hl
    by_cases hlk : l = k
    · rw [hlk, Function.update_self] at hl
      simp at hl
    · rw [Function.update_of_ne hlk] at hl
      exact h.returned l mail hl

theorem Inv.forget (h : p.Inv) {pending : Int → Option Nat}
    (hp : ∀ i, pending i = p.pending i ∨ pending i = none) : Inv { p with pending } := by
  have hnone : ∀ i, p.pending i = none → pending i = none := by
    intro i hi
    rcases hp i with h | h
    · rw [h, hi]
    · exact h
  refine ⟨h.next, h.ids, h.bound, h.idle, ?_, ?_, ?_, h.returned, h.forwarded, h.notified⟩
  · intro i k hk
    dsimp only at hk
    rcases hp i with hi | hi
    · exact h.pending i k (hi ▸ hk)
    · rw [hi] at hk
      simp at hk
  · intro k mail hk
    obtain ⟨he, hfor, hn⟩ := h.holding k mail hk
    exact ⟨he, hfor, hnone _ hn⟩
  · intro k mail hk
    obtain ⟨he, hfor, hn⟩ := h.sent k mail hk
    exact ⟨he, hfor, hnone _ hn⟩

theorem update_none_or (pending : Int → Option Nat) (j i : Int) :
    Function.update pending j none i = pending i ∨ Function.update pending j none i = none := by
  by_cases hi : i = j
  · rw [hi, Function.update_self]
    exact .inr rfl
  · rw [Function.update_of_ne hi]
    exact .inl rfl

/-! ## The steps of the reader -/

section

variable (h : p.Inv)
include h

theorem Inv.arrive {v : JsonValue} (hv : v.intId ≠ none) :
    Inv { p with arrived := p.arrived ++ [v] } := by
  refine ⟨h.next, h.ids, h.bound, h.idle, h.pending, ?_, ?_, ?_, h.forwarded, ?_⟩
  · intro k mail hk
    obtain ⟨he, hfor, hn⟩ := h.holding k mail hk
    exact ⟨he, hfor.arrive v, hn⟩
  · intro k mail hk
    obtain ⟨he, hfor, hn⟩ := h.sent k mail hk
    exact ⟨he, hfor.arrive v, hn⟩
  · intro k mail hk
    exact (h.returned k mail hk).arrive v
  · dsimp only
    rw [filter_append, ← h.notified]
    cases hid : v.intId with
    | none => exact absurd hid hv
    | some id => simp [hid]

theorem Inv.notify {v : JsonValue} (hv : v.intId = none) (room : Bool) : Inv { p with
      arrived := p.arrived ++ [v]
      queue := if room then p.queue ++ [v] else p.queue
      notified := p.notified ++ [(v, room)] } := by
  refine ⟨h.next, h.ids, h.bound, h.idle, h.pending, ?_, ?_, ?_, ?_, ?_⟩
  · intro k mail hk
    obtain ⟨he, hfor, hn⟩ := h.holding k mail hk
    exact ⟨he, hfor.arrive v, hn⟩
  · intro k mail hk
    obtain ⟨he, hfor, hn⟩ := h.sent k mail hk
    exact ⟨he, hfor.arrive v, hn⟩
  · intro k mail hk
    exact (h.returned k mail hk).arrive v
  · dsimp only
    rw [filter_append, map_append, ← h.forwarded]
    cases room with
    | true => simp
    | false => simp
  · dsimp only
    rw [filter_append, map_append, ← h.notified]
    simp [hv]

theorem Inv.readFrame (v : JsonValue) : (p.readFrame v).Inv := by
  rw [UnixMcpProxy.readFrame]
  cases hid : v.intId with
  | none =>
    dsimp only
    split
    · exact h.notify hid true
    · exact h.notify hid false
  | some id =>
    have hv : v.intId ≠ none := by
      rw [hid]
      simp
    have harrive := h.arrive hv
    dsimp only
    split
    · cases hp : p.pending id with
      | none => exact harrive
      | some k =>
        obtain ⟨hidk, hopen⟩ := h.pending id k hp
        have hforget := harrive.forget (update_none_or p.pending id)
        -- the sender leaves the map for the hands of the reader
        refine { hforget with holding := ?_ }
        intro l mail hl
        cases hl
        refine ⟨?_, ⟨?_, ?_⟩, ?_⟩
        · intro hearly
          cases hph : p.phase k with
          | idle | minted => rw [hph] at hopen; exact hopen
          | inserted | awaiting | failing | returned =>
            rw [hph] at hearly
            exact hearly
        · dsimp only
          rw [hid, hidk]
        · simp
        · dsimp only
          rw [hidk, Function.update_self]
    · exact harrive

theorem Inv.deliver {k : Nat} {mail : Mail} (hk : p.holding = some (k, mail)) :
    Inv { p with holding := none, channel := Function.update p.channel k (.sent mail) } := by
  refine { h with holding := by simp, sent := ?_ }
  intro l mail' hl
  dsimp only at hl
  by_cases hlk : l = k
  · rw [hlk, Function.update_self] at hl
    obtain rfl := Channel.sent.inj hl
    rw [hlk]
    exact h.holding k mail hk
  · rw [Function.update_of_ne hlk] at hl
    exact h.sent l mail' hl

theorem Inv.eof : Inv { p with
      readerAlive := false
      pending := fun _ => none
      channel := fun k => if p.pending (p.id k) = some k then .closed else p.channel k } := by
  have hforget : Inv { p with pending := fun _ => none } := h.forget fun _ => .inr rfl
  refine { hforget with sent := ?_ }
  intro k mail hk
  dsimp only at hk
  split at hk
  · simp at hk
  · exact hforget.sent k mail hk

theorem Inv.step {op : ProxyOp} (hs : ProxyStep p op q) : q.Inv := by
  rw [ProxyStep] at hs
  cases op with
  | mint =>
    simp only [UnixMcpProxy.step] at hs
    split at hs
    · rename_i hb
      cases hs
      exact h.mint hb
    · simp at hs
  | insert k =>
    simp only [UnixMcpProxy.step] at hs
    split at hs
    · rename_i hk
      cases hs
      exact h.insert hk
    · simp at hs
  | written k | writeFailed k error | timeout k =>
    simp only [UnixMcpProxy.step] at hs
    split at hs
    · rename_i hk
      cases hs
      exact h.setPhase (by rw [hk]; exact fun h => h) (fun h => h) (.inl trivial) (by simp)
    · simp at hs
  | senderDropped k =>
    simp only [UnixMcpProxy.step] at hs
    split at hs
    · rename_i hk hc
      cases hs
      exact h.setPhase (by rw [hk]; exact fun h => h) (fun h => h) (.inl trivial) (by simp)
    · simp at hs
  | receive k =>
    simp only [UnixMcpProxy.step] at hs
    split at hs
    · rename_i mail hk hc
      cases hs
      obtain ⟨-, hfor, hnone⟩ := h.sent k mail hc
      refine h.setPhase (by rw [hk]; exact fun h => h) (fun h => h) (.inr hnone) ?_
      intro mail' hmail
      obtain rfl := Except.ok.inj (Phase.returned.inj hmail)
      exact hfor
    · simp at hs
  | remove k =>
    simp only [UnixMcpProxy.step] at hs
    split at hs
    · rename_i error hk
      cases hs
      have hforget := h.forget (update_none_or p.pending (p.id k))
      refine hforget.setPhase (by dsimp only; rw [hk]; exact fun h => h) (fun h => h) ?_ (by simp)
      exact .inr (Function.update_self ..)
    · simp at hs
  | garbage =>
    simp only [UnixMcpProxy.step] at hs
    split at hs
    · cases hs
      exact h
    · simp at hs
  | frame v =>
    simp only [UnixMcpProxy.step] at hs
    split at hs
    · cases hs
      exact h.readFrame v
    · simp at hs
  | deliver =>
    simp only [UnixMcpProxy.step] at hs
    split at hs
    · simp at hs
    · rename_i k mail hk
      cases hs
      exact h.deliver hk
  | eof =>
    simp only [UnixMcpProxy.step] at hs
    split at hs
    · cases hs
      exact h.eof
    · simp at hs
  | recv =>
    simp only [UnixMcpProxy.step] at hs
    split at hs
    · rename_i v queue _ hq
      cases hs
      refine { h with forwarded := ?_ }
      rw [← h.forwarded, hq]
      simp
    · simp at hs
  | closeReceiver =>
    cases hs
    exact ⟨h.next, h.ids, h.bound, h.idle, h.pending, h.holding, h.sent, h.returned,
      h.forwarded, h.notified⟩

end

end UnixMcpProxy

/-- A notification that finds room is queued behind the others. -/
theorem readFrame_queue {p : UnixMcpProxy} {v : JsonValue} (hv : v.intId = none)
    (hopen : p.receiverOpen = true) (hroom : p.queue.length < NOTIFICATION_QUEUE_CAPACITY) :
    (p.readFrame v).queue = p.queue ++ [v] := by
  simp only [UnixMcpProxy.readFrame, hv]
  rw [if_pos ⟨hopen, hroom⟩]

/-- **Responses and notifications find their way.** A call returns only a frame with the id it
minted, no frame is returned by two calls, a call that has returned has no entry in the map;
and the frames without an integer id go to the receiver once each, in the order in which they
arrived, those apart that found the queue full or the receiver gone. -/
theorem proxy_demultiplexes {ops : List ProxyOp} {p : UnixMcpProxy}
    (h : Run ProxyStep UnixMcpProxy.connect ops p) :
    (∀ k mail, p.phase k = .returned (.ok mail) →
        mail.frame.intId = some (p.id k) ∧ p.arrived[mail.arrival]? = some mail.frame) ∧
      (∀ k l mail mail', p.phase k = .returned (.ok mail) → p.phase l = .returned (.ok mail') →
        mail.arrival = mail'.arrival → k = l) ∧
      (∀ k result, p.phase k = .returned result → p.pending (p.id k) = none) ∧
      p.received ++ p.queue = (p.notified.filter Prod.snd).map Prod.fst ∧
      p.notified.map Prod.fst = p.arrived.filter (fun v => v.intId.isNone) ∧
      ∀ v q, v.intId = none → p.receiverOpen = true →
        p.queue.length < NOTIFICATION_QUEUE_CAPACITY → ProxyStep p (.frame v) q →
          q.queue = p.queue ++ [v] := by
  have hinv : p.Inv := h.keeps (fun _ _ _ hi hs => hi.step hs) UnixMcpProxy.inv_connect
  refine ⟨hinv.returned, ?_, ?_, hinv.forwarded, hinv.notified, ?_⟩
  · intro k l mail mail' hk hl harrival
    obtain ⟨hid, hat⟩ := hinv.returned k mail hk
    obtain ⟨hid', hat'⟩ := hinv.returned l mail' hl
    -- the same frame has the same id, and the id belongs to one call
    rw [harrival, hat'] at hat
    rw [← some.inj hat, hid'] at hid
    refine hinv.id_inj (by rw [hk]; simp) (by rw [hl]; simp) (some.inj hid).symm
  · intro k result hk
    refine hinv.pending_none (by rw [hk]; simp) ?_
    rw [hk]
    exact fun h => h
  · intro v q hv hopen hroom hs
    simp only [ProxyStep, UnixMcpProxy.step] at hs
    split at hs
    · cases hs
      exact readFrame_queue hv hopen hroom
    · simp at hs

def firstResponse : JsonValue := .obj [(['i', 'd'], .int 1)]

/-- A call gets its response. -/
theorem proxy_demultiplexes_response : ∃ p : UnixMcpProxy, Run ProxyStep UnixMcpProxy.connect
        [.mint, .insert 0, .written 0, .frame firstResponse, .deliver, .receive 0] p ∧
      p.phase 0 = .returned (.ok ⟨0, firstResponse⟩) ∧ p.pending (p.id 0) = none := by
  have hrun : ∃ p : UnixMcpProxy, Run ProxyStep UnixMcpProxy.connect
      [.mint, .insert 0, .written 0, .frame firstResponse, .deliver, .receive 0] p ∧
        p.phase 0 = .returned (.ok ⟨0, firstResponse⟩) :=
    ⟨_, .cons rfl (.cons rfl (.cons rfl (.cons rfl (.cons rfl (.cons rfl .nil))))), rfl⟩
  obtain ⟨p, hrun, hphase⟩ := hrun
  exact ⟨p, hrun, hphase, (proxy_demultiplexes hrun).2.2.1 0 _ hphase⟩

/-- The proxy when `n` notifications are waiting. -/
def waiting (v : JsonValue) (n : Nat) : UnixMcpProxy :=
  { UnixMcpProxy.connect with
    queue := List.replicate n v
    arrived := List.replicate n v
    notified := List.replicate n (v, true) }

theorem run_waiting {v : JsonValue} (hv : v.intId = none) {n : Nat}
    (hn : n ≤ NOTIFICATION_QUEUE_CAPACITY) :
    Run ProxyStep UnixMcpProxy.connect (List.replicate n (.frame v)) (waiting v n) := by
  induction n with
  | zero => exact .nil
  | succ n ih =>
    have hstep : ProxyStep (waiting v n) (.frame v) (waiting v (n + 1)) := by
      have hroom : (waiting v n).receiverOpen = true ∧
          (waiting v n).queue.length < NOTIFICATION_QUEUE_CAPACITY := by
        refine ⟨rfl, ?_⟩
        rw [waiting, length_replicate]
        omega
      rw [ProxyStep, UnixMcpProxy.step, if_pos ⟨rfl, rfl⟩, UnixMcpProxy.readFrame]
      simp only [hv]
      rw [if_pos hroom]
      simp only [waiting, replicate_succ']
    rw [replicate_succ']
    exact (ih (by omega)).snoc hstep

/-- The 257th notification finds the queue full and is lost. -/
theorem proxy_drops_notification :
    ∃ (ops : List ProxyOp) (p : UnixMcpProxy), Run ProxyStep UnixMcpProxy.connect ops p ∧
      p.receiverOpen = true ∧ (∀ v ∈ p.arrived, v.intId = none) ∧
      p.received ++ p.queue ≠ p.arrived := by
  have hrun := run_waiting (v := .null) rfl (le_refl NOTIFICATION_QUEUE_CAPACITY)
  have hfull : ¬ ((waiting .null NOTIFICATION_QUEUE_CAPACITY).receiverOpen = true ∧
      (waiting .null NOTIFICATION_QUEUE_CAPACITY).queue.length < NOTIFICATION_QUEUE_CAPACITY) := by
    rintro ⟨-, hlt⟩
    rw [waiting, length_replicate] at hlt
    omega
  have hstep : ProxyStep (waiting .null NOTIFICATION_QUEUE_CAPACITY) (.frame .null)
      { waiting .null NOTIFICATION_QUEUE_CAPACITY with
        arrived := (waiting .null NOTIFICATION_QUEUE_CAPACITY).arrived ++ [.null]
        notified := (waiting .null NOTIFICATION_QUEUE_CAPACITY).notified ++ [(.null, false)] } := by
    rw [ProxyStep, UnixMcpProxy.step, if_pos ⟨rfl, rfl⟩, UnixMcpProxy.readFrame]
    simp only [show JsonValue.null.intId = none from rfl]
    rw [if_neg hfull]
  refine ⟨_, _, hrun.snoc hstep, rfl, ?_, ?_⟩
  · intro v hv
    rcases List.mem_append.mp hv with hv | hv
    · rw [(List.mem_replicate.mp hv).2]
      rfl
    · rw [List.mem_singleton.mp hv]
      rfl
  · intro heq
    have := congrArg List.length heq
    simp [waiting, UnixMcpProxy.connect] at this

end SpkEditor.Remote
