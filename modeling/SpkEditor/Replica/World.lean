import SpkEditor.Lib.Run
import SpkEditor.Replica.Mirror

/-!
# A group of replicas

Every replica starts from the same base text. Then anything can happen, in any order:
a replica edits, opens and closes transactions, undoes and redoes, or receives any
operations ever made, any number of times, in batches of any kind. `World.sent`
records the operations in the order they were made; no replica sees it.

A step that would panic is no step.
-/

namespace SpkEditor

variable {sent : List Operation} {baseText : List Char}

/-- What can happen at a replica. -/
inductive Action where
  | edit (edits : List (Range × List Char)) (startedAt endedAt : Nat)
  | startTransaction (now : Nat)
  | endTransaction (now : Nat)
  | finalizeLastTransaction
  | groupUntilTransaction (transactionId : Lamport)
  | setGroupInterval (interval : Nat)
  | undo
  | redo
  | undoTransaction (transactionId : Lamport)
  | undoToTransaction (transactionId : Lamport)
  | redoToTransaction (transactionId : Lamport)
  | applyOps (ops : List Operation)
  | subscribe
  | consume (subscription : Nat)

def Buffer.act (cfg : Profile) (b : Buffer) : Action → Option (Buffer × List Operation)
  | .edit edits startedAt endedAt =>
    (b.edit cfg edits startedAt endedAt).map fun r => (r.1, [r.2])
  | .startTransaction now => (b.startTransactionAt now).map fun r => (r.1, [])
  | .endTransaction now => (b.endTransactionAt now).map fun b => (b, [])
  | .finalizeLastTransaction => some (b.finalizeLastTransaction, [])
  | .groupUntilTransaction transactionId => some (b.groupUntilTransaction transactionId, [])
  | .setGroupInterval interval => some (b.setGroupInterval interval, [])
  | .undo => b.undo.map fun r => (r.1, r.2.toList)
  | .redo => b.redo.map fun r => (r.1, r.2.toList)
  | .undoTransaction transactionId =>
    (b.undoTransaction transactionId).map fun r => (r.1, r.2.toList)
  | .undoToTransaction transactionId => b.undoToTransaction transactionId
  | .redoToTransaction transactionId => b.redoToTransaction transactionId
  | .applyOps ops => (b.applyOps cfg ops).map fun b => (b, [])
  | .subscribe => some (b.subscribe, [])
  | .consume subscription => some ((b.consume subscription).1, [])

/-- The replicas, and the operations they have made. -/
structure World where
  bufs : Nat → Buffer
  sent : List Operation

namespace World

/-- Every replica holds the base text. -/
def init (cfg : Profile) (remoteId : Nat) (baseText : List Char) : World :=
  ⟨fun r => Buffer.new cfg r remoteId baseText, []⟩

/-- One replica moves on, having made some operations. -/
def set (w : World) (r : Nat) (b : Buffer) (ops : List Operation) : World :=
  ⟨Function.update w.bufs r b, w.sent ++ ops⟩

end World

/-- Edits have ranges that are in order, do not overlap, and lie on character boundaries of
the text; operations that are received have been made. -/
def Action.Allowed (w : World) (r : Nat) : Action → Prop
  | .edit edits _ _ =>
    ValidRanges 0 (edits.map Prod.fst) (w.bufs r).text.length ∧
      ∀ e ∈ edits, isCharBoundary (w.bufs r).text e.1.start = true ∧
        isCharBoundary (w.bufs r).text e.1.stop = true
  | .applyOps ops => ∀ op ∈ ops, op ∈ w.sent
  | _ => True

instance (w : World) (r : Nat) (a : Action) : Decidable (a.Allowed w r) :=
  match a with
  | .edit .. => inferInstanceAs (Decidable (_ ∧ _))
  | .applyOps .. => inferInstanceAs (Decidable (∀ op ∈ _, op ∈ _))
  | .startTransaction _ | .endTransaction _ | .finalizeLastTransaction | .groupUntilTransaction _
  | .setGroupInterval _ | .undo | .redo | .undoTransaction _ | .undoToTransaction _
  | .redoToTransaction _ | .subscribe | .consume _ => inferInstanceAs (Decidable True)

/-- **One step of the group**: an action at one replica. -/
def World.Step (cfg : Profile) (w : World) (a : Nat × Action) (w' : World) : Prop :=
  a.2.Allowed w a.1 ∧ ∃ b ops, (w.bufs a.1).act cfg a.2 = some (b, ops) ∧ w' = w.set a.1 b ops

/-- The states a group that starts from a base text can get into. -/
def World.Reachable (cfg : Profile) (remoteId : Nat) (baseText : List Char) (w : World) : Prop :=
  ∃ as, Run (World.Step cfg) (World.init cfg remoteId baseText) as w

/-- The group after an action, run. -/
def World.next (cfg : Profile) (w : World) (a : Nat × Action) : Option World :=
  if a.2.Allowed w a.1 then ((w.bufs a.1).act cfg a.2).map fun r => w.set a.1 r.1 r.2 else none

/-- The group after one action after another. -/
def World.nexts (cfg : Profile) : List (Nat × Action) → World → Option World
  | [], w => some w
  | a :: as, w =>
    match w.next cfg a with
    | none => none
    | some w => World.nexts cfg as w

theorem World.step_next {cfg : Profile} {w w' : World} {a : Nat × Action}
    (h : w.next cfg a = some w') : World.Step cfg w a w' := by
  unfold World.next at h
  split at h
  · rename_i hallow
    obtain ⟨⟨b, ops⟩, heq, rfl⟩ := Option.map_eq_some_iff.mp h
    exact ⟨hallow, b, ops, heq, rfl⟩
  · cases h

theorem World.run_nexts {cfg : Profile} : ∀ {as : List (Nat × Action)} {w w' : World},
    World.nexts cfg as w = some w' → Run (World.Step cfg) w as w'
  | [], w, w', h => by
      cases h
      exact .nil
  | a :: as, w, w', h => by
      unfold World.nexts at h
      split at h
      · cases h
      · rename_i w₁ hnext
        exact .cons (World.step_next hnext) (World.run_nexts h)

/-- The group after a run, or as it was if the run panics. -/
def World.after (cfg : Profile) (as : List (Nat × Action)) (w : World) : World :=
  (World.nexts cfg as w).getD w

theorem World.run_after {cfg : Profile} {as : List (Nat × Action)} {w : World}
    (h : (World.nexts cfg as w).isSome = true) : Run (World.Step cfg) w as (World.after cfg as w) := by
  obtain ⟨w', hw'⟩ := Option.isSome_iff_exists.mp h
  rw [World.after, hw']
  exact World.run_nexts hw'

/-! ## Inserted text -/

def contentOf (baseText : List Char) (sent : List Operation) (t : Lamport) : List UInt8 :=
  if t = baseId then utf8 (normalize baseText)
  else (sent.findSome? fun op => match op with
    | .edit e => if e.timestamp = t then some (utf8 e.newText.flatten) else none
    | .undo _ => none).getD []

def byteOf (baseText : List Char) (sent : List Operation) (t : Lamport) (i : Nat) : UInt8 :=
  (contentOf baseText sent t).getD i 0

theorem map_getD_range (l : List UInt8) : (List.range' 0 l.length).map (fun i => l.getD i 0) = l := by
  refine List.ext_getElem (by simp) (fun i h1 h2 => ?_)
  simp [h2]

theorem byteOf_base (baseText : List Char) (sent : List Operation) :
    (List.range' 0 (byteLen (normalize baseText))).map (byteOf baseText sent baseId) =
      utf8 (normalize baseText) := by
  have h : contentOf baseText sent baseId = utf8 (normalize baseText) := if_pos rfl
  rw [← h, ← length_utf8, ← h]
  exact map_getD_range _

section

variable (hc : Causal sent) {edit : EditOperation} (hop : Operation.edit edit ∈ sent)
include hc hop

theorem contentOf_edit :
    contentOf baseText sent edit.timestamp = utf8 edit.newText.flatten := by
  have hne : edit.timestamp ≠ baseId := hc.not_base _ hop
  rw [contentOf, if_neg hne]
  obtain ⟨found, hfound⟩ : ∃ x, (sent.findSome? fun op => match op with
      | .edit e => if e.timestamp = edit.timestamp then some (utf8 e.newText.flatten) else none
      | .undo _ => none) = some x := by
    rw [← Option.isSome_iff_exists, List.findSome?_isSome_iff]
    exact ⟨_, hop, by simp⟩
  rw [hfound, Option.getD_some]
  obtain ⟨op, hop', heq⟩ := List.exists_of_findSome?_eq_some hfound
  cases op with
  | undo u => simp at heq
  | edit e =>
    simp only [Option.ite_none_right_eq_some, Option.some.injEq] at heq
    have := hc.eq_of_timestamp hop' hop heq.1
    rw [← heq.2, Operation.edit.inj this]

theorem byteOf_edit :
    (List.range' 0 (byteLen edit.newText.flatten)).map (byteOf baseText sent edit.timestamp) =
      utf8 edit.newText.flatten := by
  have h : contentOf baseText sent edit.timestamp = _ := contentOf_edit hc hop
  rw [← h, ← length_utf8, ← h]
  exact map_getD_range _

end

theorem contentOf_snoc {op : Operation} {t : Lamport}
    (h : t ≠ op.timestamp) : contentOf baseText (sent ++ [op]) t = contentOf baseText sent t := by
  unfold contentOf
  split
  · rfl
  · rw [List.findSome?_append]
    have : List.findSome? (fun op => match op with
        | .edit e => if e.timestamp = t then some (utf8 e.newText.flatten) else none
        | .undo _ => none) [op] = none := by
      cases op with
      | undo u => rfl
      | edit e =>
        have hne : e.timestamp ≠ t := fun heq => h heq.symm
        simp [hne]
    rw [this, Option.or_none]

end SpkEditor
