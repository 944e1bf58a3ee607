import SpkEditor.Replica.Convergence

/-!
# Subscriptions

Between two reads a subscription composes the patches of edits, remote operations and
undos. Each of them describes how the text changed (`Follows`), so the patch that is
read describes how the text of the first read became that of the second.
-/

namespace SpkEditor

section

variable {baseText : List Char} {cfg : Profile} {remoteId r : Nat} {w w' : World}

def Tracks (r i : Nat) (text : List UInt8) (w : World) : Prop :=
  ∃ p : Patch, (w.bufs r).subscriptions[i]? = some p ∧ p.Describes text (w.bufs r).text

theorem Tracks.step {i : Nat} {text : List UInt8} {a : Nat × Action} (hw : WorldInv baseText w)
    (h : Tracks r i text w) (ha : a ≠ (r, .consume i)) (hs : World.Step cfg w a w') :
    Tracks r i text w' := by
  obtain ⟨q, a⟩ := a
  by_cases hq : r = q
  · subst hq
    obtain ⟨p, hp, hd⟩ := h
    obtain ⟨hallow, b, ops, heq, rfl⟩ := hs
    unfold Tracks
    rw [World.bufs_set]
    by_cases hc : ∃ j, a = .consume j
    · -- another subscription is read
      obtain ⟨j, rfl⟩ := hc
      cases heq
      have hj : j ≠ i := fun hj => ha (by rw [hj])
      refine ⟨p, ?_, hd⟩
      show ((w.bufs r).subscriptions.set j [])[i]? = some p
      rw [List.getElem?_set_ne hj]
      exact hp
    · obtain ⟨p', hp', hd'⟩ := ((hw.act hallow heq).2 (fun j hj => hc ⟨j, hj⟩)).patches i p hp
      exact ⟨p', hp', hd' text hd⟩
  · unfold Tracks
    rw [hs.other hq]
    exact h

/-- **What a subscription reads is exact.** A subscription is read, anything happens but
another read of it, and it is read again: the edits are apart, and carried out on the
first text they give the second. -/
theorem subscription_exact (hw : World.Reachable cfg remoteId baseText w) {r i : Nat}
    (hi : i < (w.bufs r).subscriptions.length) {as : List (Nat × Action)}
    (hrun : Run (World.Step cfg) (w.set r ((w.bufs r).consume i).1 []) as w')
    (hno : (r, Action.consume i) ∉ as) :
    ((w'.bufs r).consume i).2.Pairwise
        (fun a b => a.old.stop < b.old.start ∧ a.new.stop < b.new.start) ∧
      (∀ e ∈ ((w'.bufs r).consume i).2, e.old.start ≤ e.old.stop ∧ e.new.start ≤ e.new.stop) ∧
      ((w'.bufs r).consume i).2.applyTo (w.bufs r).text (w'.bufs r).text = (w'.bufs r).text := by
  have hstart : WorldInv baseText (w.set r ((w.bufs r).consume i).1 []) :=
    (hw.inv.act (show Action.Allowed w r (.consume i) from trivial)
      (show (w.bufs r).act cfg (.consume i) = _ from rfl)).1
  have htracks : Tracks r i (w.bufs r).text (w.set r ((w.bufs r).consume i).1 []) := by
    refine ⟨[], ?_, ?_⟩
    · rw [World.bufs_set, Buffer.consume, List.getElem?_set_self hi]
    · rw [World.bufs_set]
      exact Patch.describes_nil _
  obtain ⟨-, p, hp, hd⟩ := hrun.invariant (fun _ _ _ h hs => h.step hs)
    (fun x a y hx ht ha hs => ht.step hx (fun heq => hno (heq ▸ ha)) hs) hstart htracks
  have heq : ((w'.bufs r).consume i).2 = p := by
    rw [Buffer.consume, List.getD_eq_getElem?_getD, hp]
    rfl
  rw [heq]
  exact ⟨hd.separated.pairwise hd.runs.ordered, hd.runs.ordered, hd.applyTo_eq⟩

/-- Replica 1 has a subscriber, and replica 2 has made an edit. -/
def subscribed : World :=
  World.after .test [(1, .subscribe), (2, .edit [(⟨1, 2⟩, ['x'])] 0 0)]
    (World.init .test 7 ['a', 'b'])

/-- Replica 1 inserts and undoes, and the edit arrives. -/
def afterRead : List (Nat × Action) :=
  [(1, .edit [(⟨0, 0⟩, ['y'])] 0 0), (1, .undo),
    (1, .applyOps [.edit ⟨⟨3, 2⟩, Global.new.observe ⟨1, 0⟩, [⟨1, 2⟩], [['x']]⟩])]

def readAgain : World :=
  World.after .test afterRead (subscribed.set 1 ((subscribed.bufs 1).consume 0).1 [])

theorem subscription_exact_readAgain :
    ((readAgain.bufs 1).consume 0).2 = [⟨⟨1, 2⟩, ⟨1, 2⟩⟩] ∧
      ((readAgain.bufs 1).consume 0).2.applyTo (subscribed.bufs 1).text (readAgain.bufs 1).text =
        (readAgain.bufs 1).text := by
  have hreach : World.Reachable .test 7 ['a', 'b'] subscribed := ⟨_, World.run_after (by decide)⟩
  exact ⟨by decide, (subscription_exact hreach (by decide)
    (World.run_after (show (World.nexts .test afterRead _).isSome = true by decide))
    (by simp [afterRead])).2.2⟩

end

end SpkEditor
