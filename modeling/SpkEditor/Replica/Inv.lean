import SpkEditor.Lib.Loop
import SpkEditor.Text.Compose
import SpkEditor.Replica.World

/-!
# What holds of every replica

`ReplicaInv` is the invariant of one replica: its snapshot is well-formed and mirrors
the document, its clock is ahead of everything it has observed, and its history and
its queue hold nothing but operations that were made. `WorldInv` says so for all of
them, and that the operations made are in order.

`Follows` is the other thing every action keeps: whatever a subscriber has not read
yet still describes how the text came about.
-/

namespace SpkEditor

open List Option

variable {entry : Option HistoryEntry} {h h' : History}

namespace History

def editIds (h : History) : List Lamport :=
  (h.undoStack ++ h.redoStack).flatMap fun e => e.transaction.editIds

/-- A history that something has happened to. -/
def Started (h : History) : Prop :=
  0 < h.transactionDepth ∨ h.undoStack ≠ [] ∨ h.redoStack ≠ []

structure NoMore (h h' : History) : Prop where
  editIds : ∀ e ∈ h'.editIds, e ∈ h.editIds
  started : h'.Started → h.Started

theorem NoMore.refl (h : History) : h.NoMore h := ⟨fun _ he => he, fun hs => hs⟩

theorem NoMore.trans {h₁ h₂ h₃ : History} (h : h₁.NoMore h₂) (h' : h₂.NoMore h₃) :
    h₁.NoMore h₃ := ⟨fun e he => h.editIds e (h'.editIds e he), fun hs => h.started (h'.started hs)⟩

theorem mem_editIds {e : Lamport} :
    e ∈ h.editIds ↔ ∃ x, (x ∈ h.undoStack ∨ x ∈ h.redoStack) ∧ e ∈ x.transaction.editIds := by
  simp only [editIds, mem_flatMap, mem_append]

/-- Moving entries between the stacks, dropping some, adds nothing. -/
theorem NoMore.of_subset (hd : h'.transactionDepth ≤ h.transactionDepth)
    (hs : ∀ x, x ∈ h'.undoStack ∨ x ∈ h'.redoStack →
      ∃ y, (y ∈ h.undoStack ∨ y ∈ h.redoStack) ∧
        ∀ e ∈ x.transaction.editIds, e ∈ y.transaction.editIds) : h.NoMore h' := by
  refine ⟨fun e he => ?_, fun hst => ?_⟩
  · obtain ⟨x, hx, hex⟩ := mem_editIds.mp he
    obtain ⟨y, hy, hsub⟩ := hs x hx
    exact mem_editIds.mpr ⟨y, hy, hsub e hex⟩
  · have hsome : ∀ x, x ∈ h'.undoStack ∨ x ∈ h'.redoStack → h.Started := by
      intro x hx
      obtain ⟨y, hy, -⟩ := hs x hx
      rcases hy with hy | hy
      · exact .inr (.inl (ne_nil_of_mem hy))
      · exact .inr (.inr (ne_nil_of_mem hy))
    rcases hst with hst | hst | hst
    · exact .inl (by omega)
    · obtain ⟨x, hx⟩ := exists_mem_of_ne_nil _ hst
      exact hsome x (.inl hx)
    · obtain ⟨x, hx⟩ := exists_mem_of_ne_nil _ hst
      exact hsome x (.inr hx)

section

variable (h : History)

theorem noMore_groupTrailing (n : Nat) : h.NoMore (h.groupTrailing n) := by
  unfold groupTrailing
  cases hd : h.undoStack.drop n with
  | nil =>
    refine NoMore.of_subset (le_refl _) (fun x hx => ?_)
    refine ⟨x, .inr ?_, fun _ he => he⟩
    exact hx.resolve_left (by simp)
  | cons last stack =>
    have hmem : ∀ x, x ∈ last :: stack → x ∈ h.undoStack := fun x hx =>
      mem_of_mem_drop (hd ▸ hx)
    refine ⟨fun e he => ?_, fun hst => ?_⟩
    · obtain ⟨x, hx, hex⟩ := mem_editIds.mp he
      rw [mem_editIds]
      rcases hx with hx | hx
      · rcases List.mem_cons.mp hx with rfl | hx
        · rcases List.mem_append.mp hex with hex | hex
          · exact ⟨last, .inl (hmem last (by simp)), hex⟩
          · obtain ⟨y, hy, hey⟩ := List.mem_flatMap.mp hex
            exact ⟨y, .inl (mem_of_mem_take (List.mem_reverse.mp hy)), hey⟩
        · exact ⟨x, .inl (hmem x (mem_cons_of_mem _ hx)), hex⟩
      · exact ⟨x, .inr hx, hex⟩
    · exact .inr (.inl (ne_nil_of_mem (hmem last (by simp))))

theorem noMore_group : h.NoMore h.group := by
  unfold group
  split <;> exact noMore_groupTrailing ..

theorem noMore_groupUntil (t : Lamport) : h.NoMore (h.groupUntil t) := by
  unfold groupUntil
  split
  · exact NoMore.refl h
  · exact noMore_groupTrailing ..

theorem noMore_finalizeLastTransaction : h.NoMore h.finalizeLastTransaction := by
  unfold finalizeLastTransaction
  split
  · exact NoMore.refl h
  · rename_i entry stack heq
    refine NoMore.of_subset (le_refl _) (fun x hx => ?_)
    rcases hx with hx | hx
    · rcases List.mem_cons.mp hx with rfl | hx
      · exact ⟨entry, .inl (by rw [heq]; simp), fun _ he => he⟩
      · exact ⟨x, .inl (by rw [heq]; simp [hx]), fun _ he => he⟩
    · exact ⟨x, .inr hx, fun _ he => he⟩

end

theorem noMore_endTransaction {now : Nat}
    (heq : h.endTransaction now = some (h', entry)) : h.NoMore h' := by
  unfold endTransaction at heq
  split at heq
  · cases heq
  rename_i hdepth
  dsimp only at heq
  split at heq
  · split at heq
    · cases heq
    · rename_i entry stack hstack
      split at heq
      · cases heq
        refine NoMore.of_subset (Nat.sub_le ..) (fun x hx => ⟨x, ?_, fun _ he => he⟩)
        exact hx.imp (fun hx => by rw [hstack]; simp [hx]) id
      · cases heq
        refine NoMore.of_subset (Nat.sub_le ..) (fun x hx => ?_)
        rcases hx with hx | hx
        · rcases List.mem_cons.mp hx with rfl | hx
          · exact ⟨entry, .inl (by rw [hstack]; simp), fun _ he => he⟩
          · exact ⟨x, .inl (by rw [hstack]; simp [hx]), fun _ he => he⟩
        · exact absurd hx (not_mem_nil)
  · cases heq
    exact NoMore.of_subset (Nat.sub_le ..) (fun x hx => ⟨x, hx, fun _ he => he⟩)

/-- What `pop_undo`, `pop_redo` and `remove_from_undo` give back was there. -/
structure Takes (h h' : History) (entries : List HistoryEntry) : Prop where
  noMore : h.NoMore h'
  mem : ∀ x ∈ entries, x ∈ h.undoStack ∨ x ∈ h.redoStack

theorem Takes.nothing (h : History) : h.Takes h [] := ⟨NoMore.refl h, by simp⟩

theorem Takes.of_moved {entries : List HistoryEntry} (hd : h'.transactionDepth = h.transactionDepth)
    (hstacks : ∀ x, x ∈ h'.undoStack ∨ x ∈ h'.redoStack → x ∈ h.undoStack ∨ x ∈ h.redoStack)
    (hmem : ∀ x ∈ entries, x ∈ h'.undoStack ∨ x ∈ h'.redoStack) : h.Takes h' entries :=
  ⟨NoMore.of_subset (le_of_eq hd) fun x hx => ⟨x, hstacks x hx, fun _ he => he⟩,
    fun x hx => hstacks x (hmem x hx)⟩

theorem takes_popUndo (heq : h.popUndo = some (h', entry)) : h.Takes h' entry.toList := by
  unfold popUndo at heq
  split at heq
  · cases heq
  split at heq
  · cases heq
    exact Takes.nothing h
  · rename_i entry stack hstack
    cases heq
    refine Takes.of_moved rfl (fun x hx => ?_) (by simp)
    simp only [mem_cons] at hx
    rw [hstack, mem_cons]
    tauto

theorem takes_popRedo (heq : h.popRedo = some (h', entry)) : h.Takes h' entry.toList := by
  unfold popRedo at heq
  split at heq
  · cases heq
  split at heq
  · cases heq
    exact Takes.nothing h
  · rename_i entry stack hstack
    cases heq
    refine Takes.of_moved rfl (fun x hx => ?_) (by simp)
    simp only [mem_cons] at hx
    rw [hstack, mem_cons]
    tauto

section

variable {t : Lamport}

theorem takes_removeFromUndo (heq : h.removeFromUndo t = some (h', entry)) : h.Takes h' entry.toList := by
  unfold removeFromUndo at heq
  split at heq
  · cases heq
  split at heq
  · cases heq
    exact Takes.nothing h
  · rename_i entry hfind
    have hmem := List.mem_of_find?_eq_some hfind
    cases heq
    refine Takes.of_moved rfl (fun x hx => ?_) (by simp)
    rw [mem_cons] at hx
    rcases hx with hx | rfl | hx
    · exact .inl (mem_of_mem_eraseP hx)
    · exact .inl hmem
    · exact .inr hx

theorem splitUntil_append : ∀ {stack moved rest : List HistoryEntry},
    splitUntil t stack = some (moved, rest) → stack = moved ++ rest
  | [], _, _, h => absurd h (by simp [splitUntil])
  | entry :: stack, moved, rest, h => by
      unfold splitUntil at h
      split at h
      · cases h
        rfl
      · obtain ⟨r, hr, rfl, rfl⟩ := map_eq_some_pair h
        rw [splitUntil_append (show splitUntil t stack = some (r.1, r.2) from hr)]
        rfl

theorem takes_removeFromUndoUntil {entries : List HistoryEntry}
    (heq : h.removeFromUndoUntil t = some (h', entries)) : h.Takes h' entries := by
  unfold removeFromUndoUntil at heq
  split at heq
  · cases heq
  split at heq
  · cases heq
    exact Takes.nothing h
  · rename_i moved stack hsplit
    have happ := splitUntil_append hsplit
    cases heq
    refine Takes.of_moved rfl (fun x hx => ?_) (by simp +contextual)
    rw [mem_append, mem_reverse] at hx
    rw [happ, mem_append]
    tauto

theorem takes_removeFromRedo {entries : List HistoryEntry}
    (heq : h.removeFromRedo t = some (h', entries)) : h.Takes h' entries := by
  unfold removeFromRedo at heq
  split at heq
  · cases heq
  split at heq
  · cases heq
    exact Takes.nothing h
  · rename_i moved stack hsplit
    have happ := splitUntil_append hsplit
    cases heq
    refine Takes.of_moved rfl (fun x hx => ?_) (by simp +contextual)
    rw [mem_append, mem_reverse] at hx
    rw [happ, mem_append]
    tauto

end

end History

/-- A version that has observed the base text and nothing else of its replica comes from a
group that has a base text. -/
def Based (baseText : List Char) (v : Global) : Prop := v.get 0 = 1 → normalize baseText ≠ []

theorem Based.observe {baseText : List Char} {v : Global} {t : Lamport} (h : Based baseText v)
    (hpos : 0 < t.value) (hb : t ≠ baseId) : Based baseText (v.observe t) := by
  intro hget
  rw [Global.get_observe] at hget
  split at hget
  · rename_i hr
    have hne : t.value ≠ 1 := fun hv => hb (Lamport.ext_iff'.mpr ⟨hv, hr.symm⟩)
    omega
  · exact h hget

/-- **The invariant of a replica.** -/
structure ReplicaInv (baseText : List Char) (sent : List Operation) (r : Nat) (b : Buffer) :
    Prop where
  wf : Wf (byteOf baseText sent) b.snapshot
  mirrors : Mirrors (Doc.of baseText sent) sent b.snapshot
  replica : b.lamportClock.replicaId = r
  clock : ∀ q, b.snapshot.version.get q < b.lamportClock.value
  started : b.history.Started → 2 ≤ b.lamportClock.value
  own : ∀ op ∈ sent, op.replicaId = r → b.snapshot.version.observed op.timestamp = true
  deferred : ∀ op ∈ b.deferredOps, op ∈ sent
  queued : KeyedList.Sorted Operation.timestamp b.deferredOps
  based : Based baseText b.snapshot.version
  edits : ∀ e ∈ b.history.editIds, ∃ op, Operation.edit op ∈ sent ∧ op.timestamp = e ∧
    op.timestamp.replicaId = r

/-- **The invariant of the group.** -/
structure WorldInv (baseText : List Char) (w : World) : Prop where
  causal : Causal w.sent
  based : ∀ op ∈ w.sent, Based baseText op.version
  doc : DocInv baseText w.sent (Doc.of baseText w.sent)
  replicas : ∀ r, ReplicaInv baseText w.sent r (w.bufs r)

/-- What an action keeps of a buffer: what subscribers have not read still describes how
the text came about, nothing observed is forgotten, and the buffer keeps its name. -/
structure Follows (b b' : Buffer) : Prop where
  patches : ∀ (i : Nat) (p : Patch), b.subscriptions[i]? = some p →
    ∃ p' : Patch, b'.subscriptions[i]? = some p' ∧
      ∀ t, p.Describes t b.text → p'.Describes t b'.text
  version : b'.snapshot.version.observedAll b.snapshot.version = true
  remoteId : b'.snapshot.remoteId = b.snapshot.remoteId

theorem Follows.refl (b : Buffer) : Follows b b :=
  ⟨fun _ p hp => ⟨p, hp, fun _ h => h⟩, Global.observedAll_refl _, rfl⟩

theorem Follows.trans {b₁ b₂ b₃ : Buffer} (h : Follows b₁ b₂) (h' : Follows b₂ b₃) :
    Follows b₁ b₃ := by
  refine ⟨fun i p hp => ?_, Global.observedAll_trans h'.version h.version,
    h'.remoteId.trans h.remoteId⟩
  obtain ⟨p₂, hp₂, hd₂⟩ := h.patches i p hp
  obtain ⟨p₃, hp₃, hd₃⟩ := h'.patches i p₂ hp₂
  exact ⟨p₃, hp₃, fun t ht => hd₃ t (hd₂ t ht)⟩

theorem Follows.of_eq {b b' : Buffer} (hs : b'.snapshot = b.snapshot)
    (hsub : b'.subscriptions = b.subscriptions) : Follows b b' := by
  refine ⟨fun i p hp => ⟨p, by rw [hsub]; exact hp, fun t ht => ?_⟩, by
    rw [hs]; exact Global.observedAll_refl _, by rw [hs]⟩
  rw [Buffer.text, hs]
  exact ht

theorem Follows.of_publish {b b' : Buffer} {patch : Patch}
    (hsub : b'.subscriptions = (b.publish patch).subscriptions)
    (hd : patch.Describes b.text b'.text)
    (hv : b'.snapshot.version.observedAll b.snapshot.version = true)
    (hr : b'.snapshot.remoteId = b.snapshot.remoteId) : Follows b b' := by
  refine ⟨fun i p hp => ⟨p.compose patch, ?_, fun t ht => Patch.describes_compose ht hd⟩, hv, hr⟩
  rw [hsub, Buffer.publish]
  simp [hp]

section

variable {baseText : List Char} {sent : List Operation} {r : Nat} {b b' : Buffer}

/-- The invariant does not depend on what a replica remembers of its past, as long as it is
no more than before. -/
theorem ReplicaInv.of_history (h : ReplicaInv baseText sent r b) (hs : b'.snapshot = b.snapshot)
    (hq : b'.deferredOps = b.deferredOps) (hc : b'.lamportClock = b.lamportClock)
    (hh : b.history.NoMore b'.history) : ReplicaInv baseText sent r b' := by
  refine ⟨by rw [hs]; exact h.wf, by rw [hs]; exact h.mirrors, by rw [hc]; exact h.replica,
    by rw [hs, hc]; exact h.clock, ?_, by rw [hs]; exact h.own, by rw [hq]; exact h.deferred,
    by rw [hq]; exact h.queued, by rw [hs]; exact h.based, ?_⟩
  · intro hst
    rw [hc]
    exact h.started (hh.started hst)
  · intro e he
    exact h.edits e (hh.editIds e he)

theorem ReplicaInv.new (cfg : Profile) (remoteId : Nat) (baseText : List Char) (r : Nat) :
    ReplicaInv baseText [] r (Buffer.new cfg r remoteId baseText) := by
  have hempty : ∀ {x : CharId}, x ∈ (Doc.base baseText).order → normalize baseText ≠ [] := by
    intro x hx hnil
    simp [Doc.base, hnil] at hx
  have hversion : (Buffer.new cfg r remoteId baseText).snapshot.version =
      if normalize baseText = [] then Global.new else Global.new.observe baseId := rfl
  have hclock : (Buffer.new cfg r remoteId baseText).lamportClock =
      if normalize baseText = [] then Lamport.new r else (Lamport.new r).observe baseId := rfl
  refine ⟨Wf.new cfg r remoteId baseText (byteOf_base baseText []), ?_, ?_, ?_, ?_, by simp,
    by simp [Buffer.new], List.Pairwise.nil, ?_, by simp [Buffer.new, History.editIds]⟩
  · refine ⟨?_, ?_, ?_, by simp [Closed], ?_, ?_⟩
    · rw [new_cells, List.map_map]
      show _ = (Doc.base baseText).order.filter _
      rw [List.filter_eq_self.mpr]
      · rfl
      · intro x hx
        have hne := hempty hx
        obtain ⟨o, -, rfl⟩ := List.mem_map.mp hx
        rw [hversion, if_neg hne]
        exact Global.observed_observe_self ..
    · intro c hc d
      rw [new_cells] at hc
      obtain ⟨o, -, rfl⟩ := List.mem_map.mp hc
      simp [Cell.inserted, Doc.of, Doc.base]
    · intro e
      simp [Buffer.new, Doc.of, Doc.base]
    · intro q hq
      rw [hversion] at hq ⊢
      split at hq
      · simp at hq
      · rename_i hne
        rw [if_neg hne]
        rw [Global.get_observe] at hq ⊢
        split at hq
        · rename_i hq0
          rw [if_pos hq0, hq0]
          refine .inl ?_
          simp [baseId, Lamport.new]
        · simp at hq
    · intro x hx _
      rw [hversion, if_neg (hempty hx)]
      exact Global.observed_observe_self ..
  · rw [hclock]
    split <;> rfl
  · intro q
    rw [hversion, hclock]
    split
    · simp [Lamport.new]
    · rw [Global.get_observe, Lamport.observe_value]
      split <;> simp [baseId, Lamport.new]
  · intro hst
    simp [Buffer.new, History.Started] at hst
  · intro hget hnil
    rw [hversion, if_pos hnil] at hget
    simp at hget

end

/-- **The invariant holds at the start.** -/
theorem WorldInv.init (cfg : Profile) (remoteId : Nat) (baseText : List Char) :
    WorldInv baseText (World.init cfg remoteId baseText) :=
  ⟨Causal.nil, by simp [World.init], DocInv.base baseText, fun r => ReplicaInv.new cfg remoteId baseText r⟩

end SpkEditor
