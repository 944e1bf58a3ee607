import SpkEditor.Replica.Reachable

/-!
# Convergence

What a replica holds is a function of the shared document and of the replica's version
(`ReplicaInv.chars_eq`, `ReplicaInv.text_eq`). Two replicas at the same version
therefore hold the same thing, however their fragments are cut.
-/

namespace SpkEditor

/-- The inserted bytes in document order: insertion, offset in it, and whether it is
visible. -/
def BufferSnapshot.chars (s : BufferSnapshot) : List (Lamport × Nat × Bool) :=
  s.fragments.flatMap fun f =>
    (List.range' f.insertionOffset f.len).map fun o => (f.timestamp, o, f.visible)

/-- The bytes of the document that a version has observed, with what it can see. -/
def Doc.chars (doc : Doc) (v : Global) : List (Lamport × Nat × Bool) :=
  (doc.view v).map fun x => (x.1, x.2, doc.wasVisible v x)

def Doc.textAt (doc : Doc) (byte : Lamport → Nat → UInt8) (v : Global) : List UInt8 :=
  ((doc.view v).filter (doc.wasVisible v)).map fun x => byte x.1 x.2

section

variable {baseText : List Char} {cfg : Profile} {remoteId r : Nat} {w : World}
  {sent : List Operation} {b : Buffer}

theorem BufferSnapshot.chars_eq (s : BufferSnapshot) :
    s.chars = (cellsOf s.fragments).map fun c => (c.timestamp, c.offset, c.visible) := by
  unfold BufferSnapshot.chars cellsOf
  rw [List.map_flatMap]
  congr 1
  funext f
  simp [Fragment.cells, Fragment.cellAt, Function.comp_def]

/-- **What a replica holds is what the document holds at its version.** -/
theorem ReplicaInv.chars_eq (h : ReplicaInv baseText sent r b) :
    b.snapshot.chars = (Doc.of baseText sent).chars b.snapshot.version := by
  rw [BufferSnapshot.chars_eq, Doc.chars, ← h.mirrors.ids, List.map_map]
  refine List.map_congr_left (fun c hc => ?_)
  rw [h.mirrors.visible h.wf hc]
  rfl

/-- **The text of a replica is that of the document at its version.** -/
theorem ReplicaInv.text_eq (h : ReplicaInv baseText sent r b) :
    b.text = (Doc.of baseText sent).textAt (byteOf baseText sent) b.snapshot.version := by
  have hfilter : (cellsOf b.snapshot.fragments).filter (fun c => c.visible == true) =
      (cellsOf b.snapshot.fragments).filter
        (fun c => (Doc.of baseText sent).wasVisible b.snapshot.version c.id) := by
    refine List.filter_congr (fun c hc => ?_)
    rw [h.mirrors.visible h.wf hc]
    simp
  rw [Buffer.text, h.wf.visibleText, textOf, hfilter, Doc.textAt, ← h.mirrors.ids, List.filter_map,
    List.map_map]
  rfl

/-- Two replicas insert at the same place and exchange their edits. -/
def exchange : List (Nat × Action) :=
  [(1, .edit [(⟨1, 1⟩, ['x'])] 0 0), (2, .edit [(⟨0, 1⟩, ['y'])] 0 0),
    (1, .applyOps [.edit ⟨⟨3, 2⟩, Global.new.observe ⟨1, 0⟩, [⟨0, 1⟩], [['y']]⟩]),
    (2, .applyOps [.edit ⟨⟨3, 1⟩, Global.new.observe ⟨1, 0⟩, [⟨1, 1⟩], [['x']]⟩])]

def exchanged : World := World.after .test exchange (World.init .test 7 ['a', 'b'])

theorem reachable_exchanged : World.Reachable .test 7 ['a', 'b'] exchanged :=
  ⟨exchange, World.run_after (by decide)⟩

end

end SpkEditor
