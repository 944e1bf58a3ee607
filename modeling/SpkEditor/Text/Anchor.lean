import SpkEditor.Text.Buffer

/-!
# Anchors

An anchor names a place between two inserted bytes by one of them: the byte after it
(bias `right`), or the byte before it (bias `left`). It is resolved through the
insertions, which know the fragment that holds the byte by now.

`none` is a panic.
-/

namespace SpkEditor

/-- `u32::MAX`. -/
def U32_MAX : Nat := 2 ^ 32 - 1

structure Anchor where
  timestamp : Lamport
  offset : Nat
  bias : Bias
  bufferId : Nat
  deriving DecidableEq

namespace Anchor

/-- `Anchor::min_for_buffer`. -/
def minForBuffer (bufferId : Nat) : Anchor := ⟨Lamport.MIN, 0, .left, bufferId⟩

/-- `Anchor::max_for_buffer`. -/
def maxForBuffer (bufferId : Nat) : Anchor := ⟨Lamport.MAX, U32_MAX, .right, bufferId⟩

def isMin (a : Anchor) : Bool := a.timestamp == Lamport.MIN && a.offset == 0 && a.bias == .left

def isMax (a : Anchor) : Bool :=
  a.timestamp == Lamport.MAX && a.offset == U32_MAX && a.bias == .right

/-- The `InsertionFragmentKey` an anchor is looked up by. -/
def key (a : Anchor) : Lamport ×ₗ Nat := toLex (a.timestamp, a.offset)

end Anchor

/-- `Bias::Left` is the smaller one. -/
def Bias.toNat : Bias → Nat
  | .left => 0
  | .right => 1

/-! ## Character boundaries -/

/-- Step forward to the closest character boundary. -/
def ceilFrom (text : List UInt8) : Nat → Nat → Nat
  | 0, offset => offset
  | fuel + 1, offset => if isCharBoundary text offset then offset else ceilFrom text fuel (offset + 1)

/-- `Rope::ceil_char_boundary`. -/
def ceilCharBoundary (text : List UInt8) (offset : Nat) : Nat :=
  if text.length < offset then text.length else ceilFrom text (text.length - offset) offset

/-- The closest character boundary on one side. -/
def snapCharBoundary (text : List UInt8) (offset : Nat) : Bias → Nat
  | .left => floorCharBoundary text offset
  | .right => ceilCharBoundary text offset

namespace BufferSnapshot

/-- `anchor_at_offset`. -/
def anchorAtOffset (cfg : Profile) (s : BufferSnapshot) (offset : Nat) (bias : Bias) :
    Option Anchor :=
  let len := s.visibleText.length
  if bias = .left ∧ offset = 0 then some (.minForBuffer s.remoteId)
  else if bias = .right ∧ ((cfg.debugAssertions = false ∧ len ≤ offset) ∨ offset = len) then
    some (.maxForBuffer s.remoteId)
  else if cfg.debugAssertions && !isCharBoundary s.visibleText offset then none
  else
    let offset :=
      if isCharBoundary s.visibleText offset then offset
      else snapCharBoundary s.visibleText offset bias
    let cursor := (Cursor.sliceFrom FragmentTextSummary offset bias (0, 0) s.fragments).2
    match cursor.item with
    | none => if cfg.debugAssertions then none else some (.maxForBuffer s.remoteId)
    | some f =>
      some ⟨f.timestamp, f.insertionOffset + (offset - cursor.start.1), bias, s.remoteId⟩

/-- `anchor_at` an offset. -/
def anchorAt (cfg : Profile) (s : BufferSnapshot) (offset : Nat) (bias : Bias) : Option Anchor :=
  if cfg.debugAssertions && !isCharBoundary s.visibleText offset then none
  else s.anchorAtOffset cfg (s.toOffset offset) bias

/-! ## Resolving anchors -/

/-- `SumTree::find_with_prev`: the first insertion at or past a key, and the one before it. -/
def findWithPrev (target : Lamport ×ₗ Nat) (bias : Bias) :
    Option InsertionFragment → List InsertionFragment →
      Option (Option InsertionFragment × InsertionFragment)
  | _, [] => none
  | prev, insertion :: rest =>
    if target < insertion.key ∨ (target = insertion.key ∧ bias = .left) then
      some (prev, insertion)
    else findWithPrev target bias (some insertion) rest

/-- `try_find_fragment`. -/
def tryFindFragment (s : BufferSnapshot) (anchor : Anchor) : Option InsertionFragment :=
  match findWithPrev anchor.key anchor.bias none s.insertions with
  | some (prev, insertion) =>
    if anchor.key < insertion.key ∨
        (anchor.bias = .left ∧ insertion.key = anchor.key ∧ 0 < anchor.offset) then prev
    else some insertion
  | none => s.insertions.getLast?

/-- `fragment_id_for_anchor`. -/
def fragmentIdForAnchor (cfg : Profile) (s : BufferSnapshot) (anchor : Anchor) : Option Locator :=
  if anchor.isMin then some Locator.min
  else if anchor.isMax then some Locator.max
  else
    match s.tryFindFragment anchor with
    | none => none
    | some insertion =>
      if cfg.debugAssertions && insertion.timestamp != anchor.timestamp then none
      else some insertion.fragmentId

/-- `offset_for_anchor`. -/
def offsetForAnchor (cfg : Profile) (s : BufferSnapshot) (anchor : Anchor) : Option Nat :=
  if anchor.isMin then some 0
  else if anchor.isMax then some s.visibleText.length
  else if cfg.debugAssertions &&
      (anchor.bufferId != s.remoteId || !s.version.observed anchor.timestamp) then none
  else
    match s.tryFindFragment anchor with
    | none => none
    | some insertion =>
      if insertion.timestamp ≠ anchor.timestamp then none
      else
        let start := visibleLen (s.fragments.takeWhile fun f => f.id < insertion.fragmentId)
        match s.fragments.dropWhile fun f => f.id < insertion.fragmentId with
        | [] => none
        | f :: _ =>
          some (if f.visible then start + (anchor.offset - insertion.splitOffset) else start)

end BufferSnapshot

/-- `Anchor::cmp`. -/
def Anchor.cmp (cfg : Profile) (a b : Anchor) (s : BufferSnapshot) : Option Ordering :=
  let rest := (compare a.offset b.offset).then (compare a.bias.toNat b.bias.toNat)
  if a.timestamp = b.timestamp then some rest
  else
    match s.fragmentIdForAnchor cfg a, s.fragmentIdForAnchor cfg b with
    | some x, some y => some ((compareOfLessAndEq x y).then rest)
    | _, _ => none

end SpkEditor
