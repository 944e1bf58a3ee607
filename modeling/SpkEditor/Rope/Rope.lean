import Mathlib.Algebra.Order.Ring.Nat
import SpkEditor.Rope.Chunk

/-!
# Ropes

The operations of `rope/src/rope.rs` that build ropes. A rope is a tree of chunks; what its
tree does with them is what a list does (`SumTree/Refines`), so here it is the list. Text is
pushed by filling the last chunk and cutting the rest into chunks as long as they may be
(`push`, `push_large`); a chunk that is too short, or comes behind one that is, is split
between the two (`push_chunk`).

What the source asserts or unwraps is `none` here.
-/

namespace SpkEditor.Chunked

structure Rope where
  chunks : List Chunk

/-- How many chunks `push` makes without allocating. -/
def NUM_CHUNKS : Nat := 4

/-- `while !is_char_boundary(ix) { ix += 1 }`. -/
def nextBoundary (isBoundary : Nat → Bool) : Nat → Nat → Nat
  | 0, ix => ix
  | fuel + 1, ix => if isBoundary ix then ix else nextBoundary isBoundary fuel (ix + 1)

/-- `while !is_char_boundary(ix) { ix -= 1 }`. -/
def prevBoundary (isBoundary : Nat → Bool) : Nat → Nat
  | 0 => 0
  | ix + 1 => if isBoundary (ix + 1) then ix + 1 else prevBoundary isBoundary ix

/-- How much of what is pushed goes to a last chunk of this length: all of it if that fits,
or enough for the chunk not to be short. -/
def splitIx (lastLen len : Nat) (isBoundary : Nat → Bool) : Nat :=
  if lastLen + len ≤ MAX_BASE then len
  else nextBoundary isBoundary len (min (MIN_BASE - lastLen) len)

/-- `update_last`, with what the closure takes and leaves. -/
def updateLast {α β : Type} (l : List α) (x : β) (f : α → β → Option (α × β)) :
    Option (List α × β) :=
  match l.getLast? with
  | none => some (l, x)
  | some a => (f a x).map fun r => (l.dropLast ++ [r.1], r.2)

/-- What `push` does to the last chunk. -/
def fillStr (last : Chunk) (text : List Char) : Option (Chunk × List Char) :=
  (strSplitAt text (splitIx last.len (byteLen text) (isCharBoundary text))).bind fun parts =>
    (last.pushStr parts.1).map fun last => (last, parts.2)

/-- What `push_chunk` does to the last chunk. -/
def fillChunk (last : Chunk) (chunk : ChunkSlice) : Option (Chunk × ChunkSlice) :=
  (ChunkSlice.splitAt chunk
      (splitIx last.len chunk.len (ChunkSlice.isCharBoundary chunk))).bind fun parts =>
    (last.append parts.1).map fun last => (last, parts.2)

/-- The loop of `push` and `push_large`: chunks as long as they may be. A turn takes at
least one character. -/
def cutChunks : Nat → List Char → Option (List (List Char))
  | _, [] => some []
  | 0, _ => none
  | fuel + 1, text =>
    (strSplitAt text (prevBoundary (isCharBoundary text) (min MAX_BASE (byteLen text)))).bind
      fun parts => (cutChunks fuel parts.2).map (parts.1 :: ·)

namespace Rope

def new : Rope := ⟨[]⟩

/-- The chunks one after the other. -/
def text (r : Rope) : List Char := r.chunks.flatMap (·.text)

def len (r : Rope) : Nat := (r.chunks.map Chunk.len).sum

/-- `push_large`. -/
def pushLarge (r : Rope) (text : List Char) : Option Rope :=
  (cutChunks text.length text).bind fun newChunks =>
    (newChunks.mapM Chunk.new).map fun newChunks => ⟨r.chunks ++ newChunks⟩

/-- `push`. -/
def push (r : Rope) (text : List Char) : Option Rope :=
  (updateLast r.chunks text fillStr).bind fun filled =>
    if filled.2 = [] then some ⟨filled.1⟩
    else if NUM_CHUNKS * MAX_BASE - NUM_CHUNKS * 4 < byteLen filled.2 then
      pushLarge ⟨filled.1⟩ filled.2
    else
      (cutChunks filled.2.length filled.2).bind fun newChunks =>
        if newChunks.length ≤ NUM_CHUNKS then
          (newChunks.mapM Chunk.new).map fun newChunks => ⟨filled.1 ++ newChunks⟩
        else none

/-- `Rope::from`. -/
def ofStr (text : List Char) : Option Rope := new.push text

/-- `push_chunk`. -/
def pushChunk (r : Rope) (chunk : ChunkSlice) : Option Rope :=
  (updateLast r.chunks chunk fillChunk).bind fun filled =>
    if filled.2.text = [] then some ⟨filled.1⟩
    else (ChunkSlice.into filled.2).map fun chunk => ⟨filled.1 ++ [chunk]⟩

/-- `append`. -/
def append (r other : Rope) : Option Rope :=
  match other.chunks with
  | [] => some ⟨r.chunks ++ other.chunks⟩
  | chunk :: rest =>
    if r.chunks.getLast?.any (·.len < MIN_BASE) || chunk.len < MIN_BASE then
      (r.pushChunk chunk).map fun r => ⟨r.chunks ++ rest⟩
    else some ⟨r.chunks ++ other.chunks⟩

/-- `push_front`. -/
def pushFront (r : Rope) (text : List Char) : Option Rope :=
  if text = [] then some r
  else if r.len = 0 then r.push text
  else
    match r.chunks with
    | [] => (ofStr text).bind (·.append r)
    | first :: rest =>
      if first.len + byteLen text ≤ MAX_BASE then
        (first.prependStr text).map fun first => ⟨first :: rest⟩
      else (ofStr text).bind (·.append r)

end Rope

/-! ## Cursors -/

structure ChunkCursor where
  start : Nat
  rest : List Chunk

namespace ChunkCursor

def stop (c : ChunkCursor) : Nat :=
  match c.rest with
  | [] => c.start
  | chunk :: _ => c.start + chunk.len

def next (c : ChunkCursor) : ChunkCursor :=
  match c.rest with
  | [] => c
  | chunk :: rest => ⟨c.start + chunk.len, rest⟩

/-- The chunks that end at the target or before it, with `Bias::Right`, and the cursor
behind them. -/
def seekFrom (target start : Nat) : List Chunk → List Chunk × ChunkCursor
  | [] => ([], ⟨start, []⟩)
  | chunk :: rest =>
    if start + chunk.len ≤ target then
      let r := seekFrom target (start + chunk.len) rest
      (chunk :: r.1, r.2)
    else ([], ⟨start, chunk :: rest⟩)

def slice (c : ChunkCursor) (target : Nat) : List Chunk × ChunkCursor := seekFrom target c.start c.rest

def seekForward (c : ChunkCursor) (target : Nat) : ChunkCursor := (c.slice target).2

end ChunkCursor

structure Cursor where
  rope : Rope
  chunks : ChunkCursor
  offset : Nat

namespace Cursor

/-- `Cursor::new`. -/
def new (rope : Rope) (offset : Nat) : Cursor :=
  ⟨rope, (ChunkCursor.mk 0 rope.chunks).seekForward offset, offset⟩

/-- `seek_forward`. -/
def seekForward (c : Cursor) (endOffset : Nat) : Option Cursor :=
  if c.offset ≤ endOffset ∧ endOffset ≤ c.rope.len then
    some { c with chunks := c.chunks.seekForward endOffset, offset := endOffset }
  else none

/-- The part of the chunk the cursor is at that `slice` begins with. -/
def sliceStart (c : Cursor) (endOffset : Nat) : Option Rope :=
  match c.chunks.rest with
  | [] => some Rope.new
  | startChunk :: _ =>
    if c.offset < c.chunks.start then none
    else
      (ChunkSlice.slice startChunk (c.offset - c.chunks.start)
          (min endOffset c.chunks.stop - c.chunks.start)).bind (Rope.new.pushChunk ·)

/-- The chunks `slice` goes on with, and the part of the chunk it ends in. -/
def sliceRest (chunks : ChunkCursor) (endOffset : Nat) (slice : Rope) : Option (Rope × ChunkCursor) :=
  let passed := chunks.next.slice endOffset
  (slice.append ⟨passed.1⟩).bind fun slice =>
    match passed.2.rest with
    | [] => some (slice, passed.2)
    | endChunk :: _ =>
      (ChunkSlice.slice endChunk 0 (endOffset - passed.2.start)).bind fun part =>
        (slice.pushChunk part).map fun slice => (slice, passed.2)

/-- `slice`. -/
def slice (c : Cursor) (endOffset : Nat) : Option (Rope × Cursor) :=
  if c.offset ≤ endOffset ∧ endOffset ≤ c.rope.len then
    (c.sliceStart endOffset).bind fun slice =>
      if c.chunks.stop < endOffset then
        (sliceRest c.chunks endOffset slice).map fun r =>
          (r.1, { c with chunks := r.2, offset := endOffset })
      else some (slice, { c with offset := endOffset })
  else none

/-- `suffix`. -/
def suffix (c : Cursor) : Option Rope := (c.slice c.rope.len).map (·.1)

end Cursor

namespace Rope

/-- `replace`. -/
def replace (r : Rope) (start stop : Nat) (text : List Char) : Option Rope :=
  ((Cursor.new r 0).slice start).bind fun sliced =>
    (new.append sliced.1).bind fun newRope =>
      (sliced.2.seekForward stop).bind fun cursor =>
        (newRope.push text).bind fun newRope =>
          cursor.suffix.bind fun suffix => newRope.append suffix

/-- `slice`. -/
def slice (r : Rope) (start stop : Nat) : Option Rope :=
  ((Cursor.new r 0).seekForward start).bind fun cursor => (cursor.slice stop).map (·.1)

end Rope

/-! ## Sequences of operations -/

inductive CursorMove where
  | seekForward (stop : Nat)
  | slice (stop : Nat)

inductive RopeExpr where
  | new
  | push (r : RopeExpr) (text : List Char)
  | pushFront (r : RopeExpr) (text : List Char)
  | append (r other : RopeExpr)
  | replace (r : RopeExpr) (start stop : Nat) (text : List Char)
  | slice (r : RopeExpr) (start stop : Nat)
  | cursorSlice (r : RopeExpr) (start : Nat) (moves : List CursorMove) (stop : Nat)
  | cursorSuffix (r : RopeExpr) (start : Nat) (moves : List CursorMove)

def Cursor.moves (c : Cursor) : List CursorMove → Option Cursor
  | [] => some c
  | .seekForward stop :: moves => (c.seekForward stop).bind (Cursor.moves · moves)
  | .slice stop :: moves => (c.slice stop).bind fun r => Cursor.moves r.2 moves

namespace RopeExpr

/-- The operations on ropes. -/
def rope : RopeExpr → Option Rope
  | new => some Rope.new
  | push r text => r.rope.bind (·.push text)
  | pushFront r text => r.rope.bind (·.pushFront text)
  | append r other => r.rope.bind fun r => other.rope.bind (r.append ·)
  | replace r start stop text => r.rope.bind (·.replace start stop text)
  | slice r start stop => r.rope.bind (·.slice start stop)
  | cursorSlice r start moves stop =>
    r.rope.bind fun r => ((Cursor.new r start).moves moves).bind fun c => (c.slice stop).map (·.1)
  | cursorSuffix r start moves =>
    r.rope.bind fun r => ((Cursor.new r start).moves moves).bind (·.suffix)

def textMoves (text : List Char) (offset : Nat) : List CursorMove → Option Nat
  | [] => some offset
  | .seekForward stop :: moves | .slice stop :: moves =>
    if offset ≤ stop ∧ isCharBoundary text stop then textMoves text stop moves else none

/-- The same operations on strings. Bounds have to be in order and at boundaries. -/
def string : RopeExpr → Option (List Char)
  | new => some []
  | push r text => r.string.map (· ++ text)
  | pushFront r text => r.string.map (text ++ ·)
  | append r other => r.string.bind fun r => other.string.map (r ++ ·)
  | replace r start stop text =>
    r.string.bind fun r =>
      (strSlice r 0 start).bind fun before =>
        (strSlice r start stop).bind fun _ =>
          (strSlice r stop (byteLen r)).map fun after => before ++ text ++ after
  | slice r start stop => r.string.bind (strSlice · start stop)
  | cursorSlice r start moves stop =>
    r.string.bind fun r =>
      if isCharBoundary r start then (textMoves r start moves).bind (strSlice r · stop) else none
  | cursorSuffix r start moves =>
    r.string.bind fun r =>
      if isCharBoundary r start then
        (textMoves r start moves).bind (strSlice r · (byteLen r))
      else none

end RopeExpr

end SpkEditor.Chunked
