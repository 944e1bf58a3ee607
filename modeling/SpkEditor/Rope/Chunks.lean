import SpkEditor.Rope.ChunkSummary
import SpkEditor.Rope.Rope
import SpkEditor.SumTree.Tree
import SpkEditor.Text.Patch

/-!
# Iterating over the chunks of a range

`Chunks` of `rope/src/rope.rs`: an offset in a range of a rope, and a cursor over the chunks that is kept
at the chunk of the offset. It gives the text of the range chunk by chunk, and goes from line to line
(`next_line`, `prev_line`), passing chunks without a newline by the summaries of the tree.

The cursor is the zipper of the list of chunks. Ahead of the first chunk it is at none; a seek forward from
there finds nothing and loses it (`SumTree/CursorRefines`).

What the source asserts or unwraps is `none` here.
-/

namespace SpkEditor.Chunked

/-- `str::find` of a character. -/
def strFind (a : Char) : List Char → Option Nat
  | [] => none
  | c :: text => if c = a then some 0 else (strFind a text).map (c.utf8Size + ·)

/-- `str::rfind` of a character. -/
def strRfind (a : Char) : List Char → Option Nat
  | [] => none
  | c :: text =>
    match strRfind a text with
    | some ix => some (c.utf8Size + ix)
    | none => if c = a then some 0 else none

/-! ## The cursor over the chunks -/

/-- Where the cursor is: ahead of all the chunks, behind some of them (nearest first), or lost. -/
inductive ChunkPlace where
  | before (chunks : List Chunk)
  | at (passed rest : List Chunk)
  | lost (chunks : List Chunk)

namespace ChunkPlace

def all : ChunkPlace → List Chunk
  | .before chunks => chunks
  | .at passed rest => passed.reverse ++ rest
  | .lost chunks => chunks

def start : ChunkPlace → Nat
  | .at passed _ => (passed.map Chunk.len).sum
  | _ => 0

def item : ChunkPlace → Option Chunk
  | .at _ (chunk :: _) => some chunk
  | _ => none

def stop (p : ChunkPlace) : Nat := p.start + (p.item.map Chunk.len).getD 0

/-- The first chunk that the filter wants, from here on. -/
def skipForward (filter : Chunk → Bool) (passed : List Chunk) : List Chunk → ChunkPlace
  | [] => .at passed []
  | chunk :: rest =>
    if filter chunk then .at passed (chunk :: rest) else skipForward filter (chunk :: passed) rest

/-- `search_forward`. -/
def searchForward (filter : Chunk → Bool) : ChunkPlace → ChunkPlace
  | .before chunks => skipForward filter [] chunks
  | .at passed [] => .at passed []
  | .at passed (chunk :: rest) => skipForward filter (chunk :: passed) rest
  | .lost chunks => .lost chunks

/-- The last chunk that the filter wants, from here back. -/
def skipBackward (filter : Chunk → Bool) (rest : List Chunk) : List Chunk → ChunkPlace
  | [] => if rest = [] then .at [] [] else .before rest
  | chunk :: passed =>
    if filter chunk then .at passed (chunk :: rest) else skipBackward filter (chunk :: rest) passed

/-- `search_backward`. -/
def searchBackward (filter : Chunk → Bool) : ChunkPlace → ChunkPlace
  | .before chunks => .before chunks
  | .at passed rest => skipBackward filter rest passed
  | .lost chunks => skipBackward filter [] chunks.reverse

/-- `next`. -/
def next (p : ChunkPlace) : ChunkPlace := p.searchForward fun _ => true

/-- `prev`. -/
def prev (p : ChunkPlace) : ChunkPlace := p.searchBackward fun _ => true

/-- The chunks that end at the target or before it are passed; with `Bias::Left`, those that end before it. -/
def seekOn (bias : Bias) (target start : Nat) (passed : List Chunk) : List Chunk → ChunkPlace
  | [] => .at passed []
  | chunk :: rest =>
    if start + chunk.len < target ∨ bias = .right ∧ start + chunk.len = target then
      seekOn bias target (start + chunk.len) (chunk :: passed) rest
    else .at passed (chunk :: rest)

/-- `seek_forward`. -/
def seekForward (bias : Bias) (target : Nat) : ChunkPlace → ChunkPlace
  | .at passed rest => seekOn bias target (ChunkPlace.at passed rest).start passed rest
  | .before chunks => .lost chunks
  | .lost chunks => .lost chunks

/-- `seek`. -/
def seek (bias : Bias) (target : Nat) (p : ChunkPlace) : ChunkPlace := seekOn bias target 0 [] p.all

end ChunkPlace

/-- What `next_line` and `prev_line` look for: `summary.text.lines.row > 0`. -/
def hasRows (chunk : Chunk) : Bool := 0 < (ChunkSlice.lines chunk).row

structure Chunks where
  chunks : ChunkPlace
  range : Range
  offset : Nat
  reversed : Bool

namespace Chunks

/-- `Chunks::new`. -/
def new (rope : Rope) (range : Range) (reversed : Bool) : Option Chunks :=
  let offset := if reversed then range.stop else range.start
  let chunks := ChunkPlace.seekOn (if reversed then .left else .right) offset 0 [] rope.chunks
  if offset < chunks.start then none
  else
    match chunks.item with
    | some chunk =>
      if ChunkSlice.isCharBoundary chunk (offset - chunks.start) then some ⟨chunks, range, offset, reversed⟩
      else none
    | none => some ⟨chunks, range, offset, reversed⟩

/-- `offset_is_valid`. -/
def offsetIsValid (c : Chunks) : Bool :=
  if c.reversed then c.range.start < c.offset && c.offset ≤ c.range.stop
  else c.range.start ≤ c.offset && c.offset < c.range.stop

/-- `seek`. -/
def seek (c : Chunks) (offset : Nat) : Option Chunks :=
  if c.range.start ≤ c.range.stop then
    let offset := min (max offset c.range.start) c.range.stop
    let chunks :=
      if c.reversed then
        if c.chunks.stop < offset then c.chunks.seekForward .left offset
        else if offset ≤ c.chunks.start then c.chunks.seek .left offset
        else c.chunks
      else
        if c.chunks.stop ≤ offset then c.chunks.seekForward .right offset
        else if offset < c.chunks.start then c.chunks.seek .right offset
        else c.chunks
    some { c with chunks, offset }
  else none

/-- `peek`: the text from the offset on that the chunk has in the range. -/
def peek (c : Chunks) : Option (Option (List Char)) :=
  if c.offsetIsValid then
    match c.chunks.item with
    | none => some none
    | some chunk =>
      let chunkStart := c.chunks.start
      if c.offset < chunkStart ∨ min c.chunks.stop c.range.stop < chunkStart then none
      else if c.reversed then
        (strSlice chunk.text (max chunkStart c.range.start - chunkStart) (c.offset - chunkStart)).map some
      else
        (strSlice chunk.text (c.offset - chunkStart) (min c.chunks.stop c.range.stop - chunkStart)).map some
  else some none

/-- `next`. -/
def next (c : Chunks) : Option (Option (List Char) × Chunks) := do
  match ← c.peek with
  | none => some (none, c)
  | some chunk =>
    if c.reversed then
      if c.offset < byteLen chunk then none
      else
        let offset := c.offset - byteLen chunk
        let chunks := if offset ≤ c.chunks.start then c.chunks.prev else c.chunks
        some (some chunk, { c with chunks, offset })
    else
      let offset := c.offset + byteLen chunk
      let chunks := if c.chunks.stop ≤ offset then c.chunks.next else c.chunks
      some (some chunk, { c with chunks, offset })

/-- The chunks that are left, for an iterator that gives at most so many. -/
def collect : Nat → Chunks → Option (List (List Char))
  | 0, _ => none
  | fuel + 1, c => do
      match ← c.next with
      | (none, _) => some []
      | (some chunk, c) => (collect fuel c).map (chunk :: ·)

/-! ## From line to line -/

/-- `next_line`, when there is a chunk: the newline is in it, or in the next chunk that has one. -/
def passNewline (c : Chunks) (chunk : List Char) : Option (Bool × Chunks) :=
  match strFind '\n' chunk with
  | some newlineIx =>
    some (decide (c.offset + newlineIx + 1 ≤ c.range.stop), { c with offset := c.offset + newlineIx + 1 })
  | none => do
      let chunks := c.chunks.searchForward hasRows
      let c := { c with chunks, offset := chunks.start }
      match (← c.peek).bind (strFind '\n') with
      | some newlineIx =>
        some (decide (c.offset + newlineIx + 1 ≤ c.range.stop), { c with offset := c.offset + newlineIx + 1 })
      | none => some (false, { c with offset := c.chunks.stop })

/-- `next_line`, up to where the offset is clamped. -/
def advanceLine (c : Chunks) : Option (Bool × Chunks) := do
  match ← c.peek with
  | none => some (false, c)
  | some chunk =>
    let r ← c.passNewline chunk
    if r.2.offset = r.2.chunks.stop then
      let n ← r.2.next
      some (r.1, n.2)
    else some r

/-- `next_line`. -/
def nextLine (c : Chunks) : Option (Bool × Chunks) :=
  if c.reversed then none
  else do
    let r ← c.advanceLine
    if r.2.range.stop < r.2.offset then
      some (r.1, { r.2 with offset := r.2.range.stop, chunks := r.2.chunks.seek .right r.2.range.stop })
    else some r

def lineStartInChunk (c : Chunks) : Option (Option Nat) :=
  match c.chunks.item with
  | none => some none
  | some chunk =>
    let endIx := c.offset - c.chunks.start
    if endIx = 0 then none
    else do
      let last ← (utf8 chunk.text)[endIx - 1]?
      let before ← strSlice chunk.text 0 (if last = 10 then endIx - 1 else endIx)
      some ((strRfind '\n' before).map (c.chunks.start + · + 1))

/-- The end of `prev_line`: back to the start of the range if there is no line to go to. -/
def clampLine (c : Chunks) (initialOffset : Nat) : Bool × Chunks :=
  let c :=
    if !c.offsetIsValid || c.chunks.item.isNone then
      { c with offset := c.range.start, chunks := c.chunks.seek .right c.range.start }
    else c
  (c.offset < initialOffset && c.offset == 0, c)

/-- `prev_line`, when the line does not start in the chunk. -/
def prevLineBack (c : Chunks) (initialOffset : Nat) : Bool × Chunks :=
  let chunks := c.chunks.searchBackward hasRows
  let c := { c with chunks, offset := chunks.start }
  match c.chunks.item.bind fun chunk => strRfind '\n' chunk.text with
  | none => c.clampLine initialOffset
  | some newlineIx =>
    let c := { c with offset := c.offset + newlineIx + 1 }
    if c.offsetIsValid then
      (true, if c.offset = c.chunks.stop then { c with chunks := c.chunks.next } else c)
    else c.clampLine initialOffset

/-- `prev_line`. -/
def prevLine (c : Chunks) : Option (Bool × Chunks) :=
  if c.reversed then none
  else do
    let initialOffset := c.offset
    let c := if c.offset = c.chunks.start then { c with chunks := c.chunks.prev } else c
    match ← c.lineStartInChunk with
    | none => some (c.prevLineBack initialOffset)
    | some offset =>
      let c := { c with offset }
      if c.offsetIsValid then some (true, c) else some (c.prevLineBack initialOffset)

end Chunks

namespace Rope

/-- `chunks_in_range`. -/
def chunksInRange (r : Rope) (range : Range) : Option Chunks := Chunks.new r range false

/-- `reversed_chunks_in_range`. -/
def reversedChunksInRange (r : Rope) (range : Range) : Option Chunks := Chunks.new r range true

def textsInRange (r : Rope) (range : Range) : Option (List (List Char)) :=
  (r.chunksInRange range).bind (Chunks.collect (r.len + 1))

/-- `chunks`. -/
def chunkTexts (r : Rope) : Option (List (List Char)) := r.textsInRange ⟨0, r.len⟩

/-- `chars_at`. -/
def charsAt (r : Rope) (start : Nat) : Option (List Char) := (r.textsInRange ⟨start, r.len⟩).map List.flatten

end Rope

end SpkEditor.Chunked
