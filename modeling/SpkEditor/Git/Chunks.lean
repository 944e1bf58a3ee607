import SpkEditor.Lib.Utf8
import SpkEditor.Text.Patch

/-!
# Conflict chunks

What the conflict resolver reads from a file that Git could not merge: for each pair of
`<<<<<<<` and `>>>>>>>` lines the range they enclose and the sections in it. All offsets
are in bytes.
-/

namespace SpkEditor

structure ConflictChunk where
  /-- From the `<<<<<<<` line to the end of the `>>>>>>>` line. -/
  range : Range
  ours : List Char
  theirs : List Char
  base : Option (List Char)
  deriving DecidableEq

def oursMarker : List Char := ['<', '<', '<', '<', '<', '<', '<']

def baseMarker : List Char := ['|', '|', '|', '|', '|', '|', '|']

def separatorMarker : List Char := ['=', '=', '=', '=', '=', '=', '=']

def theirsMarker : List Char := ['>', '>', '>', '>', '>', '>', '>']

def scanNewline : List UInt8 → Nat → Option Nat
  | [], _ => none
  | b :: bytes, i => if b = 10 then some (i + 1) else scanNewline bytes (i + 1)

/-- `end_of_line`. -/
def endOfLine (bytes : List UInt8) (start : Nat) : Option Nat :=
  match scanNewline (bytes.drop start) start with
  | some stop => some stop
  | none => if start < bytes.length then some bytes.length else none

def slice (bytes : List UInt8) (start stop : Nat) : List UInt8 := (bytes.take stop).drop start

def findLineMarkerFrom (bytes marker : List UInt8) : Nat → Nat → Option Nat
  | 0, _ => none
  | fuel + 1, pos =>
    if pos < bytes.length then
      let lineEnd := (endOfLine bytes pos).getD bytes.length
      if marker.isPrefixOf (slice bytes pos lineEnd) then some pos
      else findLineMarkerFrom bytes marker fuel lineEnd
    else none

/-- `find_line_marker`. Every turn goes at least one byte further. -/
def findLineMarker (bytes : List UInt8) (start : Nat) (marker : List Char) : Option Nat :=
  findLineMarkerFrom bytes (utf8 marker) (bytes.length - start) start

/-- Where our side ends, and the base section if there is one. `none` leaves the loop. -/
def baseSection (bytes : List UInt8) (afterStartMarkerLine separator : Nat) :
    Option Nat → Option (Nat × Option (List Char))
  | some baseOff =>
    if afterStartMarkerLine < baseOff ∧ baseOff < separator then
      match endOfLine bytes baseOff with
      | none => none
      | some afterBaseMarkerLine =>
        some (baseOff, some (fromUtf8Lossy (slice bytes afterBaseMarkerLine separator)))
    else some (separator, none)
  | none => some (separator, none)

/-- One turn of the loop: where to go on, and the chunk that was found. `none` leaves the
loop. -/
def nextChunk (bytes : List UInt8) (cursor : Nat) : Option (Option ConflictChunk × Nat) :=
  match findLineMarker bytes cursor oursMarker with
  | none => none
  | some startOffset =>
  match endOfLine bytes startOffset with
  | none => none
  | some afterStartMarkerLine =>
  match findLineMarker bytes afterStartMarkerLine separatorMarker with
  | none => some (none, afterStartMarkerLine)
  | some separator =>
  match endOfLine bytes separator with
  | none => none
  | some afterSeparatorLine =>
  match findLineMarker bytes afterSeparatorLine theirsMarker with
  | none => some (none, afterSeparatorLine)
  | some endMarker =>
  let afterEndMarkerLine := (endOfLine bytes endMarker).getD bytes.length
  match baseSection bytes afterStartMarkerLine separator
      (findLineMarker bytes afterStartMarkerLine baseMarker) with
  | none => none
  | some (oursEnd, base) =>
    some (some
      { range := ⟨startOffset, afterEndMarkerLine⟩
        ours := fromUtf8Lossy (slice bytes afterStartMarkerLine oursEnd)
        theirs := fromUtf8Lossy (slice bytes afterSeparatorLine endMarker)
        base }, afterEndMarkerLine)

def extractFrom (bytes : List UInt8) : Nat → Nat → List ConflictChunk
  | 0, _ => []
  | fuel + 1, cursor =>
    if cursor < bytes.length then
      match nextChunk bytes cursor with
      | none => []
      | some (none, cursor) => extractFrom bytes fuel cursor
      | some (some chunk, cursor) => chunk :: extractFrom bytes fuel cursor
    else []

/-- `extract_conflict_chunks`. -/
def extractConflictChunks (text : List Char) : List ConflictChunk :=
  extractFrom (utf8 text) (utf8 text).length 0

/-! ## What Git writes -/

structure SectionLine where
  content : List Char
  single : '\n' ∉ content
  plain : ∀ m ∈ [oursMarker, baseMarker, separatorMarker, theirsMarker], ¬ m <+: content

/-- What follows a marker on its line. -/
structure Label where
  content : List Char
  single : '\n' ∉ content

def renderLines (lines : List SectionLine) : List Char := lines.flatMap fun l => l.content ++ ['\n']

def renderMarker (marker : List Char) (label : Label) : List Char := marker ++ label.content ++ ['\n']

structure Conflict where
  oursLabel : Label
  ours : List SectionLine
  /-- The base section and the label of its marker. -/
  base : Option (Label × List SectionLine)
  separatorLabel : Label
  theirs : List SectionLine
  theirsLabel : Label

def Conflict.renderBase (c : Conflict) : List Char :=
  match c.base with
  | none => []
  | some (label, lines) => renderMarker baseMarker label ++ renderLines lines

def Conflict.render (c : Conflict) : List Char :=
  renderMarker oursMarker c.oursLabel ++ renderLines c.ours ++ c.renderBase ++
    renderMarker separatorMarker c.separatorLabel ++ renderLines c.theirs ++
    renderMarker theirsMarker c.theirsLabel

/-- A file that Git has written: text that merged, and conflicts. -/
inductive Segment where
  | common (lines : List SectionLine)
  | conflict (c : Conflict)

def Segment.render : Segment → List Char
  | .common lines => renderLines lines
  | .conflict c => c.render

def renderSegments (segments : List Segment) : List Char := segments.flatMap Segment.render

inductive Side where
  | ours
  | theirs

def Conflict.sections (c : Conflict) : List Char × List Char × Option (List Char) :=
  (renderLines c.ours, renderLines c.theirs, c.base.map fun b => renderLines b.2)

def Conflict.side (c : Conflict) : Side → List Char
  | .ours => renderLines c.ours
  | .theirs => renderLines c.theirs

def ConflictChunk.sections (c : ConflictChunk) : List Char × List Char × Option (List Char) :=
  (c.ours, c.theirs, c.base)

def ConflictChunk.side (c : ConflictChunk) : Side → List Char
  | .ours => c.ours
  | .theirs => c.theirs

def conflictsOf (segments : List Segment) : List Conflict :=
  segments.filterMap fun
    | .common _ => none
    | .conflict c => some c

/-- The text with every conflict settled; `pick` says how, by the conflict's number. -/
def settle (pick : Nat → Side) : Nat → List Segment → List Char
  | _, [] => []
  | n, .common lines :: segments => renderLines lines ++ settle pick n segments
  | n, .conflict c :: segments => c.side (pick n) ++ settle pick (n + 1) segments

def replaceChunks (bytes : List UInt8) (pick : Nat → Side) : Nat → Nat → List ConflictChunk → List UInt8
  | _, pos, [] => bytes.drop pos
  | n, pos, c :: chunks =>
    slice bytes pos c.range.start ++ utf8 (c.side (pick n)) ++
      replaceChunks bytes pick (n + 1) c.range.stop chunks

end SpkEditor
