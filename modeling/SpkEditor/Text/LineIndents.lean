import SpkEditor.Rope.ChunksProof

/-!
# Line indents

`line_indents_in_row_range` and `reversed_line_indents_in_row_range`: the indents of consecutive rows, read
with one `Chunks` that is moved from line to line. `LineIndent::from_chunks` consumes the chunks that are
all indentation, so it leaves the iterator at the start of the line, or within its indentation; from both
places the next line is found, and the start of this one.
-/

namespace SpkEditor.Chunked

open List

structure LineIndent where
  tabs : Nat
  spaces : Nat
  lineBlank : Bool

namespace LineIndent

/-- The loop over the characters, and whether it has ended. -/
def scan (indent : LineIndent) : List Char → LineIndent × Bool
  | [] => (indent, false)
  | ch :: text =>
    if ch = '\t' then scan { indent with tabs := indent.tabs + 1 } text
    else if ch = ' ' then scan { indent with spaces := indent.spaces + 1 } text
    else (if ch ≠ '\n' then { indent with lineBlank := false } else indent, true)

/-- `LineIndent::from_iter`. -/
def fromIter (text : List Char) : LineIndent := (scan ⟨0, 0, true⟩ text).1

/-- The loop over the chunks, for an iterator that gives at most so many. -/
def scanChunks : Nat → LineIndent → Chunks → Option (LineIndent × Chunks)
  | 0, _, _ => none
  | fuel + 1, indent, c => do
      match ← c.peek with
      | none => some (indent, c)
      | some chunk =>
        let r := indent.scan chunk
        if r.2 then some (r.1, c)
        else do
          let n ← c.next
          scanChunks fuel r.1 n.2

/-- `LineIndent::from_chunks`. -/
def fromChunks (c : Chunks) : Option (LineIndent × Chunks) :=
  scanChunks (c.range.stop - c.offset + 1) ⟨0, 0, true⟩ c

end LineIndent

/-- What the iterator of `line_indents_in_row_range` gives. -/
def lineIndentsFrom : Nat → Chunks → Nat → Option (List (Nat × LineIndent))
  | 0, _, _ => none
  | fuel + 1, c, row => do
      let indent ← LineIndent.fromChunks c
      let found ← indent.2.nextLine
      if found.1 then (lineIndentsFrom fuel found.2 (row + 1)).map ((row, indent.1) :: ·)
      else some [(row, indent.1)]

/-- `prev_line` on a condition, for where it leaves the iterator. -/
def prevLineWhen (condition : Bool) (c : Chunks) : Option Chunks :=
  if condition then c.prevLine.map Prod.snd else some c

/-- What the iterator of `reversed_line_indents_in_row_range` gives. -/
def reversedLineIndentsFrom : Nat → Chunks → Nat → Option (List (Nat × LineIndent))
  | 0, _, _ => none
  | fuel + 1, c, row => do
      let indent ← LineIndent.fromChunks c
      let c ← prevLineWhen (c.offset < indent.2.offset) indent.2
      let found ← c.prevLine
      if found.1 then
        if row = 0 then none
        else (reversedLineIndentsFrom fuel found.2 (row - 1)).map ((row, indent.1) :: ·)
      else some [(row, indent.1)]

namespace Rope

/-- `line_indents_in_row_range`. -/
def lineIndentsInRowRange (r : Rope) (rowRange : Range) : Option (List (Nat × LineIndent)) := do
  let start := SpkEditor.pointToOffset r.text ⟨rowRange.start, 0⟩
  let stop := SpkEditor.pointToOffset r.text ⟨rowRange.stop, lineLen r.text rowRange.stop⟩
  let chunks ← r.chunksInRange ⟨start, stop⟩
  lineIndentsFrom (r.len + 1) chunks rowRange.start

/-- `reversed_line_indents_in_row_range`. -/
def reversedLineIndentsInRowRange (r : Rope) (rowRange : Range) : Option (List (Nat × LineIndent)) := do
  let start := SpkEditor.pointToOffset r.text ⟨rowRange.start, 0⟩
  let endPoint : Point :=
    if rowRange.start < rowRange.stop then ⟨rowRange.stop - 1, lineLen r.text (rowRange.stop - 1)⟩
    else ⟨rowRange.start, 0⟩
  let stop := if rowRange.start < rowRange.stop then SpkEditor.pointToOffset r.text endPoint else start
  let chunks ← r.chunksInRange ⟨start, stop⟩
  let chunks ← chunks.seek stop
  let chunks ← prevLineWhen (0 < endPoint.column) chunks
  reversedLineIndentsFrom (r.len + 1) chunks endPoint.row

/-- `line_indent_for_row`. -/
def lineIndentForRow (r : Rope) (row : Nat) : Option LineIndent :=
  (r.charsAt (SpkEditor.pointToOffset r.text ⟨row, 0⟩)).map LineIndent.fromIter

/-- `row_count`. -/
def rowCount (r : Rope) : Nat := (linesOf r.text).row + 1

end Rope

/-! ## One line -/

namespace LineIndent

theorem scan_append (indent : LineIndent) (s t : List Char) :
    indent.scan (s ++ t) = if (indent.scan s).2 then indent.scan s else (indent.scan s).1.scan t := by
  induction s generalizing indent with
  | nil => rfl
  | cons ch s ih =>
    rw [cons_append, scan, scan]
    by_cases htab : ch = '\t'
    · rw [if_pos htab, if_pos htab, ih]
    · by_cases hspace : ch = ' '
      · rw [if_neg htab, if_pos hspace, if_neg htab, if_pos hspace, ih]
      · rw [if_neg htab, if_neg hspace, if_neg htab, if_neg hspace, if_pos rfl]

theorem not_mem_of_scan {indent : LineIndent} {s : List Char} (h : (indent.scan s).2 = false) : '\n' ∉ s := by
  induction s generalizing indent with
  | nil => exact not_mem_nil
  | cons ch s ih =>
    rw [scan] at h
    have hne : ∀ {b : Char}, ch = b → b ≠ '\n' → '\n' ∉ s → '\n' ∉ ch :: s := by
      intro b hb hnl hs hmem
      rcases List.mem_cons.mp hmem with rfl | hmem
      · exact hnl hb.symm
      · exact hs hmem
    by_cases htab : ch = '\t'
    · rw [if_pos htab] at h
      exact hne htab (by decide) (ih h)
    · by_cases hspace : ch = ' '
      · rw [if_neg htab, if_pos hspace] at h
        exact hne hspace (by decide) (ih h)
      · rw [if_neg htab, if_neg hspace] at h
        cases h

theorem scan_line (indent : LineIndent) (line : List Char) {r : List Char} (hr : r = [] ∨ ∃ r', r = '\n' :: r') :
    (indent.scan (line ++ r)).1 = (indent.scan line).1 := by
  rw [scan_append]
  split
  · rfl
  · rcases hr with rfl | ⟨r', rfl⟩
    · rfl
    · rw [scan, if_neg (by decide), if_neg (by decide), if_neg (by simp)]

end LineIndent

open Chunks

variable {ts : List (List Char)} {c : Chunks} {x : List Char}

namespace LineIndent

theorem scanChunks_spec (hts : ∀ t ∈ ts, Piece t) {fuel : Nat} (indent : LineIndent) (h : c.Stands ts x)
    {v z : List Char} (htext : ts.flatten = x ++ (v ++ z)) (hstart : c.range.start ≤ byteLen x)
    (hstop : c.range.stop = byteLen (x ++ v)) (hfuel : byteLen v < fuel) :
    ∃ s v' c', v = s ++ v' ∧ '\n' ∉ s ∧ scanChunks fuel indent c = some ((indent.scan v).1, c') ∧
      c'.Stands ts (x ++ s) ∧ c'.range = c.range := by
  induction fuel generalizing indent c x v with
  | zero => omega
  | succ fuel ih =>
    by_cases hv : v = []
    · subst hv
      rw [append_nil] at hstop
      refine ⟨[], [], c, rfl, not_mem_nil, ?_, by rwa [append_nil], rfl⟩
      rw [scanChunks, h.peek_end hstop.le]
      rfl
    · obtain ⟨t, v', c₁, rfl, ht, hpeek, hnext, hstands, hrange⟩ := h.next_spec hts htext hv hstart hstop
      have hloop : scanChunks (fuel + 1) indent c =
          if (indent.scan t).2 then some ((indent.scan t).1, c)
          else scanChunks fuel (indent.scan t).1 c₁ := by
        rw [scanChunks, hpeek, hnext]
        rfl
      rw [hloop, scan_append]
      by_cases hbreak : (indent.scan t).2 = true
      · rw [if_pos hbreak, if_pos hbreak]
        exact ⟨[], t ++ v', c, rfl, not_mem_nil, rfl, by rwa [append_nil], rfl⟩
      · rw [if_neg hbreak, if_neg hbreak]
        have hpos := byteLen_pos ht
        have hlen := byteLen_append t v'
        have hlen' := byteLen_append x t
        obtain ⟨s, v₂, c', rfl, hs, hscan, hstands', hrange'⟩ := ih (indent.scan t).1 hstands
          (show ts.flatten = (x ++ t) ++ (v' ++ z) by rw [htext]; simp) (by rw [hrange]; omega)
          (by rw [hrange, hstop, append_assoc]) (by omega)
        refine ⟨t ++ s, v₂, c', by simp, ?_, hscan, by rwa [← append_assoc], hrange'.trans hrange⟩
        rw [mem_append]
        exact not_or.mpr ⟨not_mem_of_scan (Bool.eq_false_iff.mpr hbreak), hs⟩

/-- **The indent of a line**, and where the iterator is then: at the start of the line, or in its indentation. -/
theorem fromChunks_spec (hts : ∀ t ∈ ts, Piece t) (h : c.Stands ts x) {line r z : List Char}
    (hr : r = [] ∨ ∃ r', r = '\n' :: r') (htext : ts.flatten = x ++ ((line ++ r) ++ z))
    (hstart : c.range.start ≤ byteLen x) (hstop : c.range.stop = byteLen (x ++ (line ++ r))) :
    ∃ s line' c', line = s ++ line' ∧ '\n' ∉ s ∧ fromChunks c = some (fromIter line, c') ∧
      c'.Stands ts (x ++ s) ∧ c'.range = c.range := by
  have hfuel : byteLen (line ++ r) < c.range.stop - c.offset + 1 := by
    rw [hstop, h.offset, byteLen_append x]
    omega
  obtain ⟨s, v', c', hcut, hs, hscan, hstands, hrange⟩ :=
    scanChunks_spec hts ⟨0, 0, true⟩ h htext hstart hstop hfuel
  rw [scan_line _ line hr] at hscan
  obtain ⟨line', rfl⟩ : ∃ line', line = s ++ line' := by
    rcases List.append_eq_append_iff.mp hcut with ⟨m, rfl, hm⟩ | ⟨m, rfl, -⟩
    · -- the indentation does not go on behind the line
      rcases hr with rfl | ⟨r', rfl⟩
      · obtain ⟨rfl, -⟩ := List.append_eq_nil_iff.mp hm.symm
        exact ⟨[], by simp⟩
      · cases m with
        | nil => exact ⟨[], by simp⟩
        | cons a m =>
          obtain ⟨rfl, -⟩ := List.cons.inj hm
          exact absurd (by simp) hs
    · exact ⟨m, rfl⟩
  exact ⟨s, line', c', rfl, hs, hscan, hstands, hrange⟩

end LineIndent

/-! ## Row after row -/

/-- Rows, each with its newline. -/
def unlines (rows : List (List Char)) : List Char := rows.flatMap (· ++ ['\n'])

theorem unlines_append (rows rows' : List (List Char)) : unlines (rows ++ rows') = unlines rows ++ unlines rows' :=
  flatMap_append

theorem unlines_cons (row : List Char) (rows : List (List Char)) :
    unlines (row :: rows) = row ++ '\n' :: unlines rows := by
  rw [unlines, flatMap_cons, append_assoc]
  rfl

theorem unlines_concat (rows : List (List Char)) (row : List Char) :
    unlines (rows ++ [row]) = unlines rows ++ (row ++ ['\n']) := by
  rw [unlines_append, unlines_cons]
  rfl

theorem lineStart_unlines (rows : List (List Char)) : LineStart (unlines rows) := by
  rcases eq_nil_or_concat' rows with rfl | ⟨rows, row, rfl⟩
  · exact .inl rfl
  · exact .inr ⟨unlines rows ++ row, by rw [unlines_concat, append_assoc]⟩

def indentsOf (row : Nat) (rows : List (List Char)) : List (Nat × LineIndent) :=
  (rows.zipIdx row).map fun e => (e.2, LineIndent.fromIter e.1)

theorem indentsOf_cons (row : Nat) (line : List Char) (rows : List (List Char)) :
    indentsOf row (line :: rows) = (row, LineIndent.fromIter line) :: indentsOf (row + 1) rows := rfl

theorem indentsOf_concat (row : Nat) (rows : List (List Char)) (line : List Char) :
    indentsOf row (rows ++ [line]) = indentsOf row rows ++ [(row + rows.length, LineIndent.fromIter line)] := by
  simp [indentsOf, zipIdx_append]

section

variable (hts : ∀ t ∈ ts, Piece t)
include hts

theorem lineIndentsFrom_spec (rows : List (List Char)) {last z : List Char} (row : Nat)
    {fuel : Nat} (hfuel : rows.length < fuel) (hrows : ∀ u ∈ rows, '\n' ∉ u) (hlast : '\n' ∉ last)
    (h : c.Stands ts x) (htext : ts.flatten = x ++ ((unlines rows ++ last) ++ z))
    (hstart : c.range.start ≤ byteLen x) (hstop : c.range.stop = byteLen (x ++ (unlines rows ++ last))) :
    lineIndentsFrom fuel c row = some (indentsOf row (rows ++ [last])) := by
  induction rows generalizing c x row fuel with
  | nil =>
    obtain ⟨fuel, rfl⟩ := Nat.exists_eq_add_of_lt hfuel
    have hcut : unlines [] ++ last = last ++ [] := by rw [append_nil]; rfl
    rw [hcut] at htext hstop
    obtain ⟨s, line', c₁, rfl, hs, hindent, hstands, hrange⟩ :=
      LineIndent.fromChunks_spec hts h (.inl rfl) htext hstart hstop
    have hlen := byteLen_append x s
    obtain ⟨c₂, hline, -, -⟩ := hstands.nextLine_false hts (fun hmem => hlast (mem_append_right _ hmem))
      (show ts.flatten = (x ++ s) ++ (line' ++ z) by rw [htext]; simp) (by rw [hrange]; omega)
      (by rw [hrange, hstop]; simp)
    refine Option.bind_eq_some_iff.mpr ⟨_, hindent, ?_⟩
    exact Option.bind_eq_some_iff.mpr ⟨_, hline, rfl⟩
  | cons line rows ih =>
    obtain ⟨fuel, rfl⟩ : ∃ n, fuel = n + 1 := ⟨fuel - 1, by omega⟩
    obtain ⟨hline, hrest'⟩ := List.forall_mem_cons.mp hrows
    have hcut : unlines (line :: rows) ++ last = line ++ '\n' :: (unlines rows ++ last) := by
      rw [unlines_cons, append_assoc, cons_append]
    rw [hcut] at htext hstop
    obtain ⟨s, line', c₁, rfl, hs, hindent, hstands, hrange⟩ :=
      LineIndent.fromChunks_spec hts h (.inr ⟨_, rfl⟩) htext hstart hstop
    have hlen := byteLen_append x s
    obtain ⟨c₂, hnext, hstands₂, hrange₂⟩ := hstands.nextLine_true hts
      (fun hmem => hline (mem_append_right _ hmem))
      (show ts.flatten = (x ++ s) ++ ((line' ++ '\n' :: (unlines rows ++ last)) ++ z) by rw [htext]; simp)
      (by rw [hrange]; omega) (by rw [hrange, hstop]; simp)
    have hx : x ++ s ++ (line' ++ ['\n']) = x ++ ((s ++ line') ++ ['\n']) := by simp
    rw [hx] at hstands₂
    have hle := byteLen_append x ((s ++ line') ++ ['\n'])
    have hrest := ih (row + 1) (Nat.lt_of_succ_lt_succ hfuel) hrest' hstands₂ (by rw [htext]; simp)
      (by rw [hrange₂, hrange]; omega) (by rw [hrange₂, hrange, hstop]; simp)
    refine Option.bind_eq_some_iff.mpr ⟨_, hindent, ?_⟩
    refine Option.bind_eq_some_iff.mpr ⟨_, hnext, ?_⟩
    simp only [if_true, hrest, Option.map_some]
    rfl

theorem prevLine_of_indent {s l z : List Char} {rows : List (List Char)}
    (h : c.Stands ts (unlines rows ++ s)) (hs : '\n' ∉ s) (hne : s ≠ []) (htext : ts.flatten = l ++ z)
    (hstart : c.range.start = byteLen l) (hle : byteLen l ≤ byteLen (unlines rows))
    (hstop : byteLen (unlines rows ++ s) ≤ c.range.stop) :
    ∃ c', c.prevLine = some (true, c') ∧ c'.Stands ts (unlines rows) ∧ c'.range = c.range := by
  have hlen := byteLen_append (unlines rows) s
  obtain ⟨c', hprev, hstands, hrange⟩ := h.prevLine_spec hts htext hstart (by omega) hstop rfl
    (lineStart_unlines rows) ⟨hne, s, hs, .inl rfl⟩
  rw [decide_eq_true hle] at hprev
  rw [if_pos hle] at hstands
  exact ⟨c', hprev, hstands, hrange⟩

theorem prevLine_of_start {l : List (List Char)} {rows : List (List Char)} {z : List Char}
    (hrows : ∀ u ∈ l ++ rows, '\n' ∉ u) (h : c.Stands ts (unlines (l ++ rows)))
    (htext : ts.flatten = unlines l ++ z) (hstart : c.range.start = byteLen (unlines l))
    (hstop : byteLen (unlines (l ++ rows)) ≤ c.range.stop) :
    ∃ c', c.prevLine = some (decide (rows ≠ []), c') ∧ c'.Stands ts (unlines (l ++ rows.dropLast)) ∧
      c'.range = c.range := by
  rcases eq_nil_or_concat' rows with rfl | ⟨rows, row, rfl⟩
  · rw [append_nil] at h hstop hrows
    rw [dropLast_nil, append_nil]
    rcases eq_nil_or_concat' l with rfl | ⟨l, row, rfl⟩
    · exact h.prevLine_front hts hstart
    · have hlen : byteLen (unlines (l ++ [row])) = byteLen (unlines l) + byteLen row + 1 := by
        rw [unlines_concat, byteLen_line]
      obtain ⟨c', hprev, hstands, hrange⟩ := h.prevLine_spec hts htext hstart (Nat.le_refl _) hstop
        (unlines_concat l row) (lineStart_unlines l) ⟨by simp, row, hrows row (by simp), .inr rfl⟩
      have hlt : ¬ byteLen (unlines (l ++ [row])) ≤ byteLen (unlines l) := by omega
      rw [decide_eq_false hlt] at hprev
      rw [if_neg hlt] at hstands
      exact ⟨c', hprev, hstands, hrange⟩
  · rw [← append_assoc] at h hstop hrows
    rw [dropLast_concat]
    have hlen : byteLen (unlines (l ++ rows ++ [row])) = byteLen (unlines (l ++ rows)) + byteLen row + 1 := by
      rw [unlines_concat, byteLen_line]
    have hle : byteLen (unlines l) ≤ byteLen (unlines (l ++ rows)) := by
      rw [unlines_append, byteLen_append]
      omega
    obtain ⟨c', hprev, hstands, hrange⟩ := h.prevLine_spec hts htext hstart (by omega) hstop
      (unlines_concat (l ++ rows) row) (lineStart_unlines _) ⟨by simp, row, hrows row (by simp), .inr rfl⟩
    rw [decide_eq_true hle] at hprev
    rw [if_pos hle] at hstands
    exact ⟨c', by simpa using hprev, hstands, hrange⟩

theorem reversedLineIndentsFrom_step {l rows : List (List Char)} {line r z : List Char}
    (hr : r = [] ∨ ∃ r', r = '\n' :: r') (hrows : ∀ u ∈ l ++ rows, '\n' ∉ u)
    (h : c.Stands ts (unlines (l ++ rows))) (htext : ts.flatten = unlines (l ++ rows) ++ ((line ++ r) ++ z))
    (hstart : c.range.start = byteLen (unlines l))
    (hstop : c.range.stop = byteLen (unlines (l ++ rows) ++ (line ++ r))) (fuel row : Nat) :
    ∃ c', reversedLineIndentsFrom (fuel + 1) c row = (if rows ≠ [] then
          if row = 0 then none
          else (reversedLineIndentsFrom fuel c' (row - 1)).map ((row, LineIndent.fromIter line) :: ·)
        else some [(row, LineIndent.fromIter line)]) ∧
      c'.Stands ts (unlines (l ++ rows.dropLast)) ∧ c'.range = c.range := by
  have hle : byteLen (unlines l) ≤ byteLen (unlines (l ++ rows)) := by
    rw [unlines_append, byteLen_append]
    omega
  have htext' : ts.flatten = unlines l ++ (unlines rows ++ ((line ++ r) ++ z)) := by
    rw [htext, unlines_append, append_assoc]
  obtain ⟨s, line', c₁, rfl, hs, hindent, hstands, hrange⟩ :=
    LineIndent.fromChunks_spec hts h hr htext (by omega) hstop
  have hlen := byteLen_append (unlines (l ++ rows)) s
  have hlen' : byteLen (unlines (l ++ rows) ++ (s ++ line' ++ r)) =
      byteLen (unlines (l ++ rows)) + byteLen s + byteLen (line' ++ r) := by
    rw [append_assoc, byteLen_append, byteLen_append, Nat.add_assoc]
  -- at the start of the line
  obtain ⟨c₂, hback, hstands₂, hrange₂⟩ : ∃ c₂, prevLineWhen (c.offset < c₁.offset) c₁ = some c₂ ∧
        c₂.Stands ts (unlines (l ++ rows)) ∧ c₂.range = c.range := by
    by_cases hne : s = []
    · subst hne
      rw [append_nil] at hstands
      exact ⟨c₁, if_neg (by rw [hstands.offset, h.offset]; simp), hstands, hrange⟩
    · have hpos := byteLen_pos hne
      obtain ⟨c₂, hprev, hstands₂, hrange₂⟩ := prevLine_of_indent hts hstands hs hne htext' (by rw [hrange, hstart])
        hle (by rw [hrange]; omega)
      refine ⟨c₂, ?_, hstands₂, hrange₂.trans hrange⟩
      rw [prevLineWhen, if_pos (decide_eq_true (by rw [hstands.offset, h.offset]; omega)), hprev]
      rfl
  obtain ⟨c', hprev, hstands', hrange'⟩ := prevLine_of_start hts hrows hstands₂ htext' (by rw [hrange₂, hstart])
    (by rw [hrange₂]; omega)
  refine ⟨c', ?_, hstands', hrange'.trans hrange₂⟩
  refine (congrArg (Option.bind · _) hindent).trans ?_
  refine (congrArg (Option.bind · _) hback).trans ?_
  refine (congrArg (Option.bind · _) hprev).trans ?_
  simp only [Option.bind_some, decide_eq_true_eq]

theorem reversedLineIndentsFrom_spec (l rows : List (List Char)) {line r z : List Char}
    (hr : r = [] ∨ ∃ r', r = '\n' :: r') {fuel : Nat} (hfuel : rows.length < fuel)
    (hrows : ∀ u ∈ l ++ rows, '\n' ∉ u) (h : c.Stands ts (unlines (l ++ rows)))
    (htext : ts.flatten = unlines (l ++ rows) ++ ((line ++ r) ++ z)) (hstart : c.range.start = byteLen (unlines l))
    (hstop : c.range.stop = byteLen (unlines (l ++ rows) ++ (line ++ r))) :
    reversedLineIndentsFrom fuel c (l.length + rows.length) =
      some (indentsOf l.length (rows ++ [line])).reverse := by
  induction rows using List.reverseRecOn generalizing c line r fuel with
  | nil =>
    obtain ⟨fuel, rfl⟩ : ∃ n, fuel = n + 1 := ⟨fuel - 1, by omega⟩
    obtain ⟨c', hstep, -, -⟩ := reversedLineIndentsFrom_step hts hr hrows h htext hstart hstop fuel l.length
    exact hstep
  | append_singleton rows row ih =>
    obtain ⟨fuel, rfl⟩ : ∃ n, fuel = n + 1 := ⟨fuel - 1, by omega⟩
    obtain ⟨c', hstep, hstands, hrange⟩ := reversedLineIndentsFrom_step hts hr hrows h htext hstart hstop fuel
      (l.length + (rows ++ [row]).length)
    rw [dropLast_concat] at hstands
    rw [length_append, length_singleton] at hfuel hstep ⊢
    rw [if_pos (by simp), if_neg (by omega)] at hstep
    rw [show l ++ (rows ++ [row]) = (l ++ rows) ++ [row] by simp, unlines_concat] at htext hstop
    have hrest := @ih c' row ('\n' :: (line ++ r)) (.inr ⟨_, rfl⟩) fuel (by omega)
      (fun u hu => hrows u (by rw [← append_assoc]; exact mem_append_left _ hu)) hstands
      (by rw [htext]; simp) (by rw [hrange, hstart]) (by rw [hrange, hstop]; simp)
    rw [hstep, show l.length + (rows.length + 1) - 1 = l.length + rows.length by omega, hrest, Option.map_some,
      indentsOf_concat l.length (rows ++ [row]), reverse_append, length_append, length_singleton]
    rfl

end

/-! ## The rows of a text -/

section

variable {rows : List (List Char)} (hrows : ∀ u ∈ rows, '\n' ∉ u)
include hrows

theorem linesOf_unlines : linesOf (unlines rows) = ⟨rows.length, 0⟩ := by
  induction rows using List.reverseRecOn with
  | nil => rfl
  | append_singleton rows row ih =>
    have hrow : '\n' ∉ row := hrows row (by simp)
    rw [unlines_concat, linesOf_append, ih fun u hu => hrows u (by simp [hu]), linesOf_append,
      linesOf_of_not_mem hrow, length_append, length_singleton]
    simp [linesOf, Point.add, Point.zero]

theorem linesOf_line {line : List Char}
    (hline : '\n' ∉ line) : linesOf (unlines rows ++ line) = ⟨rows.length, byteLen line⟩ := by
  rw [linesOf_append, linesOf_unlines hrows, linesOf_of_not_mem hline]
  simp [Point.add]

end

theorem exists_unlines {text : List Char} {row : Nat} (hrow : row ≤ (linesOf text).row) :
    ∃ rows rest, text = unlines rows ++ rest ∧ rows.length = row ∧ ∀ u ∈ rows, '\n' ∉ u := by
  induction row generalizing text with
  | zero => exact ⟨[], text, rfl, rfl, by simp⟩
  | succ row ih =>
    have hmem : '\n' ∈ text := by
      by_contra hnone
      rw [linesOf_of_not_mem hnone] at hrow
      exact Nat.not_succ_le_zero row hrow
    obtain ⟨u, w, rfl, hu⟩ := eq_append_cons_of_mem hmem
    have hrows : (linesOf (u ++ '\n' :: w)).row = 1 + (linesOf w).row := by
      rw [linesOf_append, linesOf_of_not_mem hu, linesOf_cons]
      simp only [linesOf, foldl_cons, foldl_nil, if_true, Point.zero, Point.add]
      split <;> split <;> simp_all
    obtain ⟨rows, rest, rfl, hlen, hall⟩ := ih (show row ≤ (linesOf w).row by omega)
    refine ⟨u :: rows, rest, ?_, by rw [length_cons, hlen], List.forall_mem_cons.mpr ⟨hu, hall⟩⟩
    rw [unlines_cons]
    simp

theorem exists_line (text : List Char) :
    ∃ line r, text = line ++ r ∧ '\n' ∉ line ∧ (r = [] ∨ ∃ r', r = '\n' :: r') := by
  by_cases hmem : '\n' ∈ text
  · obtain ⟨u, w, rfl, hu⟩ := eq_append_cons_of_mem hmem
    exact ⟨u, '\n' :: w, rfl, hu, .inr ⟨w, rfl⟩⟩
  · exact ⟨text, [], (append_nil text).symm, hmem, .inl rfl⟩

theorem takeWhile_line {line r : List Char} (hline : '\n' ∉ line) (hr : r = [] ∨ ∃ r', r = '\n' :: r') :
    (line ++ r).takeWhile (· ≠ '\n') = line := by
  rw [takeWhile_append_of_pos]
  · rcases hr with rfl | ⟨r', rfl⟩ <;> simp
  · intro a ha
    have hne : a ≠ '\n' := fun h => hline (h ▸ ha)
    simpa using hne

theorem lineLen_line {rows : List (List Char)} (hrows : ∀ u ∈ rows, '\n' ∉ u) {line r : List Char}
    (hline : '\n' ∉ line) (hr : r = [] ∨ ∃ r', r = '\n' :: r') :
    lineLen (unlines rows ++ (line ++ r)) rows.length = byteLen line := by
  have hlines := linesOf_unlines hrows
  have hix : Rows.lastIx '\n' (unlines rows) = rows.length := by rw [← linesOf_row, hlines]
  have hlast : Rows.lastRow '\n' (unlines rows) = [] := linesOf_column_eq_zero.mp (by rw [hlines])
  have hlen := lineLen_lastIx (unlines rows) (line ++ r)
  rw [hix, hlast, takeWhile_line hline hr, byteLen_nil, Nat.zero_add] at hlen
  exact hlen

/-! ## The iterators -/

theorem mem_indentsOf {row : Nat} {rows : List (List Char)} {e : Nat × LineIndent} (h : e ∈ indentsOf row rows) :
    ∃ before line after, rows = before ++ line :: after ∧ e = (row + before.length, LineIndent.fromIter line) := by
  induction rows generalizing row with
  | nil => cases h
  | cons line rows ih =>
    rcases List.mem_cons.mp h with rfl | h
    · exact ⟨[], line, rows, rfl, rfl⟩
    · obtain ⟨before, line', after, rfl, rfl⟩ := ih h
      refine ⟨line :: before, line', after, rfl, ?_⟩
      rw [length_cons, Nat.add_assoc, Nat.add_comm 1]

theorem map_fst_indentsOf (row : Nat) (rows : List (List Char)) :
    (indentsOf row rows).map Prod.fst = List.range' row rows.length := by
  induction rows generalizing row with
  | nil => rfl
  | cons line rows ih => rw [indentsOf_cons, map_cons, ih, length_cons, range'_succ]

theorem length_le_unlines (rows : List (List Char)) : rows.length ≤ byteLen (unlines rows) := by
  induction rows with
  | nil => exact Nat.zero_le _
  | cons row rows ih =>
    rw [unlines_cons, byteLen_newline, length_cons]
    omega

theorem indent_of_rest {rows before after : List (List Char)} {line line' r : List Char}
    (h : rows ++ [line] = before ++ line' :: after) (hr : r = [] ∨ ∃ r', r = '\n' :: r') :
    ∃ v, unlines rows ++ (line ++ r) = unlines before ++ v ∧ LineIndent.fromIter v = LineIndent.fromIter line' := by
  rcases eq_nil_or_concat' after with rfl | ⟨after, last, rfl⟩
  · obtain ⟨rfl, hline⟩ := append_inj' h rfl
    obtain rfl := (List.cons.inj hline).1
    exact ⟨line ++ r, rfl, LineIndent.scan_line _ line hr⟩
  · rw [← cons_append, ← append_assoc] at h
    obtain ⟨rfl, -⟩ := append_inj' h rfl
    refine ⟨line' ++ '\n' :: (unlines after ++ (line ++ r)), ?_, LineIndent.scan_line _ line' (.inr ⟨_, rfl⟩)⟩
    rw [unlines_append, unlines_cons]
    simp

end SpkEditor.Chunked
