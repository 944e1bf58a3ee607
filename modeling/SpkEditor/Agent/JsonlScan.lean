import SpkEditor.Lib.Lines
import Mathlib.Algebra.Order.Ring.Nat

/-!
# The scan of a growing transcript

The agent appends lines to a transcript; the editor looks at it from time to time, reads on
from where it stopped and takes the lines that are complete. One read stops at a cap, an
unfinished line is left for the next one, and a window without a line end is skipped whole.

Skipping never loses the place: it stays inside one line, and the bytes skipped there are a
multiple of the cap. So at every moment the scan stands inside the first line that it has
not handed out yet, and what it hands out of a line depends on the line alone: all of it if
the line with its end fits into a window, else a last piece.
-/

namespace SpkEditor.JsonlScan

open Cut Lines List

/-! ## The scan -/

def PARENT_JSONL_READ_CAP : Nat := 1024 * 1024

/-- `read_complete_lines_from` on what the file holds: the complete lines that are not empty,
and how far the cursor moves. -/
def readCompleteLinesFrom (file : List UInt8) (offset «end» : Nat) : List (List Char) × Nat :=
  let toRead := min («end» - offset) PARENT_JSONL_READ_CAP
  if toRead = 0 then ([], 0)
  else
    let buf := (file.drop offset).take toRead
    match rposition newline buf with
    | none => ([], if toRead = PARENT_JSONL_READ_CAP then toRead else 0)
    | some lastNewline =>
      ((lines (fromUtf8Lossy (buf.take (lastNewline + 1)))).filter fun l => l ≠ [], lastNewline + 1)

/-- The transcript, the cursor, and every line handed out so far. -/
structure Scan where
  file : List UInt8
  offset : Nat
  delivered : List (List Char)

inductive ScanEvent where
  /-- The agent writes. -/
  | append (bytes : List UInt8)
  /-- The editor looks at the length of the file, the agent writes `racing`, and the editor
  reads up to that length, if the file can be read. -/
  | tick (racing : List UInt8) (readable : Bool)

def Scan.step (s : Scan) : ScanEvent → Scan
  | .append bytes => { s with file := s.file ++ bytes }
  | .tick racing readable =>
    let len := s.file.length
    let file := s.file ++ racing
    if readable then
      let read := readCompleteLinesFrom file s.offset len
      ⟨file, s.offset + read.2, s.delivered ++ read.1⟩
    else { s with file := file }

def Scan.run (s : Scan) (events : List ScanEvent) : Scan := events.foldl Scan.step s

/-! ## What becomes of a line -/

/-- A line as it is handed out: not at all if it is empty. -/
def shown (line : List UInt8) : List (List Char) := if lineText line = [] then [] else [lineText line]

/-- What the scan hands out of a line. -/
def sent (line : List UInt8) : List (List Char) :=
  shown (line.drop (line.length / PARENT_JSONL_READ_CAP * PARENT_JSONL_READ_CAP))

/-- A line comes whole if it fits into a window with its end; of a longer one comes a piece
of its tail or nothing. -/
def Delivers (line : List UInt8) (out : List (List Char)) : Prop :=
  if line.length + 1 ≤ PARENT_JSONL_READ_CAP then out = shown line
  else out = [] ∨ ∃ fragment, fragment <:+ line ∧ out = [lineText fragment]

theorem cap_pos : 0 < PARENT_JSONL_READ_CAP := by decide

theorem sent_append {skipped line : List UInt8} (hskipped : PARENT_JSONL_READ_CAP ∣ skipped.length)
    (hline : line.length < PARENT_JSONL_READ_CAP) : sent (skipped ++ line) = shown line := by
  obtain ⟨j, hj⟩ := hskipped
  have hdiv : (skipped ++ line).length / PARENT_JSONL_READ_CAP * PARENT_JSONL_READ_CAP =
      skipped.length := by
    rw [length_append, hj, Nat.mul_add_div cap_pos, Nat.div_eq_of_lt hline, add_zero, mul_comm]
  rw [sent, hdiv, drop_left]

theorem sent_short {line : List UInt8} (hline : line.length < PARENT_JSONL_READ_CAP) :
    sent line = shown line :=
  @sent_append [] line (Nat.dvd_zero _) hline

theorem delivers_sent (line : List UInt8) : Delivers line (sent line) := by
  rw [Delivers]
  split
  · rename_i hlen
    exact sent_short hlen
  · rw [sent, shown]
    split
    · exact .inl rfl
    · exact .inr ⟨_, drop_suffix .., rfl⟩

theorem filter_lineText (ls : List (List UInt8)) :
    ((ls.map lineText).filter fun l => l ≠ []) = ls.flatMap shown := by
  induction ls with
  | nil => rfl
  | cons line ls ih =>
    rw [map_cons, filter_cons, ih, flatMap_cons, shown]
    by_cases h : lineText line = [] <;> simp [h]

/-! ## One read -/

inductive Reads (sight : List UInt8) : List (List Char) × Nat → Prop where
  /-- An unfinished line, to be read again. -/
  | waits (hn : newline ∉ sight) (hlen : sight.length < PARENT_JSONL_READ_CAP) : Reads sight ([], 0)
  /-- A window without a line end. -/
  | skips (window rest : List UInt8) (hsight : sight = window ++ rest)
      (hwindow : window.length = PARENT_JSONL_READ_CAP) (hn : newline ∉ window) :
      Reads sight ([], PARENT_JSONL_READ_CAP)
  | takes (line : List UInt8) (ls : List (List UInt8)) (rest : List UInt8)
      (hsight : sight = joined newline (line :: ls) ++ rest)
      (hn : ∀ l ∈ line :: ls, newline ∉ l)
      (hlen : (joined newline (line :: ls)).length ≤ PARENT_JSONL_READ_CAP) :
      Reads sight ((line :: ls).flatMap shown, (joined newline (line :: ls)).length)

/-- **A read** does one of three things with the bytes between the cursor and the end. -/
theorem readCompleteLinesFrom_spec (front sight racing : List UInt8) :
    Reads sight (readCompleteLinesFrom (front ++ (sight ++ racing)) front.length
      (front.length + sight.length)) := by
  have hpos := cap_pos
  rw [readCompleteLinesFrom, Nat.add_sub_cancel_left]
  dsimp only
  split
  · rename_i hzero
    have hnil : sight = [] := List.length_eq_zero_iff.mp (by omega)
    subst hnil
    exact .waits not_mem_nil hpos
  · rename_i hzero
    have hbuf : ((front ++ (sight ++ racing)).drop front.length).take
        (min sight.length PARENT_JSONL_READ_CAP) = sight.take PARENT_JSONL_READ_CAP := by
      rw [drop_left, take_append_of_le_length (min_le_left ..), min_comm, ← take_eq_take_min]
    rw [hbuf]
    split
    · rename_i hnone
      have hn := rposition_eq_none.mp hnone
      split
      · rename_i hfull
        rw [hfull]
        refine .skips (sight.take PARENT_JSONL_READ_CAP) (sight.drop PARENT_JSONL_READ_CAP)
          (take_append_drop ..).symm ?_ hn
        rw [length_take, min_comm, hfull]
      · rename_i hshort
        have hlt : sight.length < PARENT_JSONL_READ_CAP := by omega
        rw [take_of_length_le (le_of_lt hlt)] at hn
        exact .waits hn hlt
    · rename_i i hsome
      obtain ⟨line, ls, hmem, htake, hi, -⟩ := rposition_eq_some hsome
      have hlen : (joined newline (line :: ls)).length = i + 1 := by
        rw [← htake, length_take]
        omega
      rw [length_take] at hi
      rw [htake, lines_fromUtf8Lossy hmem, filter_lineText, ← hlen]
      refine .takes line ls (sight.drop (i + 1)) ?_ hmem (by omega)
      rw [← htake, take_take, min_eq_left (by omega), take_append_drop]

theorem reads_file {file : List UInt8} {offset : Nat} (h : offset ≤ file.length) :
    Reads (file.drop offset) (readCompleteLinesFrom file offset file.length) := by
  have hlen : (file.take offset).length = offset := by rw [length_take, min_eq_left h]
  have hspec := readCompleteLinesFrom_spec (file.take offset) (file.drop offset) []
  rwa [append_nil, take_append_drop, ← length_append, take_append_drop, hlen] at hspec

section

variable {sight : List UInt8} {r : List (List Char) × Nat} (h : Reads sight r)
include h

theorem Reads.le : r.2 ≤ sight.length := by
  cases h with
  | waits hn hlen => exact Nat.zero_le _
  | skips window rest hsight hwindow hn =>
    rw [hsight, length_append, hwindow]
    exact Nat.le_add_right ..
  | takes line ls rest hsight hn hlen =>
    rw [hsight, length_append]
    exact Nat.le_add_right ..

/-- A read that moves on nothing has found an unfinished line only. -/
theorem Reads.pos_or :
    0 < r.2 ∨ r = ([], 0) ∧ newline ∉ sight ∧ sight.length < PARENT_JSONL_READ_CAP := by
  cases h with
  | waits hn hlen => exact .inr ⟨rfl, hn, hlen⟩
  | skips window rest hsight hwindow hn => exact .inl cap_pos
  | takes line ls rest hsight hn hlen => exact .inl (by simp)

end

/-! ## Where the scan stands -/

/-- The cursor is `p` bytes into the region: behind the lines `done`, which are handed out,
and behind whole windows of the line after them. -/
structure Place (region : List UInt8) (p : Nat) (out : List (List Char))
    (done : List (List UInt8)) (skipped rest : List UInt8) : Prop where
  region_eq : region = joined newline done ++ (skipped ++ rest)
  done_closed : ∀ line ∈ done, newline ∉ line
  skipped_open : newline ∉ skipped
  windows : PARENT_JSONL_READ_CAP ∣ skipped.length
  at_cursor : p = (joined newline done).length + skipped.length
  out_eq : out = done.flatMap sent

def Scanned (region : List UInt8) (p : Nat) (out : List (List Char)) : Prop :=
  ∃ done skipped rest, Place region p out done skipped rest

section Place

variable {region : List UInt8} {p : Nat} {out : List (List Char)}

theorem Scanned.start (region : List UInt8) : Scanned region 0 [] :=
  ⟨[], [], region, rfl, by simp, by simp, Nat.dvd_zero _, rfl, rfl⟩

theorem Scanned.append (h : Scanned region p out) (bytes : List UInt8) :
    Scanned (region ++ bytes) p out := by
  obtain ⟨done, skipped, rest, w⟩ := h
  refine ⟨done, skipped, rest ++ bytes, ?_, w.done_closed, w.skipped_open, w.windows, w.at_cursor,
    w.out_eq⟩
  rw [w.region_eq]
  simp only [append_assoc]

variable {done : List (List UInt8)} {skipped rest : List UInt8}

section

variable (w : Place region p out done skipped rest)
include w

theorem Place.read {r : List (List Char) × Nat}
    (hr : Reads rest r) : Scanned region (p + r.2) (out ++ r.1) := by
  cases hr with
  | waits hn hlen => exact ⟨done, skipped, rest, by simpa using w⟩
  | skips window rest' hsight hwindow hn =>
    refine ⟨done, skipped ++ window, rest', ?_, w.done_closed, ?_, ?_, ?_, ?_⟩
    · rw [w.region_eq, hsight, append_assoc]
    · simp [w.skipped_open, hn]
    · rw [length_append, hwindow]
      exact (Nat.dvd_add_self_right).mpr w.windows
    · rw [w.at_cursor, length_append, hwindow, add_assoc]
    · rw [append_nil, w.out_eq]
  | takes line ls rest' hsight hn hlen =>
    obtain ⟨hline, hls⟩ := List.forall_mem_cons.mp hn
    have hshort : ∀ l ∈ line :: ls, l.length < PARENT_JSONL_READ_CAP := fun l hl =>
      lt_of_lt_of_le (length_le_joined hl) hlen
    refine ⟨done ++ (skipped ++ line) :: ls, [], rest', ?_, ?_, by simp, Nat.dvd_zero _, ?_, ?_⟩
    · rw [w.region_eq, hsight]
      simp
    · refine List.forall_mem_append.mpr ⟨w.done_closed, List.forall_mem_cons.mpr ⟨?_, hls⟩⟩
      simp [w.skipped_open, hline]
    · rw [w.at_cursor]
      simp
      omega
    · have hsent : ((skipped ++ line) :: ls).flatMap sent = (line :: ls).flatMap shown := by
        rw [flatMap_cons, flatMap_cons, sent_append w.windows (hshort line (mem_cons_self ..)),
          flatMap_congr fun l hl => sent_short (hshort l (mem_cons_of_mem _ hl))]
      rw [flatMap_append, ← w.out_eq, hsent]

theorem Place.lines :
    (closedBy newline region).1 = done ++ (closedBy newline (skipped ++ rest)).1 := by
  rw [w.region_eq, closedBy_joined w.done_closed]

/-- Nothing that a line end closes stands behind the cursor: every line is handed out. -/
theorem Place.caught_up (h : newline ∉ rest) : out = (closedBy newline region).1.flatMap sent := by
  rw [w.lines, closedBy_of_not_mem (by simp [w.skipped_open, h]), append_nil, w.out_eq]

theorem Place.drop : region.drop p = rest := by
  have hlen : p = (joined newline done ++ skipped).length := by
    rw [w.at_cursor, length_append]
  rw [w.region_eq, ← append_assoc, hlen, drop_left]

theorem Place.le : p ≤ region.length := by
  rw [w.region_eq, w.at_cursor]
  simp only [length_append]
  omega

theorem Place.read_lines : (closedBy newline (region.take p)).1 = done := by
  have hlen : p = (joined newline done ++ skipped).length := by
    rw [w.at_cursor, length_append]
  rw [w.region_eq, ← append_assoc, hlen, take_left, closedBy_joined w.done_closed,
    closedBy_of_not_mem w.skipped_open, append_nil]

end

end Place

/-- The run has started with the cursor behind `front`. -/
def Invariant (front : List UInt8) (old : List (List Char)) (s : Scan) : Prop :=
  ∃ region p out, s.file = front ++ region ∧ s.offset = front.length + p ∧
    s.delivered = old ++ out ∧ Scanned region p out

section Runs

variable {front : List UInt8} {old : List (List Char)} {s : Scan}

section

variable (h : Invariant front old s)
include h

theorem Invariant.tick (racing : List UInt8) : ∃ r, Reads (s.file.drop s.offset) r ∧
      s.step (.tick racing true) = ⟨s.file ++ racing, s.offset + r.2, s.delivered ++ r.1⟩ := by
  obtain ⟨region, p, out, hfile, hoff, -, done, skipped, rest, w⟩ := h
  have hcut : s.file = front ++ (joined newline done ++ skipped) ++ rest := by
    rw [hfile, w.region_eq]
    simp only [append_assoc]
  have hlen : s.offset = (front ++ (joined newline done ++ skipped)).length := by
    rw [hoff, w.at_cursor]
    simp only [length_append]
  have hend : s.file.length = (front ++ (joined newline done ++ skipped)).length + rest.length := by
    rw [hcut, length_append]
  have hread := readCompleteLinesFrom_spec (front ++ (joined newline done ++ skipped)) rest racing
  rw [← hlen] at hread hend
  rw [← hend, ← append_assoc, ← hcut] at hread
  refine ⟨_, ?_, rfl⟩
  rw [show s.file.drop s.offset = rest by rw [hcut, hlen, drop_left]]
  exact hread

theorem Invariant.step (event : ScanEvent) : Invariant front old (s.step event) := by
  cases event with
  | append bytes =>
    obtain ⟨region, p, out, hfile, hoff, hdel, hscan⟩ := h
    exact ⟨region ++ bytes, p, out, by rw [Scan.step, hfile, append_assoc], hoff, hdel,
      hscan.append bytes⟩
  | tick racing readable =>
    cases readable with
    | false =>
      obtain ⟨region, p, out, hfile, hoff, hdel, hscan⟩ := h
      exact ⟨region ++ racing, p, out, by simp [Scan.step, hfile], hoff, hdel, hscan.append racing⟩
    | true =>
      obtain ⟨r, hr, hstep⟩ := h.tick racing
      obtain ⟨region, p, out, hfile, hoff, hdel, done, skipped, rest, w⟩ := h
      rw [hfile, hoff, ← drop_drop, drop_left, w.drop] at hr
      rw [hstep]
      refine ⟨region ++ racing, p + r.2, out ++ r.1, ?_, ?_, ?_, (w.read hr).append racing⟩
      · rw [hfile, append_assoc]
      · rw [hoff, add_assoc]
      · rw [hdel, append_assoc]

theorem Invariant.run (events : List ScanEvent) : Invariant front old (s.run events) := by
  induction events generalizing s with
  | nil => exact h
  | cons event events ih => exact ih (h.step event)

end

/-- The tick of the editor when the agent writes nothing. -/
def quiet (n : Nat) : List ScanEvent := List.replicate n (.tick [] true)

theorem run_quiet_succ (s : Scan) (n : Nat) :
    s.run (quiet (n + 1)) = (s.step (.tick [] true)).run (quiet n) := rfl

theorem quiet_stays (h : newline ∉ s.file.drop s.offset) (n : Nat) :
    newline ∉ (s.run (quiet n)).file.drop (s.run (quiet n)).offset := by
  induction n generalizing s with
  | zero => exact h
  | succ n ih =>
    refine ih fun hmem => h ?_
    simp only [Scan.step, append_nil, if_true] at hmem
    rw [← drop_drop] at hmem
    exact mem_of_mem_drop hmem

theorem run_quiet_file (s : Scan) (n : Nat) : (s.run (quiet n)).file = s.file := by
  induction n generalizing s with
  | zero => rfl
  | succ n ih =>
    rw [run_quiet_succ, ih]
    simp [Scan.step]

/-- **The scan catches up**: as many ticks as bytes are left are enough. -/
theorem Invariant.catches_up (h : Invariant front old s) {n : Nat}
    (hn : s.file.length ≤ n + s.offset) :
    newline ∉ (s.run (quiet n)).file.drop (s.run (quiet n)).offset := by
  induction n generalizing s with
  | zero =>
    refine quiet_stays ?_ 0
    rw [drop_of_length_le (by omega)]
    exact not_mem_nil
  | succ n ih =>
    obtain ⟨r, hr, hstep⟩ := h.tick []
    rcases hr.pos_or with hpos | ⟨-, hnone, -⟩
    · have hlen : (s.step (.tick [] true)).file.length ≤ n + (s.step (.tick [] true)).offset := by
        rw [hstep]
        simp only [append_nil]
        omega
      exact ih (h.step _) hlen
    · exact quiet_stays hnone _

end Runs

theorem forall₂_delivers (ls : List (List UInt8)) : List.Forall₂ Delivers ls (ls.map sent) := by
  induction ls with
  | nil => exact .nil
  | cons line ls ih => exact .cons (delivers_sent line) ih

/-- **The scan hands out each line once.** Whatever is written and whenever the editor looks:
what has been handed out are the complete lines between the place where the scan was pinned
and the cursor, in order, each once and whole if it fits into a window; the cursor stays
within what was looked at, it moves when there is a complete line or a full window, and when
the writing stops, all complete lines come out. -/
theorem scan_delivers (s : Scan) (hpinned : s.offset ≤ s.file.length) (events : List ScanEvent) :
    let s' := s.run events
    let region := s'.file.drop s.offset
    let read := (closedBy newline (region.take (s'.offset - s.offset))).1
    let complete := (closedBy newline region).1
    read <+: complete ∧
    (∃ outs, List.Forall₂ Delivers read outs ∧ s'.delivered = s.delivered ++ outs.flatten) ∧
    (∀ racing readable, (s'.step (.tick racing readable)).offset ≤ s'.file.length) ∧
    (∀ racing, newline ∈ s'.file.drop s'.offset ∨
        PARENT_JSONL_READ_CAP ≤ (s'.file.drop s'.offset).length →
      s'.offset < (s'.step (.tick racing true)).offset) ∧
    ∀ n, s'.file.length ≤ n + s'.offset → ∃ outs, List.Forall₂ Delivers complete outs ∧
        (s'.run (quiet n)).delivered = s.delivered ++ outs.flatten := by
  intro s' region read complete
  have hfront : (s.file.take s.offset).length = s.offset := by
    rw [length_take, min_eq_left hpinned]
  have hstart : Invariant (s.file.take s.offset) s.delivered s :=
    ⟨s.file.drop s.offset, 0, [], (take_append_drop ..).symm, hfront.symm,
      (append_nil _).symm, .start _⟩
  have hinv : Invariant (s.file.take s.offset) s.delivered s' := hstart.run events
  have hregion : ∀ {t : Scan} {r : List UInt8}, t.file = s.file.take s.offset ++ r →
      t.file.drop s.offset = r := by
    intro t r ht
    rw [ht, ← hfront, length_take, min_eq_left hpinned, drop_left' hfront]
  obtain ⟨r, p, out, hfile, hoff, hdel, done, skipped, rest, w⟩ := id hinv
  have hle : s'.offset ≤ s'.file.length := by
    rw [hfile, hoff, length_append]
    exact Nat.add_le_add_left w.le _
  have hr : region = r := hregion hfile
  have hp : s'.offset - s.offset = p := by rw [hoff, hfront, Nat.add_sub_cancel_left]
  have hread : read = done := by
    rw [show read = (closedBy newline (region.take (s'.offset - s.offset))).1 from rfl, hp, hr,
      w.read_lines]
  refine ⟨?_, ⟨done.map sent, ?_, ?_⟩, ?_, ?_, ?_⟩
  · rw [hread, show complete = (closedBy newline region).1 from rfl, hr, w.lines]
    exact prefix_append ..
  · rw [hread]
    exact forall₂_delivers done
  · rw [hdel, w.out_eq, flatMap_def]
  · intro racing readable
    cases readable with
    | false => exact hle
    | true =>
      obtain ⟨got, hgot, hstep⟩ := hinv.tick racing
      have := hgot.le
      rw [length_drop] at this
      rw [hstep]
      dsimp only
      omega
  · intro racing hmore
    obtain ⟨got, hgot, hstep⟩ := hinv.tick racing
    rw [hstep]
    rcases hgot.pos_or with hpos | ⟨-, hnone, hshort⟩
    · exact Nat.lt_add_of_pos_right hpos
    · rcases hmore with hmore | hmore
      · exact absurd hmore hnone
      · omega
  · intro n hn
    have hdone := hinv.catches_up hn
    obtain ⟨r', p', out', hfile', hoff', hdel', done', skipped', rest', w'⟩ := hinv.run (quiet n)
    rw [hfile', hoff', ← drop_drop, drop_left, w'.drop] at hdone
    have hr' : region = r' := by
      rw [← hregion hfile', run_quiet_file]
    refine ⟨complete.map sent, forall₂_delivers complete, ?_⟩
    rw [hdel', w'.caught_up hdone, ← hr', flatMap_def]

theorem scan_delivers_pinned :
    let s' := (Scan.mk [] 0 []).run [.append [97, 10, 98], .tick [10] true]
    ∃ outs, List.Forall₂ Delivers (closedBy newline (s'.file.drop 0)).1 outs ∧
      (s'.run (quiet 4)).delivered = [] ++ outs.flatten :=
  (scan_delivers ⟨[], 0, []⟩ (le_refl 0) [.append [97, 10, 98], .tick [10] true]).2.2.2.2 4
    (Nat.le_add_right ..)

end SpkEditor.JsonlScan
