import SpkEditor.Lib.Lines
import Mathlib.Data.Nat.ModEq

/-!
# Patches and their previews

A patch is a series of file sections, each with a header and hunks; a message can stand before
each of them. `parse_patch_summary` of `git/src/operations/patch.rs` counts the lines of a section
that begin with `+` and with `-`, but for those that look like a line of a header.

So it passes over the lines of a hunk whose text begins with `++ ` or `-- `, and it counts lines
behind the hunks, such as the `-- ` above a mail signature. A count is right if there are as many
of the ones as of the others.
-/

namespace SpkEditor.Patches

open Cut Lines List

abbrev Line := List Char

/-- What a line of a hunk begins with. -/
inductive Mark where
  | context
  | added
  | deleted
  | noNewline
deriving DecidableEq

def Mark.char : Mark → Char
  | .context => ' '
  | .added => '+'
  | .deleted => '-'
  | .noNewline => '\\'

structure Hunk where
  oldStart : Nat
  newStart : Nat
  /-- What follows the second `@@`. -/
  context : Line
  body : List (Mark × Line)

def decimal (n : Nat) : Line := (toString n).toList

/-- A count of one is left out. -/
def hunkRange (start count : Nat) : Line :=
  decimal start ++ if count = 1 then [] else ',' :: decimal count

namespace Hunk

variable (h : Hunk)

def count (marks : List Mark) : Nat := h.body.countP (·.1 ∈ marks)

def header : Line :=
  "@@ -".toList ++ hunkRange h.oldStart (h.count [.context, .deleted]) ++ " +".toList ++
    hunkRange h.newStart (h.count [.context, .added]) ++ " @@".toList ++ h.context

def bodyLines : List Line := h.body.map fun line => line.1.char :: line.2

end Hunk

structure FileSection where
  oldPath : Line
  newPath : Line
  /-- The lines up to the first hunk. -/
  header : List Line
  hunks : List Hunk
  /-- The lines up to the next section: a signature, and the mail that follows. -/
  behind : List Line

def diffLine (oldPath newPath : Line) : Line :=
  "diff --git a/".toList ++ oldPath ++ " b/".toList ++ newPath

def FileSection.lines (f : FileSection) : List Line :=
  diffLine f.oldPath f.newPath :: f.header ++
    f.hunks.flatMap (fun h => h.header :: h.bodyLines) ++ f.behind

structure Series where
  /-- The first mail, up to the first section. -/
  before : List Line
  sections : List FileSection

def Series.lines (s : Series) : List Line := s.before ++ s.sections.flatMap FileSection.lines

def Series.text (s : Series) : List Char := joined '\n' s.lines

/-- An unquoted path: it has no control character. -/
def PlainPath (path : Line) : Prop := '\r' ∉ path ∧ ¬ " b/".toList <:+: path

def IsDiff (line : Line) : Prop := "diff --git a/".toList <+: line

/-- A line that is passed over: of a header, or above a hunk. -/
def Skipped (line : Line) : Prop :=
  "+++ ".toList <+: line ∨ "--- ".toList <+: line ∨ "@@".toList <+: line

/-- A line of a header: one of the two with the paths, or one that is neither marked nor begins
a section. -/
def IsHeader (line : Line) : Prop :=
  Skipped line ∨ line.head? ≠ some '+' ∧ line.head? ≠ some '-' ∧ ¬ IsDiff line

structure Series.WellFormed (s : Series) : Prop where
  lines : ∀ line ∈ s.lines, '\n' ∉ line
  paths : ∀ f ∈ s.sections, PlainPath f.oldPath ∧ PlainPath f.newPath
  headers : ∀ f ∈ s.sections, ∀ line ∈ f.header, IsHeader line

/-- `trim_end_matches('\r')`. -/
def trimCr (line : Line) : Line := line.rdropWhile (· = '\r')

instance : DecidablePred Skipped := fun _ => inferInstanceAs (Decidable (_ ∨ _ ∨ _))

instance : DecidablePred IsDiff := fun _ => inferInstanceAs (Decidable (_ <+: _))

instance : DecidablePred IsHeader := fun _ => inferInstanceAs (Decidable (_ ∨ _ ∧ _ ∧ _))

/-- The counts are `u32`. -/
def u32Size : Nat := 2 ^ 32

def countLine (line : Line) : Line × Nat × Nat → Line × Nat × Nat
  | (path, add, del) =>
    if Skipped line then (path, add, del)
    else if line.head? = some '+' then (path, (add + 1) % u32Size, del)
    else if line.head? = some '-' then (path, add, (del + 1) % u32Size)
    else (path, add, del)

/-- The variables of the loop: `summary` and `current`. -/
abbrev Summary := List (Line × Nat × Nat) × Option (Line × Nat × Nat)

def summaryStep (s : Summary) (line : Line) : Summary :=
  match stripFront "diff --git a/".toList line with
  | some rest => (s.1 ++ s.2.toList, some (((cutAt " b/".toList rest).map (·.2)).getD rest, 0, 0))
  | none => (s.1, s.2.map (countLine line))

def Summary.entries (s : Summary) : List (Line × Nat × Nat) := s.1 ++ s.2.toList

def parsePatchSummary (bytes : List UInt8) : List (Line × Nat × Nat) :=
  match fromUtf8 bytes with
  | none => []
  | some text => (((Cut.lines text).map trimCr).foldl summaryStep ([], none)).entries

/-! ## What is to hold -/

/-- The lines that begin with `mark` and are not passed over. -/
def counted (mark : Char) (ls : List Line) : Nat :=
  ls.countP fun line => line.head? = some mark ∧ ¬ Skipped line

namespace FileSection

variable (f : FileSection)

def body : List Line := f.hunks.flatMap Hunk.bodyLines

/-- The lines of the hunks that begin with `mark`. -/
def marked (mark : Char) : Nat := f.body.countP fun line => line.head? = some mark

/-- Those of them that are passed over. -/
def hidden (mark : Char) : Nat := f.body.countP fun line => line.head? = some mark ∧ Skipped line

/-- The lines behind the hunks that are counted. -/
def stray (mark : Char) : Nat := counted mark f.behind

def entry : Line × Nat × Nat := (f.newPath, f.marked '+', f.marked '-')

end FileSection

/-- No line outside of the sections begins one. -/
def Series.NoStrayDiff (s : Series) : Prop :=
  (∀ line ∈ s.before, ¬ IsDiff line) ∧ ∀ f ∈ s.sections, ∀ line ∈ f.behind, ¬ IsDiff line

/-- As many lines are passed over as are counted behind the hunks, in `u32`. -/
def FileSection.Balanced (f : FileSection) (mark : Char) : Prop :=
  f.hidden mark ≡ f.stray mark [MOD u32Size] ∧ f.marked mark < u32Size

theorem trimCr_append_cr (line : Line) : trimCr (line ++ ['\r']) = trimCr line :=
  rdropWhile_concat_pos _ _ _ (by decide)

theorem trimCr_stripCr (line : Line) : trimCr (stripCr line) = trimCr line := by
  unfold stripCr
  split
  next h =>
    obtain ⟨front, rfl⟩ := getLast?_eq_some_iff.mp h
    rw [dropLast_concat, trimCr_append_cr]
  · rfl

theorem lines_joined {ls : List Line} (h : ∀ line ∈ ls, '\n' ∉ line) :
    (Cut.lines (joined '\n' ls)).map trimCr = ls.map trimCr := by
  induction ls with
  | nil => rfl
  | cons line ls ih =>
    obtain ⟨hline, h⟩ := forall_mem_cons.mp h
    rw [joined_cons, lines_line hline, map_cons, map_cons, ih h, trimCr_stripCr]

theorem prefix_trimCr {front : Line} (h : '\r' ∉ front) (line : Line) :
    front <+: trimCr line ↔ front <+: line := by
  induction line using reverseRecOn with
  | nil => rfl
  | append_singleton line x ih =>
    by_cases hx : x = '\r'
    · rw [hx, trimCr_append_cr, ih, prefix_concat_iff]
      exact ⟨.inr, fun h' => h'.resolve_left fun heq => h (heq ▸ mem_concat_self)⟩
    · unfold trimCr
      rw [rdropWhile_concat_neg _ _ _ (by simpa using hx)]

theorem head?_eq_some_iff {c : Char} {line : Line} : line.head? = some c ↔ [c] <+: line := by
  cases line <;> simp [eq_comm]

theorem isDiff_trimCr (line : Line) : IsDiff (trimCr line) ↔ IsDiff line :=
  prefix_trimCr (by decide) line

theorem skipped_trimCr (line : Line) : Skipped (trimCr line) ↔ Skipped line := by
  unfold Skipped
  rw [prefix_trimCr (by decide), prefix_trimCr (by decide), prefix_trimCr (by decide)]

theorem head?_trimCr {c : Char} (hc : c ≠ '\r') (line : Line) :
    (trimCr line).head? = some c ↔ line.head? = some c := by
  rw [head?_eq_some_iff, head?_eq_some_iff, prefix_trimCr (by simpa using hc.symm)]

theorem stripFront_eq_none {front line : Line} (h : ¬ front <+: line) : stripFront front line = none := by
  rw [Option.eq_none_iff_forall_ne_some]
  exact fun rest hrest => h ⟨rest, (eq_of_stripFront hrest).symm⟩

/-- The two paths of a section are told apart if the first one is plain. -/
theorem cutAt_paths {oldPath : Line} (h : ¬ " b/".toList <:+: oldPath) (newPath : Line) :
    cutAt " b/".toList (oldPath ++ (" b/".toList ++ newPath)) = some (oldPath, newPath) := by
  induction oldPath with
  | nil => rfl
  | cons c oldPath ih =>
    have hnot : ¬ " b/".toList <+: c :: (oldPath ++ (" b/".toList ++ newPath)) := by
      intro hpre
      match oldPath, h, hpre with
      | [], _, hpre => simp at hpre
      | [d], _, hpre => simp at hpre
      | d :: e :: rest, h, hpre =>
        refine h (IsPrefix.isInfix ?_)
        simp at hpre ⊢
        exact hpre
    rw [cons_append, cutAt, stripFront_eq_none hnot]
    rw [ih fun hin => h (hin.trans (suffix_cons c oldPath).isInfix)]
    rfl

theorem trimCr_of_not_mem {line : Line} (h : '\r' ∉ line) : trimCr line = line := by
  refine rdropWhile_eq_self_iff.mpr fun hne hlast => h ?_
  exact of_decide_eq_true hlast ▸ getLast_mem hne

variable {done : List (Line × Nat × Nat)} {path : Line} {add del : Nat}

theorem summaryStep_diff {f : FileSection} (h : PlainPath f.oldPath ∧ PlainPath f.newPath)
    (s : Summary) : summaryStep s (trimCr (diffLine f.oldPath f.newPath)) =
      (s.1 ++ s.2.toList, some (f.newPath, 0, 0)) := by
  have hcr : '\r' ∉ diffLine f.oldPath f.newPath := by
    unfold diffLine
    simp only [mem_append, not_or]
    exact ⟨⟨⟨by decide, h.1.1⟩, by decide⟩, h.2.1⟩
  rw [trimCr_of_not_mem hcr]
  unfold summaryStep diffLine
  rw [append_assoc, append_assoc, stripFront_append]
  dsimp only
  rw [cutAt_paths h.1.2]
  rfl

theorem summaryStep_line {line : Line} (h : ¬ IsDiff line) (s : Summary) :
    summaryStep s line = (s.1, s.2.map (countLine line)) := by
  unfold summaryStep
  rw [stripFront_eq_none h]

theorem countLine_trimCr (line : Line) : countLine (trimCr line) (path, add, del) =
    (path, if line.head? = some '+' ∧ ¬ Skipped line then (add + 1) % u32Size else add,
      if line.head? = some '-' ∧ ¬ Skipped line then (del + 1) % u32Size else del) := by
  unfold countLine
  simp only [skipped_trimCr, head?_trimCr (show '+' ≠ '\r' by decide),
    head?_trimCr (show '-' ≠ '\r' by decide)]
  by_cases hs : Skipped line
  · simp [hs]
  · by_cases hadd : line.head? = some '+'
    · simp [hs, hadd]
    · by_cases hdel : line.head? = some '-' <;> simp [hs, hadd, hdel]

theorem foldl_summaryStep {ls : List Line} (h : ∀ line ∈ ls, ¬ IsDiff line) (ha : add < u32Size)
    (hd : del < u32Size) : (ls.map trimCr).foldl summaryStep (done, some (path, add, del)) =
      (done, some (path, (add + counted '+' ls) % u32Size, (del + counted '-' ls) % u32Size)) := by
  induction ls generalizing add del with
  | nil =>
    rw [counted, counted, countP_nil, countP_nil, Nat.add_zero, Nat.add_zero, Nat.mod_eq_of_lt ha,
      Nat.mod_eq_of_lt hd]
    rfl
  | cons line ls ih =>
    obtain ⟨hline, h⟩ := forall_mem_cons.mp h
    have hstep (n k : Nat) (p : Prop) [Decidable p] :
        ((if p then (n + 1) % u32Size else n) + k) % u32Size =
          (n + (k + if decide p = true then 1 else 0)) % u32Size := by
      by_cases hp : p
      · simp only [hp, if_true, decide_true, Nat.mod_add_mod]
        congr 1
        omega
      · simp [hp]
    have hlt (n : Nat) (p : Prop) [Decidable p] (hn : n < u32Size) :
        (if p then (n + 1) % u32Size else n) < u32Size := by
      split
      · exact Nat.mod_lt _ (by decide)
      · exact hn
    rw [map_cons, foldl_cons, summaryStep_line ((isDiff_trimCr line).not.mpr hline), Option.map_some,
      countLine_trimCr, ih h (hlt _ _ ha) (hlt _ _ hd), hstep, hstep]
    unfold counted
    rw [countP_cons, countP_cons]

theorem counted_append (mark : Char) (ls more : List Line) :
    counted mark (ls ++ more) = counted mark ls + counted mark more := countP_append

theorem counted_header {mark : Char} (hmark : mark = '+' ∨ mark = '-') {ls : List Line}
    (h : ∀ line ∈ ls, IsHeader line) : counted mark ls = 0 := by
  refine countP_eq_zero.mpr fun line hline hcount => ?_
  obtain ⟨hhead, hskip⟩ := of_decide_eq_true hcount
  obtain ⟨hadd, hdel, -⟩ := (h line hline).resolve_left hskip
  rcases hmark with rfl | rfl
  · exact hadd hhead
  · exact hdel hhead

theorem isHeader_header (h : Hunk) : IsHeader h.header := by
  refine .inl (.inr (.inr ?_))
  unfold Hunk.header
  simp

/-- A line that begins with another character begins no section. -/
theorem not_isDiff {c : Char} {line : Line} (h : [c] <+: line) (hc : c ≠ 'd') : ¬ IsDiff line := by
  intro hdiff
  have hd := (show ['d'] <+: "diff --git a/".toList by decide).trans hdiff
  exact hc (Option.some.inj ((head?_eq_some_iff.mpr h).symm.trans (head?_eq_some_iff.mpr hd)))

theorem not_isDiff_of_isHeader {line : Line} (h : IsHeader line) : ¬ IsDiff line := by
  rcases h with (h | h | h) | ⟨-, -, h⟩
  · exact not_isDiff ((show ['+'] <+: "+++ ".toList by decide).trans h) (by decide)
  · exact not_isDiff ((show ['-'] <+: "--- ".toList by decide).trans h) (by decide)
  · exact not_isDiff ((show ['@'] <+: "@@".toList by decide).trans h) (by decide)
  · exact h

theorem counted_hunks {mark : Char} (hmark : mark = '+' ∨ mark = '-') (hunks : List Hunk) :
    counted mark (hunks.flatMap fun h => h.header :: h.bodyLines) =
      counted mark (hunks.flatMap Hunk.bodyLines) := by
  induction hunks with
  | nil => rfl
  | cons h hunks ih =>
    have hheader : counted mark [h.header] = 0 :=
      counted_header hmark fun line hline => mem_singleton.mp hline ▸ isHeader_header h
    rw [flatMap_cons, flatMap_cons, cons_append, ← singleton_append, counted_append, hheader,
      counted_append, counted_append, ih, Nat.zero_add]

/-- The lines of a section behind its first one, as far as the last hunk. -/
def FileSection.inner (f : FileSection) : List Line :=
  f.header ++ f.hunks.flatMap fun h => h.header :: h.bodyLines

theorem not_isDiff_inner {f : FileSection} (hheader : ∀ line ∈ f.header, IsHeader line) :
    ∀ line ∈ f.inner, ¬ IsDiff line := by
  intro line hline
  rcases mem_append.mp hline with hline | hline
  · exact not_isDiff_of_isHeader (hheader line hline)
  · obtain ⟨h, -, hline⟩ := mem_flatMap.mp hline
    rcases mem_cons.mp hline with rfl | hline
    · exact not_isDiff_of_isHeader (isHeader_header h)
    · obtain ⟨⟨mark, rest⟩, -, rfl⟩ := mem_map.mp hline
      exact not_isDiff (prefix_append [mark.char] rest) (by cases mark <;> decide)

def FileSection.found (f : FileSection) : Line × Nat × Nat :=
  (f.newPath, (counted '+' f.body + f.stray '+') % u32Size,
    (counted '-' f.body + f.stray '-') % u32Size)

theorem foldl_section {f : FileSection} (hpaths : PlainPath f.oldPath ∧ PlainPath f.newPath)
    (hheader : ∀ line ∈ f.header, IsHeader line) (hbehind : ∀ line ∈ f.behind, ¬ IsDiff line)
    (s : Summary) :
    (f.lines.map trimCr).foldl summaryStep s = (s.1 ++ s.2.toList, some f.found) := by
  have hlines : ∀ line ∈ f.inner ++ f.behind, ¬ IsDiff line := fun line hline =>
    (mem_append.mp hline).elim (not_isDiff_inner hheader line) (hbehind line)
  have hsplit : f.lines = diffLine f.oldPath f.newPath :: (f.inner ++ f.behind) := rfl
  rw [hsplit, map_cons, foldl_cons, summaryStep_diff hpaths,
    foldl_summaryStep hlines (by decide) (by decide)]
  unfold FileSection.inner
  simp only [counted_append, counted_header (.inl rfl) hheader, counted_header (.inr rfl) hheader,
    counted_hunks (.inl rfl), counted_hunks (.inr rfl), Nat.zero_add]
  rfl

variable {s : Series}

theorem foldl_sections {sections : List FileSection}
    (hpaths : ∀ f ∈ sections, PlainPath f.oldPath ∧ PlainPath f.newPath)
    (hheader : ∀ f ∈ sections, ∀ line ∈ f.header, IsHeader line)
    (hbehind : ∀ f ∈ sections, ∀ line ∈ f.behind, ¬ IsDiff line) (r : Summary) :
    (((sections.flatMap FileSection.lines).map trimCr).foldl summaryStep r).entries =
      r.entries ++ sections.map FileSection.found := by
  induction sections generalizing r with
  | nil => exact (append_nil _).symm
  | cons f sections ih =>
    rw [forall_mem_cons] at hpaths hheader hbehind
    rw [flatMap_cons, map_append, foldl_append, foldl_section hpaths.1 hheader.1 hbehind.1,
      ih hpaths.2 hheader.2 hbehind.2, map_cons]
    simp [Summary.entries]

theorem foldl_before {ls : List Line} (h : ∀ line ∈ ls, ¬ IsDiff line) :
    (ls.map trimCr).foldl summaryStep ([], none) = ([], none) := by
  induction ls with
  | nil => rfl
  | cons line ls ih =>
    obtain ⟨hline, h⟩ := forall_mem_cons.mp h
    rw [map_cons, foldl_cons, summaryStep_line ((isDiff_trimCr line).not.mpr hline)]
    exact ih h

def diffs (ls : List Line) : Nat := ls.countP fun line => IsDiff line

/-- Each line that begins a section makes an entry. -/
theorem length_foldl (ls : List Line) (r : Summary) :
    ((ls.map trimCr).foldl summaryStep r).entries.length = r.entries.length + diffs ls := by
  induction ls generalizing r with
  | nil => rfl
  | cons line ls ih =>
    rw [map_cons, foldl_cons, ih, diffs, diffs, countP_cons]
    by_cases hdiff : IsDiff line
    · obtain ⟨rest, hrest⟩ := (isDiff_trimCr line).mpr hdiff
      unfold summaryStep
      rw [← hrest, stripFront_append]
      simp only [Summary.entries, hdiff, decide_true, if_true, Option.toList_some, length_append,
        length_singleton]
      omega
    · rw [summaryStep_line ((isDiff_trimCr line).not.mpr hdiff)]
      obtain ⟨done, current⟩ := r
      cases current <;> simp [Summary.entries, hdiff]

theorem diffs_lines {f : FileSection} (hheader : ∀ line ∈ f.header, IsHeader line) :
    diffs f.lines = 1 + diffs f.behind := by
  have hfirst : IsDiff (diffLine f.oldPath f.newPath) := by
    unfold IsDiff diffLine
    exact prefix_append _ _
  have hinner : diffs f.inner = 0 :=
    countP_eq_zero.mpr fun line hline hdiff =>
      not_isDiff_inner hheader line hline (of_decide_eq_true hdiff)
  have hsplit : f.lines = diffLine f.oldPath f.newPath :: (f.inner ++ f.behind) := rfl
  unfold diffs at *
  rw [hsplit, countP_cons, countP_append, hinner, if_pos (decide_eq_true hfirst)]
  omega

theorem length_le_diffs {sections : List FileSection}
    (hheader : ∀ f ∈ sections, ∀ line ∈ f.header, IsHeader line) :
    sections.length ≤ diffs (sections.flatMap FileSection.lines) ∧
      (diffs (sections.flatMap FileSection.lines) = sections.length →
        ∀ f ∈ sections, diffs f.behind = 0) := by
  induction sections with
  | nil => exact ⟨le_rfl, nofun⟩
  | cons f sections ih =>
    rw [forall_mem_cons] at hheader
    have hcount : diffs ((f :: sections).flatMap FileSection.lines) =
        diffs f.lines + diffs (sections.flatMap FileSection.lines) := countP_append
    obtain ⟨hle, heq⟩ := ih hheader.2
    rw [hcount, diffs_lines hheader.1, length_cons]
    exact ⟨by omega, fun h => forall_mem_cons.mpr ⟨by omega, heq (by omega)⟩⟩

theorem found_eq_entry {f : FileSection} :
    f.found = f.entry ↔ f.Balanced '+' ∧ f.Balanced '-' := by
  have hsplit (mark : Char) : f.marked mark = counted mark f.body + f.hidden mark := by
    unfold FileSection.marked FileSection.hidden counted
    induction f.body with
    | nil => rfl
    | cons line ls ih =>
      rw [countP_cons, countP_cons, countP_cons, ih]
      by_cases hs : Skipped line <;> by_cases hm : line.head? = some mark <;> simp [hs, hm] <;> omega
  have hbalanced (mark : Char) : (counted mark f.body + f.stray mark) % u32Size = f.marked mark ↔
      f.Balanced mark := by
    unfold FileSection.Balanced
    rw [hsplit]
    constructor
    · intro h
      have hlt := h ▸ Nat.mod_lt _ (by decide : 0 < u32Size)
      refine ⟨Nat.ModEq.add_left_cancel' (counted mark f.body) ?_, hlt⟩
      exact (Nat.mod_eq_of_lt hlt).trans h.symm
    · rintro ⟨hmod, hlt⟩
      exact Eq.trans (hmod.add_left (counted mark f.body)).symm (Nat.mod_eq_of_lt hlt)
  unfold FileSection.found FileSection.entry
  rw [Prod.mk.injEq, Prod.mk.injEq, hbalanced, hbalanced]
  exact ⟨And.right, fun h => ⟨rfl, h⟩⟩

/-- **The preview is right** exactly if as many lines are passed over in each section as are counted
behind it, and no message has a line that begins a section. -/
theorem summary_iff (hwf : s.WellFormed) :
    parsePatchSummary (utf8 s.text) = s.sections.map FileSection.entry ↔
      s.NoStrayDiff ∧ ∀ f ∈ s.sections, f.Balanced '+' ∧ f.Balanced '-' := by
  unfold parsePatchSummary Series.text
  rw [fromUtf8_utf8]
  dsimp only
  rw [lines_joined hwf.lines]
  have hright : s.NoStrayDiff → ((s.lines.map trimCr).foldl summaryStep ([], none)).entries =
      s.sections.map FileSection.found := by
    intro hstray
    unfold Series.lines
    rw [map_append, foldl_append, foldl_before hstray.1]
    exact foldl_sections hwf.paths hwf.headers hstray.2 _
  have hfound : s.sections.map FileSection.found = s.sections.map FileSection.entry ↔
      ∀ f ∈ s.sections, f.Balanced '+' ∧ f.Balanced '-' := by
    rw [map_inj_left]
    exact forall₂_congr fun f _ => found_eq_entry
  constructor
  · intro h
    -- there are no more entries than sections
    have hlen := length_foldl s.lines ([], none)
    have hcount : diffs s.lines = diffs s.before + diffs (s.sections.flatMap FileSection.lines) :=
      countP_append
    rw [h, length_map, hcount] at hlen
    obtain ⟨hle, heq⟩ := length_le_diffs hwf.headers
    have hnone (ls : List Line) (h : diffs ls = 0) : ∀ line ∈ ls, ¬ IsDiff line :=
      fun line hline hdiff => countP_eq_zero.mp h line hline (decide_eq_true hdiff)
    have hstray : s.NoStrayDiff :=
      ⟨hnone _ (by omega), fun f hf => hnone _ (heq (by omega) f hf)⟩
    exact ⟨hstray, hfound.mp ((hright hstray).symm.trans h)⟩
  · rintro ⟨hstray, hbalanced⟩
    exact (hright hstray).trans (hfound.mpr hbalanced)

def oneAdded (behind : List Line) : Series :=
  ⟨[], [⟨['f'], ['f'], ["--- a/f".toList, "+++ b/f".toList],
    [⟨0, 1, [], [(.added, "text".toList)]⟩], behind⟩]⟩

theorem summary_diff : parsePatchSummary (utf8 (oneAdded []).text) = [(['f'], 1, 0)] :=
  (summary_iff ⟨by decide, by
    simp only [oneAdded, mem_singleton, forall_eq, PlainPath]
    decide, by decide⟩).mpr ⟨⟨nofun, by decide⟩, by
    simp only [oneAdded, mem_singleton, forall_eq, FileSection.Balanced]
    decide⟩

/-- Above a mail signature there is a line that counts as deleted. -/
theorem summary_signature :
    parsePatchSummary (utf8 (oneAdded ["-- ".toList, "2.43.0".toList]).text) ≠
      (oneAdded ["-- ".toList, "2.43.0".toList]).sections.map FileSection.entry := by
  unfold parsePatchSummary
  decide

end SpkEditor.Patches
