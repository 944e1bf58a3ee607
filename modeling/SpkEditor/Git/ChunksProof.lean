import SpkEditor.Git.Chunks

/-!
# What is read from what Git writes

The searches go line by line (`findLineMarker_lines`), so each finds the marker of its
own conflict (`nextChunk_conflict`). One kind of conflict is read wrongly: when our side
is empty, its base section is taken for our side (`Conflict.parsed`), because the base
marker then stands right at the place after which it is looked for. Apart from that the
sections come back as they were written (`extract_segments`).
-/

namespace SpkEditor

open List

variable {bytes : List UInt8}

section

variable {before after line m : List Char}

theorem scanNewline_append : ∀ {bytes : List UInt8} {i : Nat} (rest : List UInt8), (10 : UInt8) ∉ bytes →
    scanNewline (bytes ++ 10 :: rest) i = some (i + bytes.length + 1)
  | [], i, rest, _ => by simp [scanNewline]
  | b :: bytes, i, rest, h => by
      have hb : b ≠ 10 := fun heq => h (by rw [heq]; exact mem_cons_self ..)
      have hbs : (10 : UInt8) ∉ bytes := fun hm => h (mem_cons_of_mem _ hm)
      rw [cons_append, scanNewline, if_neg hb, scanNewline_append rest hbs, length_cons]
      congr 1
      omega

theorem newline_notMem (h : '\n' ∉ line) : (10 : UInt8) ∉ utf8 line := fun hm =>
  h ((ascii_mem_utf8 (show '\n'.val.toNat < 128 by decide) line).mp hm)

theorem utf8_newline (text : List Char) : utf8 ('\n' :: text) = 10 :: utf8 text := rfl

theorem endOfLine_line (h : '\n' ∉ line) :
    endOfLine (utf8 (before ++ (line ++ '\n' :: after))) (byteLen before) =
      some (byteLen (before ++ (line ++ ['\n']))) := by
  unfold endOfLine
  have hdrop : (utf8 (before ++ (line ++ '\n' :: after))).drop (byteLen before) =
      utf8 line ++ 10 :: utf8 after := by
    rw [utf8_append, ← length_utf8, drop_left, utf8_append, utf8_newline]
  rw [hdrop, scanNewline_append _ (newline_notMem h)]
  simp only [byteLen_append, length_utf8]
  rfl

theorem slice_utf8 (before middle after : List Char) :
    slice (utf8 (before ++ (middle ++ after))) (byteLen before) (byteLen (before ++ middle)) =
      utf8 middle := by
  have hsplit : utf8 (before ++ (middle ++ after)) = utf8 (before ++ middle) ++ utf8 after := by
    rw [← append_assoc, utf8_append]
  rw [slice, hsplit, ← length_utf8 (before ++ middle), take_left, utf8_append, ← length_utf8,
    drop_left]

theorem lt_endOfLine {pos : Nat} (h : pos < bytes.length) :
    pos < (endOfLine bytes pos).getD bytes.length := by
  have hscan : ∀ (l : List UInt8) (i stop : Nat), scanNewline l i = some stop → i < stop := by
    intro l
    induction l with
    | nil => intro i stop heq; exact absurd heq (by simp [scanNewline])
    | cons b l ih =>
      intro i stop heq
      unfold scanNewline at heq
      split at heq
      · have := Option.some.inj heq
        omega
      · have := ih _ _ heq
        omega
  unfold endOfLine
  cases heq : scanNewline (bytes.drop pos) pos with
  | some stop => exact hscan _ _ _ heq
  | none => simp [h]

/-- More turns than there are bytes left change nothing. -/
theorem findLineMarkerFrom_fuel {marker : List UInt8} : ∀ (fuel fuel' pos : Nat),
    bytes.length - pos ≤ fuel → bytes.length - pos ≤ fuel' →
      findLineMarkerFrom bytes marker fuel pos = findLineMarkerFrom bytes marker fuel' pos := by
  intro fuel
  induction fuel with
  | zero =>
    intro fuel' pos h _
    cases fuel' with
    | zero => rfl
    | succ n => rw [findLineMarkerFrom, findLineMarkerFrom, if_neg (by omega)]
  | succ fuel ih =>
    intro fuel' pos h h'
    by_cases hpos : pos < bytes.length
    · obtain ⟨n, rfl⟩ : ∃ n, fuel' = n + 1 := ⟨fuel' - 1, by omega⟩
      rw [findLineMarkerFrom, findLineMarkerFrom, if_pos hpos, if_pos hpos]
      dsimp only
      split
      · rfl
      · have := lt_endOfLine hpos
        exact ih n _ (by omega) (by omega)
    · cases fuel' with
      | zero => rw [findLineMarkerFrom, findLineMarkerFrom, if_neg hpos]
      | succ n => rw [findLineMarkerFrom, findLineMarkerFrom, if_neg hpos, if_neg hpos]

theorem findLineMarker_step {pos : Nat} (h : pos < bytes.length) : findLineMarker bytes pos m =
      let lineEnd := (endOfLine bytes pos).getD bytes.length
      if (utf8 m).isPrefixOf (slice bytes pos lineEnd) then some pos else findLineMarker bytes lineEnd m := by
  have hlt := lt_endOfLine h
  unfold findLineMarker
  rw [findLineMarkerFrom_fuel _ (bytes.length - pos - 1 + 1) pos (Nat.le_refl _) (by omega),
    findLineMarkerFrom, if_pos h]
  dsimp only
  split
  · rfl
  · exact findLineMarkerFrom_fuel _ _ _ (by omega) (Nat.le_refl _)

theorem findLineMarker_end : findLineMarker bytes bytes.length m = none := by
  rw [findLineMarker, Nat.sub_self]
  rfl

/-- What is found stands no earlier than where the search began. -/
theorem le_findLineMarker : ∀ (fuel pos : Nat) {p : Nat},
    findLineMarkerFrom bytes (utf8 m) fuel pos = some p → pos ≤ p := by
  intro fuel
  induction fuel with
  | zero => intro pos p h; exact absurd h (by simp [findLineMarkerFrom])
  | succ fuel ih =>
    intro pos p h
    rw [findLineMarkerFrom] at h
    split at h
    · rename_i hpos
      dsimp only at h
      split at h
      · exact Nat.le_of_eq (Option.some.inj h)
      · have := lt_endOfLine hpos
        have := ih _ h
        omega
    · cases h

theorem findLineMarker_line (hm : ∀ a ∈ m, a.val.toNat < 128) (hn : '\n' ∉ m) (h : '\n' ∉ line) :
    findLineMarker (utf8 (before ++ (line ++ '\n' :: after))) (byteLen before) m =
      if m <+: line then some (byteLen before)
      else findLineMarker (utf8 (before ++ (line ++ '\n' :: after)))
        (byteLen (before ++ (line ++ ['\n']))) m := by
  have hlen : byteLen before < (utf8 (before ++ (line ++ '\n' :: after))).length := by
    rw [length_utf8, byteLen_append, byteLen_append]
    have := byteLen_pos (cons_ne_nil '\n' after)
    omega
  have hslice := slice_utf8 before (line ++ ['\n']) after
  rw [append_assoc, singleton_append] at hslice
  rw [findLineMarker_step hlen, endOfLine_line h]
  dsimp only [Option.getD_some]
  rw [hslice]
  have hiff : ((utf8 m).isPrefixOf (utf8 (line ++ ['\n'])) = true) ↔ m <+: line := by
    rw [ascii_isPrefixOf_utf8 m _ hm, prefix_concat_iff]
    constructor
    · rintro (heq | hpre)
      · rw [heq] at hn
        exact absurd (by simp) hn
      · exact hpre
    · exact Or.inr
  by_cases hp : m <+: line
  · rw [if_pos hp, if_pos (hiff.mpr hp)]
  · rw [if_neg hp, if_neg (fun h => hp (hiff.mp h))]

/-! ## Sections and markers -/

def markers : List (List Char) := [oursMarker, baseMarker, separatorMarker, theirsMarker]

theorem markers_ascii : ∀ m ∈ markers, ∀ a ∈ m, a.val.toNat < 128 := by
  simp [markers, oursMarker, baseMarker, separatorMarker, theirsMarker]

theorem newline_notMem_markers : ∀ m ∈ markers, '\n' ∉ m := by
  simp [markers, oursMarker, baseMarker, separatorMarker, theirsMarker]

theorem marker_not_before : ∀ m ∈ markers, ∀ m' ∈ markers, ∀ label : List Char,
    m <+: m' ++ label ↔ m = m' := by
  have hlen : ∀ m ∈ markers, m.length = 7 := by decide
  intro m hm m' hm' label
  constructor
  · intro h
    have htake := List.prefix_iff_eq_take.mp h
    rwa [hlen m hm, ← hlen m' hm', take_left] at htake
  · rintro rfl
    exact prefix_append ..

theorem findLineMarker_passes {α : Type} {content : α → List Char} {text : List Char} (hm : m ∈ markers) :
    ∀ {lines : List α} {before after : List Char},
      text = before ++ (lines.flatMap (fun l => content l ++ ['\n']) ++ after) →
      (∀ l ∈ lines, '\n' ∉ content l ∧ ¬m <+: content l) →
      findLineMarker (utf8 text) (byteLen before) m =
        findLineMarker (utf8 text) (byteLen (before ++ lines.flatMap fun l => content l ++ ['\n'])) m := by
  intro lines
  induction lines with
  | nil => intro before after _ _; simp
  | cons l lines ih =>
    intro before after htext hnone
    have hline : text = before ++ (content l ++ '\n' ::
        (lines.flatMap (fun l => content l ++ ['\n']) ++ after)) := by
      rw [htext]
      simp
    have hnext : text = (before ++ (content l ++ ['\n'])) ++
        (lines.flatMap (fun l => content l ++ ['\n']) ++ after) := by
      rw [hline]
      simp
    have hl := hnone l (mem_cons_self ..)
    have hstep := @findLineMarker_line before (lines.flatMap (fun l => content l ++ ['\n']) ++ after)
      (content l) m (markers_ascii m hm) (newline_notMem_markers m hm) hl.1
    rw [← hline, if_neg hl.2] at hstep
    rw [hstep, ih hnext fun l' hl' => hnone l' (mem_cons_of_mem _ hl')]
    simp

theorem findLineMarker_lines {text : List Char} {lines : List SectionLine} (hm : m ∈ markers)
    (htext : text = before ++ (renderLines lines ++ after)) :
    findLineMarker (utf8 text) (byteLen before) m =
      findLineMarker (utf8 text) (byteLen (before ++ renderLines lines)) m :=
  findLineMarker_passes hm htext fun l _ => ⟨l.single, l.plain m hm⟩

section

variable {text : List Char} {m' : List Char} {label : Label}

theorem findLineMarker_marker (hm : m ∈ markers)
    (hm' : m' ∈ markers) (htext : text = before ++ (renderMarker m' label ++ after)) :
    findLineMarker (utf8 text) (byteLen before) m =
      if m = m' then some (byteLen before)
      else findLineMarker (utf8 text) (byteLen (before ++ renderMarker m' label)) m := by
  have hline : text = before ++ ((m' ++ label.content) ++ '\n' :: after) := by
    rw [htext]
    simp [renderMarker]
  have hsingle : '\n' ∉ m' ++ label.content := by
    rw [mem_append, not_or]
    exact ⟨newline_notMem_markers m' hm', label.single⟩
  have hstep := @findLineMarker_line before after (m' ++ label.content) m (markers_ascii m hm)
    (newline_notMem_markers m hm) hsingle
  rw [← hline] at hstep
  rw [hstep]
  simp only [marker_not_before m hm m' hm' label.content, renderMarker]

theorem endOfLine_marker (hm' : m' ∈ markers)
    (htext : text = before ++ (renderMarker m' label ++ after)) :
    endOfLine (utf8 text) (byteLen before) = some (byteLen (before ++ renderMarker m' label)) := by
  have hsingle : '\n' ∉ m' ++ label.content := by
    rw [mem_append, not_or]
    exact ⟨newline_notMem_markers m' hm', label.single⟩
  have hline : text = before ++ ((m' ++ label.content) ++ '\n' :: after) := by
    rw [htext]
    simp [renderMarker]
  rw [hline, endOfLine_line hsingle]
  simp [renderMarker]

end

theorem slice_text {text middle : List Char} (htext : text = before ++ (middle ++ after)) :
    fromUtf8Lossy (slice (utf8 text) (byteLen before) (byteLen (before ++ middle))) = middle := by
  rw [htext, slice_utf8, fromUtf8Lossy_utf8]

/-! ## One conflict -/

def Conflict.parsed (c : Conflict) : List Char × List Char × Option (List Char) :=
  match c.base with
  | some (label, lines) =>
    if c.ours.isEmpty then
      (renderMarker baseMarker label ++ renderLines lines, renderLines c.theirs, none)
    else c.sections
  | none => c.sections

def Conflict.chunk (c : Conflict) (start : Nat) : ConflictChunk :=
  ⟨⟨start, start + byteLen c.render⟩, c.parsed.1, c.parsed.2.1, c.parsed.2.2⟩

theorem byteLen_renderLines_pos {lines : List SectionLine} (h : lines ≠ []) :
    0 < byteLen (renderLines lines) := by
  obtain ⟨l, ls, rfl⟩ := exists_cons_of_ne_nil h
  refine byteLen_pos ?_
  simp [renderLines]

theorem byteLen_renderMarker_pos (m : List Char) (label : Label) : 0 < byteLen (renderMarker m label) :=
  byteLen_pos (by simp [renderMarker])

section

variable {text : List Char} (c : Conflict)
  (htext : text = before ++ (renderLines c.ours ++ (c.renderBase ++ (renderMarker separatorMarker c.separatorLabel ++ after))))
include htext

theorem findLineMarker_separator :
    findLineMarker (utf8 text) (byteLen before) separatorMarker =
      some (byteLen (before ++ renderLines c.ours ++ c.renderBase)) := by
  have hsep : separatorMarker ∈ markers := by decide
  rw [findLineMarker_lines hsep htext]
  have hhit : ∀ {at' : List Char}, text = at' ++ (renderMarker separatorMarker c.separatorLabel ++ after) →
      findLineMarker (utf8 text) (byteLen at') separatorMarker = some (byteLen at') := by
    intro at' hat
    rw [findLineMarker_marker hsep hsep hat, if_pos rfl]
  cases hb : c.base with
  | none =>
    have hr : c.renderBase = [] := by rw [Conflict.renderBase, hb]
    rw [hr] at htext ⊢
    rw [append_nil]
    exact hhit (by rw [htext]; simp)
  | some b =>
    have hr : c.renderBase = renderMarker baseMarker b.1 ++ renderLines b.2 := by
      rw [Conflict.renderBase, hb]
    rw [hr] at htext ⊢
    have hbase : text = (before ++ renderLines c.ours) ++ (renderMarker baseMarker b.1 ++
        (renderLines b.2 ++ (renderMarker separatorMarker c.separatorLabel ++ after))) := by
      rw [htext]; simp
    have hlines : text = (before ++ renderLines c.ours ++ renderMarker baseMarker b.1) ++
        (renderLines b.2 ++ (renderMarker separatorMarker c.separatorLabel ++ after)) := by
      rw [htext]; simp
    rw [findLineMarker_marker hsep (show baseMarker ∈ markers by decide) hbase,
      if_neg (by decide), findLineMarker_lines hsep hlines, hhit (by rw [htext]; simp)]
    simp

/-- **The base section is found where there is one, unless our side is empty.** -/
theorem baseSection_conflict :
    ∃ oursEnd, baseSection (utf8 text) (byteLen before)
        (byteLen (before ++ renderLines c.ours ++ c.renderBase))
        (findLineMarker (utf8 text) (byteLen before) baseMarker) = some (oursEnd, c.parsed.2.2) ∧
      fromUtf8Lossy (slice (utf8 text) (byteLen before) oursEnd) = c.parsed.1 := by
  have hbm : baseMarker ∈ markers := by decide
  rw [findLineMarker_lines hbm htext]
  cases hb : c.base with
  | none =>
    have hr : c.renderBase = [] := by rw [Conflict.renderBase, hb]
    have hp : c.parsed = (renderLines c.ours, renderLines c.theirs, none) := by
      rw [Conflict.parsed, hb, Conflict.sections, hb]
      rfl
    rw [hr] at htext ⊢
    have hours : text = before ++ (renderLines c.ours ++
        (renderMarker separatorMarker c.separatorLabel ++ after)) := by rw [htext]; simp
    have hsep : text = (before ++ renderLines c.ours) ++
        (renderMarker separatorMarker c.separatorLabel ++ after) := by rw [htext]; simp
    rw [findLineMarker_marker hbm (show separatorMarker ∈ markers by decide) hsep,
      if_neg (by decide), append_nil, hp]
    refine ⟨byteLen (before ++ renderLines c.ours), ?_, slice_text hours⟩
    -- whatever base marker comes later belongs to another conflict
    cases hfind : findLineMarker (utf8 text)
        (byteLen (before ++ renderLines c.ours ++ renderMarker separatorMarker c.separatorLabel))
        baseMarker with
    | none => rfl
    | some p =>
      have hle := le_findLineMarker _ _ hfind
      rw [byteLen_append] at hle
      rw [baseSection, if_neg (by omega)]
  | some b =>
    have hr : c.renderBase = renderMarker baseMarker b.1 ++ renderLines b.2 := by
      rw [Conflict.renderBase, hb]
    rw [hr] at htext ⊢
    have hbase : text = (before ++ renderLines c.ours) ++ (renderMarker baseMarker b.1 ++
        (renderLines b.2 ++ (renderMarker separatorMarker c.separatorLabel ++ after))) := by
      rw [htext]; simp
    rw [findLineMarker_marker hbm hbm hbase, if_pos rfl, baseSection]
    have hpos := byteLen_renderMarker_pos baseMarker b.1
    by_cases hours : c.ours = []
    · -- the marker stands right where the search began
      have hp : c.parsed = (renderMarker baseMarker b.1 ++ renderLines b.2, renderLines c.theirs, none) := by
        rw [Conflict.parsed, hb]
        simp [hours]
      have hnil : renderLines c.ours = [] := by rw [hours]; rfl
      rw [hnil] at htext ⊢
      rw [append_nil, if_neg (fun h => Nat.lt_irrefl _ h.1), hp]
      exact ⟨_, rfl, slice_text (by rw [htext, nil_append])⟩
    · have hp : c.parsed = (renderLines c.ours, renderLines c.theirs, some (renderLines b.2)) := by
        rw [Conflict.parsed, hb, Conflict.sections, hb]
        simp [hours]
      have hlt := byteLen_renderLines_pos hours
      rw [if_pos (by simp only [byteLen_append]; omega),
        endOfLine_marker (show baseMarker ∈ markers by decide) hbase]
      refine ⟨byteLen (before ++ renderLines c.ours), ?_, ?_⟩
      · dsimp only
        have hslice := @slice_text (before ++ renderLines c.ours ++ renderMarker baseMarker b.1)
          (renderMarker separatorMarker c.separatorLabel ++ after) text (renderLines b.2)
          (by rw [htext]; simp)
        rw [append_assoc (before ++ renderLines c.ours)] at hslice
        rw [hslice, hp]
      · rw [hp]
        exact slice_text htext

end

/-- Where the parts of a conflict stand in a text; `b₃` is what is in front of the separator. -/
theorem Conflict.layout {text : List Char} (c : Conflict) (htext : text = before ++ (c.render ++ after)) :
    let sep := renderMarker separatorMarker c.separatorLabel
    let rest := renderLines c.theirs ++ (renderMarker theirsMarker c.theirsLabel ++ after)
    let ours := renderLines c.ours ++ (c.renderBase ++ (sep ++ rest))
    ∃ b₃, b₃ = before ++ renderMarker oursMarker c.oursLabel ++ renderLines c.ours ++ c.renderBase ∧
      text = before ++ (renderMarker oursMarker c.oursLabel ++ ours) ∧
      text = (before ++ renderMarker oursMarker c.oursLabel) ++ ours ∧
      text = b₃ ++ (sep ++ rest) ∧ text = (b₃ ++ sep) ++ rest ∧
      text = (b₃ ++ sep ++ renderLines c.theirs) ++ (renderMarker theirsMarker c.theirsLabel ++ after) := by
  refine ⟨_, rfl, ?_, ?_, ?_, ?_, ?_⟩ <;> rw [htext, Conflict.render] <;> simp

/-- **One conflict is read by one turn of the loop.** -/
theorem nextChunk_conflict {text : List Char} (c : Conflict)
    (htext : text = before ++ (c.render ++ after)) :
    nextChunk (utf8 text) (byteLen before) =
      some (some (c.chunk (byteLen before)), byteLen (before ++ c.render)) := by
  obtain ⟨b₃, hb₃, hours, hstart, hsep, htheirs, hend⟩ := c.layout htext
  obtain ⟨oursEnd, hbase, hoursText⟩ := baseSection_conflict c hstart
  have hom : oursMarker ∈ markers := by decide
  have hsm : separatorMarker ∈ markers := by decide
  have htm : theirsMarker ∈ markers := by decide
  unfold nextChunk
  rw [findLineMarker_marker hom hom hours, if_pos rfl]
  dsimp only
  rw [endOfLine_marker hom hours]
  dsimp only
  rw [findLineMarker_separator c hstart, ← hb₃]
  dsimp only
  rw [endOfLine_marker hsm hsep]
  dsimp only
  rw [findLineMarker_lines htm htheirs, findLineMarker_marker htm htm hend, if_pos rfl]
  dsimp only
  rw [hb₃, hbase, ← hb₃]
  dsimp only
  rw [endOfLine_marker htm hend, hoursText, slice_text htheirs]
  have hstop : byteLen (b₃ ++ renderMarker separatorMarker c.separatorLabel ++ renderLines c.theirs ++
      renderMarker theirsMarker c.theirsLabel) = byteLen (before ++ c.render) := by
    rw [hb₃, Conflict.render]
    simp
  have hth : c.parsed.2.1 = renderLines c.theirs := by
    rw [Conflict.parsed]
    cases c.base with
    | none => rfl
    | some b => dsimp only; split <;> rfl
  rw [Option.getD_some, hstop, ← hth, byteLen_append]
  rfl

def chunksFrom : Nat → List Segment → List ConflictChunk
  | _, [] => []
  | start, .common lines :: segments => chunksFrom (start + byteLen (renderLines lines)) segments
  | start, .conflict c :: segments => c.chunk start :: chunksFrom (start + byteLen c.render) segments

/-- Going on from a place behind which the same marker comes next. -/
theorem extractFrom_skip {pos pos' : Nat} (fuel : Nat) (hle : pos ≤ pos')
    (hlen : pos' ≤ bytes.length)
    (hfind : findLineMarker bytes pos oursMarker = findLineMarker bytes pos' oursMarker) :
    extractFrom bytes fuel pos = extractFrom bytes fuel pos' := by
  cases fuel with
  | zero => rfl
  | succ fuel =>
    have hnext : nextChunk bytes pos = nextChunk bytes pos' := by
      unfold nextChunk
      rw [hfind]
    unfold extractFrom
    rw [hnext]
    by_cases hend : pos' = bytes.length
    · have hnone : nextChunk bytes pos' = none := by
        unfold nextChunk
        rw [hend, findLineMarker_end]
      rw [hnone, if_neg (show ¬ pos' < bytes.length by omega)]
      split <;> rfl
    · rw [if_pos (show pos < bytes.length by omega), if_pos (show pos' < bytes.length by omega)]

theorem extract_segments : ∀ (segments : List Segment) {before text : List Char} (fuel : Nat),
    text = before ++ renderSegments segments → (conflictsOf segments).length ≤ fuel →
      extractFrom (utf8 text) fuel (byteLen before) = chunksFrom (byteLen before) segments := by
  intro segments
  induction segments with
  | nil =>
    intro before text fuel htext _
    have hend : byteLen before = (utf8 text).length := by
      rw [htext]
      simp [renderSegments]
    cases fuel with
    | zero => rfl
    | succ fuel => rw [extractFrom, if_neg (by omega), chunksFrom]
  | cons seg segments ih =>
    intro before text fuel htext hfuel
    cases seg with
    | common lines =>
      have hlines : text = before ++ (renderLines lines ++ renderSegments segments) := by
        rw [htext, renderSegments, flatMap_cons]
        rfl
      have hnext : text = (before ++ renderLines lines) ++ renderSegments segments := by
        rw [hlines, append_assoc]
      rw [chunksFrom, ← byteLen_append, ← ih fuel hnext hfuel]
      refine extractFrom_skip fuel (by rw [byteLen_append]; omega) ?_
        (findLineMarker_lines (by decide) hlines)
      rw [hnext, length_utf8, byteLen_append (before ++ _)]
      omega
    | conflict c =>
      have hc : text = before ++ (c.render ++ renderSegments segments) := by
        rw [htext, renderSegments, flatMap_cons]
        rfl
      have hnext : text = (before ++ c.render) ++ renderSegments segments := by
        rw [hc, append_assoc]
      have hcount : (conflictsOf (.conflict c :: segments)).length = (conflictsOf segments).length + 1 := by
        simp [conflictsOf]
      obtain ⟨n, rfl⟩ : ∃ n, fuel = n + 1 := ⟨fuel - 1, by omega⟩
      have hlt : byteLen before < (utf8 text).length := by
        have := byteLen_renderMarker_pos oursMarker c.oursLabel
        rw [hc, length_utf8, Conflict.render]
        simp only [byteLen_append]
        omega
      rw [extractFrom, if_pos hlt, nextChunk_conflict c hc]
      dsimp only
      rw [ih n hnext (by omega), chunksFrom, byteLen_append]

theorem length_conflictsOf_le : ∀ segments : List Segment,
    (conflictsOf segments).length ≤ byteLen (renderSegments segments)
  | [] => Nat.zero_le _
  | .common lines :: segments => by
      have ih := length_conflictsOf_le segments
      have hcount : conflictsOf (.common lines :: segments) = conflictsOf segments := rfl
      rw [hcount, renderSegments, flatMap_cons, byteLen_append]
      exact Nat.le_trans ih (Nat.le_add_left _ _)
  | .conflict c :: segments => by
      have ih := length_conflictsOf_le segments
      have hpos := byteLen_renderMarker_pos oursMarker c.oursLabel
      have hcount : (conflictsOf (.conflict c :: segments)).length = (conflictsOf segments).length + 1 := by
        simp [conflictsOf]
      have hrender : byteLen (renderMarker oursMarker c.oursLabel) ≤ byteLen c.render := by
        rw [Conflict.render]
        simp only [byteLen_append]
        omega
      have hall : byteLen (renderSegments (.conflict c :: segments)) =
          byteLen c.render + byteLen (renderSegments segments) := byteLen_append _ _
      omega

theorem extractConflictChunks_render (segments : List Segment) :
    extractConflictChunks (renderSegments segments) = chunksFrom 0 segments := by
  have := @extract_segments segments [] (renderSegments segments) (utf8 (renderSegments segments)).length
    rfl (by rw [length_utf8]; exact length_conflictsOf_le segments)
  exact this

theorem sections_chunksFrom : ∀ (segments : List Segment) (start : Nat),
    (chunksFrom start segments).map ConflictChunk.sections = (conflictsOf segments).map Conflict.parsed
  | [], _ => rfl
  | .common _ :: segments, start => sections_chunksFrom segments _
  | .conflict c :: segments, start => by
      have hcount : conflictsOf (.conflict c :: segments) = c :: conflictsOf segments := rfl
      rw [chunksFrom, hcount, map_cons, map_cons, sections_chunksFrom segments]
      rfl

/-! ## Reading back -/

/-- A conflict whose base section is told from our side. -/
def Conflict.Separable (c : Conflict) : Prop := c.base.isSome = true → c.ours ≠ []

theorem Conflict.parsed_eq_iff (c : Conflict) : c.parsed = c.sections ↔ c.Separable := by
  unfold Conflict.parsed Conflict.Separable
  cases hb : c.base with
  | none => simp
  | some b =>
    by_cases hours : c.ours = []
    · simp [hours, Conflict.sections, hb]
    · simp [hours]

theorem replaceChunks_eq (pick : Nat → Side) : ∀ (segments : List Segment) {before gap text : List Char}
    (n : Nat), text = before ++ (gap ++ renderSegments segments) →
      (∀ c ∈ conflictsOf segments, c.Separable) →
      replaceChunks (utf8 text) pick n (byteLen before) (chunksFrom (byteLen (before ++ gap)) segments) =
        utf8 (gap ++ settle pick n segments)
  | [], before, gap, text, n, htext, _ => by
      rw [chunksFrom, replaceChunks, htext, utf8_append, ← length_utf8, drop_left]
      rfl
  | .common lines :: segments, before, gap, text, n, htext, hall => by
      have hnext : text = before ++ ((gap ++ renderLines lines) ++ renderSegments segments) := by
        rw [htext, renderSegments, flatMap_cons, append_assoc]
        rfl
      have ih := replaceChunks_eq pick segments n hnext hall
      rw [← append_assoc, byteLen_append] at ih
      rw [chunksFrom, ih, settle, append_assoc]
  | .conflict c :: segments, before, gap, text, n, htext, hall => by
      have hc : text = before ++ (gap ++ (c.render ++ renderSegments segments)) := by
        rw [htext, renderSegments, flatMap_cons]
        rfl
      have hnext : text = (before ++ gap ++ c.render) ++ ([] ++ renderSegments segments) := by
        rw [hc]
        simp
      have hcs : conflictsOf (.conflict c :: segments) = c :: conflictsOf segments := rfl
      have ih := replaceChunks_eq pick segments (n + 1) hnext
        (fun x hx => hall x (mem_cons_of_mem _ hx))
      have hparsed := c.parsed_eq_iff.mpr (hall c (mem_cons_self ..))
      have hside : (c.chunk (byteLen (before ++ gap))).side (pick n) = c.side (pick n) := by
        have h1 : c.parsed.1 = renderLines c.ours := by rw [hparsed]; rfl
        have h2 : c.parsed.2.1 = renderLines c.theirs := by rw [hparsed]; rfl
        cases pick n with
        | ours => exact h1
        | theirs => exact h2
      rw [append_nil, nil_append, byteLen_append (before ++ gap)] at ih
      rw [chunksFrom, replaceChunks, hside]
      have hstart : (c.chunk (byteLen (before ++ gap))).range.start = byteLen (before ++ gap) := rfl
      have hstop : (c.chunk (byteLen (before ++ gap))).range.stop =
          byteLen (before ++ gap) + byteLen c.render := rfl
      have hgap : slice (utf8 text) (byteLen before) (byteLen (before ++ gap)) = utf8 gap := by
        rw [hc]
        exact slice_utf8 before gap _
      rw [hstart, hstop, ih, hgap, settle, utf8_append, utf8_append, append_assoc]

/-- The file is read back: the conflicts with their sections, in order, and replacing every
chunk by a side of it settles the conflicts. -/
def ReadsBack (segments : List Segment) : Prop :=
  (extractConflictChunks (renderSegments segments)).map ConflictChunk.sections =
      (conflictsOf segments).map Conflict.sections ∧
    ∀ pick : Nat → Side,
      replaceChunks (utf8 (renderSegments segments)) pick 0 0
        (extractConflictChunks (renderSegments segments)) = utf8 (settle pick 0 segments)

theorem ReadsBack.separable {segments : List Segment} (h : ReadsBack segments) {c : Conflict}
    (hc : c ∈ conflictsOf segments) : c.Separable := by
  have hsections := h.1
  rw [extractConflictChunks_render, sections_chunksFrom] at hsections
  exact c.parsed_eq_iff.mp (List.map_inj_left.mp hsections c hc)

/-- **What Git writes is read back if and only if no conflict with a base section has an empty
side of ours.** -/
theorem conflict_chunks_read_back_iff (segments : List Segment) :
    ReadsBack segments ↔ ∀ c ∈ conflictsOf segments, c.base.isSome = true → c.ours ≠ [] := by
  refine ⟨fun h c hc => h.separable hc, fun hall => ?_⟩
  unfold ReadsBack
  rw [extractConflictChunks_render, sections_chunksFrom]
  refine ⟨map_congr_left (fun c hc => c.parsed_eq_iff.mpr (hall c hc)), fun pick => ?_⟩
  exact @replaceChunks_eq pick segments [] [] _ 0 rfl hall

/-- Our side deleted the line that their side changed. -/
def deletedByUs : Conflict :=
  { oursLabel := ⟨[' ', 'A'], by decide⟩
    ours := []
    base := some (⟨[' ', 'B'], by decide⟩, [⟨['x'], by decide, by decide⟩])
    separatorLabel := ⟨[], by decide⟩
    theirs := [⟨['y'], by decide, by decide⟩]
    theirsLabel := ⟨[' ', 'C'], by decide⟩ }

theorem conflict_chunks_deletedByUs : ¬ ReadsBack [.conflict deletedByUs] := by
  intro h
  exact h.separable (show deletedByUs ∈ conflictsOf [.conflict deletedByUs] from mem_singleton_self _)
    rfl rfl

end

end SpkEditor
