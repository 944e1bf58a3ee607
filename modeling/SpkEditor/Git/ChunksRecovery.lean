import SpkEditor.Git.ChunksProof

/-!
# Where the parser goes on

Every turn of the loop ends at a line boundary behind the one it began at, so the chunks of any
text lie one behind the other on line boundaries (`WellPlaced`). What a turn skips is another
matter. A stray start marker is paired with the next separator and the next end marker, and the
search for these does not stop at another start marker: a conflict behind it is swallowed, and the
chunk that is reported begins at the stray line.
-/

namespace SpkEditor

open List Option

/-- A place in a text where a line starts, or its end. -/
def AtLine (bytes : List UInt8) (pos : Nat) : Prop :=
  pos = 0 ∨ pos = bytes.length ∨ bytes[pos - 1]? = some 10

/-- The chunks lie in the text, one behind the other, and on line boundaries. -/
structure WellPlaced (bytes : List UInt8) (chunks : List ConflictChunk) : Prop where
  inBounds : ∀ c ∈ chunks, c.range.start < c.range.stop ∧ c.range.stop ≤ bytes.length
  onLines : ∀ c ∈ chunks, AtLine bytes c.range.start ∧ AtLine bytes c.range.stop
  increasing : chunks.Pairwise fun a b => a.range.stop ≤ b.range.start

/-! ## One turn -/

section

variable {bytes marker : List UInt8} {pos p : Nat}

theorem scanNewline_spec : ∀ {l : List UInt8} {i stop : Nat}, scanNewline l i = some stop →
    i < stop ∧ stop ≤ i + l.length ∧ l[stop - 1 - i]? = some 10 := by
  intro l
  induction l with
  | nil => intro i stop h; exact absurd h (by simp [scanNewline])
  | cons b l ih =>
    intro i stop h
    rw [scanNewline] at h
    split at h
    case isTrue hb =>
        cases h
        refine ⟨by omega, by simp, ?_⟩
        rw [show i + 1 - 1 - i = 0 by omega, hb]
        rfl
    case isFalse =>
        obtain ⟨h₁, h₂, h₃⟩ := ih h
        refine ⟨by omega, by rw [length_cons]; omega, ?_⟩
        rw [show stop - 1 - i = stop - 1 - (i + 1) + 1 by omega, List.getElem?_cons_succ]
        exact h₃

theorem endOfLine_spec {stop : Nat} (h : endOfLine bytes pos = some stop) :
    pos < stop ∧ stop ≤ bytes.length ∧ AtLine bytes stop := by
  unfold endOfLine at h
  cases hscan : scanNewline (bytes.drop pos) pos with
  | some stop' =>
    rw [hscan] at h
    obtain rfl := some.inj h
    obtain ⟨h₁, h₂, h₃⟩ := scanNewline_spec hscan
    rw [List.getElem?_drop] at h₃
    have hin : stop' - 1 < bytes.length := by
      have := (List.getElem?_eq_some_iff.mp h₃).1
      omega
    refine ⟨h₁, by omega, .inr (.inr ?_)⟩
    rwa [show pos + (stop' - 1 - pos) = stop' - 1 by omega] at h₃
  | none =>
    rw [hscan] at h
    dsimp only at h
    split at h
    · rename_i hlt
      obtain rfl := some.inj h
      exact ⟨hlt, le_refl _, .inr (.inl rfl)⟩
    · exact absurd h (by simp)

theorem endOfLine_getD (h : pos < bytes.length) :
    pos < (endOfLine bytes pos).getD bytes.length ∧ (endOfLine bytes pos).getD bytes.length ≤ bytes.length ∧
      AtLine bytes ((endOfLine bytes pos).getD bytes.length) := by
  cases he : endOfLine bytes pos with
  | some stop => exact endOfLine_spec he
  | none => exact ⟨h, le_refl _, .inr (.inl rfl)⟩

theorem findLineMarkerFrom_spec : ∀ (fuel : Nat) {pos : Nat}, AtLine bytes pos →
    findLineMarkerFrom bytes marker fuel pos = some p → pos ≤ p ∧ p < bytes.length ∧ AtLine bytes p := by
  intro fuel
  induction fuel with
  | zero => intro pos _ h; exact absurd h (by simp [findLineMarkerFrom])
  | succ fuel ih =>
    intro pos hline h
    rw [findLineMarkerFrom] at h
    split at h
    · rename_i hpos
      obtain ⟨h₁, -, h₃⟩ := endOfLine_getD hpos
      dsimp only at h
      split at h
      · cases h
        exact ⟨le_refl _, hpos, hline⟩
      · obtain ⟨h₄, h₅, h₆⟩ := ih h₃ h
        exact ⟨by omega, h₅, h₆⟩
    · cases h

/-- **One turn**: the loop goes on behind where it was, and a chunk lies in between. -/
theorem nextChunk_spec {next : Nat} {found : Option ConflictChunk} (hline : AtLine bytes pos)
    (h : nextChunk bytes pos = some (found, next)) :
    pos < next ∧ next ≤ bytes.length ∧ AtLine bytes next ∧
      ∀ c, found = some c → pos ≤ c.range.start ∧ c.range.start < c.range.stop ∧ c.range.stop = next ∧
        AtLine bytes c.range.start := by
  unfold nextChunk at h
  cases hstart : findLineMarker bytes pos oursMarker with
  | none => rw [hstart] at h; exact absurd h (by simp)
  | some start =>
  obtain ⟨s₁, s₂, s₃⟩ := findLineMarkerFrom_spec _ hline hstart
  rw [hstart] at h
  dsimp only at h
  cases hs : endOfLine bytes start with
  | none => rw [hs] at h; exact absurd h (by simp)
  | some afterStart =>
  obtain ⟨a₁, a₂, a₃⟩ := endOfLine_spec hs
  rw [hs] at h
  dsimp only at h
  cases hsep : findLineMarker bytes afterStart separatorMarker with
  | none =>
    rw [hsep] at h
    cases h
    exact ⟨by omega, a₂, a₃, fun c hc => absurd hc (by simp)⟩
  | some separator =>
  obtain ⟨p₁, p₂, p₃⟩ := findLineMarkerFrom_spec _ a₃ hsep
  rw [hsep] at h
  dsimp only at h
  cases he : endOfLine bytes separator with
  | none => rw [he] at h; exact absurd h (by simp)
  | some afterSeparator =>
  obtain ⟨e₁, e₂, e₃⟩ := endOfLine_spec he
  rw [he] at h
  dsimp only at h
  cases hend : findLineMarker bytes afterSeparator theirsMarker with
  | none =>
    rw [hend] at h
    cases h
    exact ⟨by omega, e₂, e₃, fun c hc => absurd hc (by simp)⟩
  | some endMarker =>
  obtain ⟨m₁, m₂, m₃⟩ := findLineMarkerFrom_spec _ e₃ hend
  obtain ⟨n₁, n₂, n₃⟩ := endOfLine_getD m₂
  rw [hend] at h
  cases hb : baseSection bytes afterStart separator (findLineMarker bytes afterStart baseMarker) with
  | none => rw [hb] at h; exact absurd h (by simp)
  | some b =>
  rw [hb] at h
  cases h
  refine ⟨by omega, n₂, n₃, fun c hc => ?_⟩
  cases hc
  exact ⟨s₁, by dsimp only; omega, rfl, s₃⟩

theorem extractFrom_fuel : ∀ (fuel fuel' : Nat) {pos : Nat}, AtLine bytes pos → bytes.length - pos ≤ fuel →
    bytes.length - pos ≤ fuel' → extractFrom bytes fuel pos = extractFrom bytes fuel' pos := by
  intro fuel
  induction fuel with
  | zero =>
    intro fuel' pos _ h _
    cases fuel' with
    | zero => rfl
    | succ n => rw [extractFrom, extractFrom, if_neg (by omega)]
  | succ fuel ih =>
    intro fuel' pos hline h h'
    by_cases hpos : pos < bytes.length
    · obtain ⟨n, rfl⟩ : ∃ n, fuel' = n + 1 := ⟨fuel' - 1, by omega⟩
      rw [extractFrom, extractFrom, if_pos hpos, if_pos hpos]
      cases hn : nextChunk bytes pos with
      | none => rfl
      | some r =>
        obtain ⟨found, next⟩ := r
        obtain ⟨h₁, h₂, h₃, -⟩ := nextChunk_spec hline hn
        have hrest := ih n h₃ (by omega) (by omega)
        cases found with
        | none => exact hrest
        | some c => exact congrArg (c :: ·) hrest
    · cases fuel' with
      | zero => rw [extractFrom, extractFrom, if_neg hpos]
      | succ n => rw [extractFrom, extractFrom, if_neg hpos, if_neg hpos]

theorem extractFrom_wellPlaced : ∀ (fuel : Nat) {pos : Nat}, AtLine bytes pos →
    WellPlaced bytes (extractFrom bytes fuel pos) ∧ ∀ c ∈ extractFrom bytes fuel pos, pos ≤ c.range.start := by
  have hnil : WellPlaced bytes [] :=
    ⟨fun c hc => absurd hc (by simp), fun c hc => absurd hc (by simp), .nil⟩
  intro fuel
  induction fuel with
  | zero => exact fun _ => ⟨hnil, fun c hc => absurd hc (by simp [extractFrom])⟩
  | succ fuel ih =>
    intro pos hline
    rw [extractFrom]
    split
    case isFalse => exact ⟨hnil, fun c hc => absurd hc (by simp)⟩
    case isTrue hpos =>
    cases hn : nextChunk bytes pos with
    | none => exact ⟨hnil, fun c hc => absurd hc (by simp)⟩
    | some r =>
      obtain ⟨found, next⟩ := r
      obtain ⟨h₁, h₂, h₃, hfound⟩ := nextChunk_spec hline hn
      obtain ⟨hrest, hbehind⟩ := ih h₃
      cases found with
      | none => exact ⟨hrest, fun c hc => le_trans (le_of_lt h₁) (hbehind c hc)⟩
      | some chunk =>
        obtain ⟨f₁, f₂, f₃, f₄⟩ := hfound chunk rfl
        refine ⟨⟨?_, ?_, ?_⟩, ?_⟩
        · exact List.forall_mem_cons.mpr ⟨⟨f₂, by omega⟩, hrest.inBounds⟩
        · exact List.forall_mem_cons.mpr ⟨⟨f₄, by rw [f₃]; exact h₃⟩, hrest.onLines⟩
        · refine List.pairwise_cons.mpr ⟨fun c hc => ?_, hrest.increasing⟩
          have := hbehind c hc
          omega
        · refine List.forall_mem_cons.mpr ⟨f₁, fun c hc => ?_⟩
          exact le_trans (le_of_lt h₁) (hbehind c hc)

end

/-- Lines of any kind, each with its newline. -/
def renderRaw (lines : List Label) : List Char := lines.flatMap fun l => l.content ++ ['\n']

theorem renderRaw_cons (l : Label) (lines : List Label) :
    renderRaw (l :: lines) = l.content ++ '\n' :: renderRaw lines := by
  simp [renderRaw]

section

variable {before after m : List Char}

theorem findLineMarker_raw {text : List Char} {lines : List Label} (hm : m ∈ markers)
    (htext : text = before ++ (renderRaw lines ++ after)) (hnone : ∀ l ∈ lines, ¬m <+: l.content) :
    findLineMarker (utf8 text) (byteLen before) m =
      findLineMarker (utf8 text) (byteLen (before ++ renderRaw lines)) m :=
  findLineMarker_passes hm htext fun l hl => ⟨l.single, hnone l hl⟩

theorem findLineMarker_separator_before {text : List Char} (c : Conflict)
    (htext : text = before ++ (c.render ++ after)) :
    findLineMarker (utf8 text) (byteLen before) separatorMarker =
      some (byteLen (before ++ renderMarker oursMarker c.oursLabel ++ renderLines c.ours ++ c.renderBase)) := by
  obtain ⟨-, -, hours, hstart, -⟩ := c.layout htext
  rw [findLineMarker_marker (show separatorMarker ∈ markers by decide)
      (show oursMarker ∈ markers by decide) hours, if_neg (by decide),
    findLineMarker_separator c hstart]

/-- **A start marker before a conflict is paired with the rest of it**: the turn that begins there
ends at the end of the conflict. -/
theorem nextChunk_stray {text : List Char} {l : Label} {lines : List Label} (c : Conflict)
    (htext : text = before ++ (l.content ++ '\n' :: (renderRaw lines ++ (c.render ++ after))))
    (hl : oursMarker <+: l.content) (hsep : ∀ x ∈ lines, ¬separatorMarker <+: x.content)
    {found : Option ConflictChunk} {next : Nat}
    (h : nextChunk (utf8 text) (byteLen before) = some (found, next)) :
    (∀ chunk, found = some chunk → chunk.range.start = byteLen before) ∧
      next = byteLen (before ++ (l.content ++ '\n' :: renderRaw lines) ++ c.render) := by
  have hom : oursMarker ∈ markers := by decide
  have hsm : separatorMarker ∈ markers := by decide
  have htm : theirsMarker ∈ markers := by decide
  have hfind := @findLineMarker_line before (renderRaw lines ++ (c.render ++ after)) l.content oursMarker
    (markers_ascii _ hom) (newline_notMem_markers _ hom) l.single
  have heol := @endOfLine_line before (renderRaw lines ++ (c.render ++ after)) l.content l.single
  rw [← htext, if_pos hl] at hfind
  rw [← htext] at heol
  have hraw : text = (before ++ (l.content ++ ['\n'])) ++ (renderRaw lines ++ (c.render ++ after)) := by
    rw [htext]; simp
  obtain ⟨b₁, hb₁⟩ : ∃ b, b = before ++ (l.content ++ ['\n']) ++ renderRaw lines := ⟨_, rfl⟩
  have hc : text = b₁ ++ (c.render ++ after) := by rw [hraw, hb₁]; simp
  have hfindSep : findLineMarker (utf8 text) (byteLen (before ++ (l.content ++ ['\n']))) separatorMarker =
      some (byteLen (b₁ ++ renderMarker oursMarker c.oursLabel ++ renderLines c.ours ++ c.renderBase)) := by
    rw [findLineMarker_raw hsm hraw hsep, ← hb₁]
    exact findLineMarker_separator_before c hc
  obtain ⟨b₃, hb₃, -, -, hsepText, htheirs, hend⟩ := c.layout hc
  unfold nextChunk at h
  rw [hfind] at h
  dsimp only at h
  rw [heol] at h
  dsimp only at h
  rw [hfindSep, ← hb₃] at h
  dsimp only at h
  rw [endOfLine_marker hsm hsepText] at h
  dsimp only at h
  rw [findLineMarker_lines htm htheirs, findLineMarker_marker htm htm hend, if_pos rfl] at h
  dsimp only at h
  rw [endOfLine_marker htm hend, getD_some] at h
  have hstop : byteLen (b₃ ++ renderMarker separatorMarker c.separatorLabel ++ renderLines c.theirs ++
      renderMarker theirsMarker c.theirsLabel) =
      byteLen (before ++ (l.content ++ '\n' :: renderRaw lines) ++ c.render) := by
    rw [hb₃, hb₁, Conflict.render]
    simp
  rw [hstop] at h
  split at h
  · cases h
  · cases h
    refine ⟨fun chunk hchunk => ?_, rfl⟩
    cases hchunk
    rfl

/-- **Which conflict is found**: the chunk of a conflict behind lines without separator and end
marker is reported exactly if none of them is a start marker. -/
theorem conflict_reported_iff (lines : List Label) (c : Conflict)
    (hlines : ∀ l ∈ lines, ¬separatorMarker <+: l.content ∧ ¬theirsMarker <+: l.content) :
    c.chunk (byteLen (renderRaw lines)) ∈ extractConflictChunks (renderRaw lines ++ c.render) ↔
      ∀ l ∈ lines, ¬oursMarker <+: l.content := by
  obtain ⟨text, htext⟩ : ∃ text, text = renderRaw lines ++ c.render := ⟨_, rfl⟩
  have hpos : 0 < byteLen c.render := by
    have := byteLen_renderMarker_pos oursMarker c.oursLabel
    rw [Conflict.render]
    simp only [byteLen_append]
    omega
  have hlen : (utf8 text).length = byteLen (renderRaw lines) + byteLen c.render := by
    rw [htext, length_utf8, byteLen_append]
  obtain ⟨n, hn⟩ : ∃ n, (utf8 text).length = n + 1 := ⟨(utf8 text).length - 1, by omega⟩
  rw [← htext, extractConflictChunks]
  constructor
  swap
  · intro hnone
    -- the search for a start marker goes on at the conflict
    have hraw : text = [] ++ (renderRaw lines ++ (c.render ++ [])) := by rw [htext]; simp
    have hskip := findLineMarker_raw (show oursMarker ∈ markers by decide) hraw hnone
    have hchunk := @nextChunk_conflict (renderRaw lines) [] text c (by rw [htext]; simp)
    rw [extractFrom_skip _ (Nat.zero_le (byteLen (renderRaw lines))) (by omega) hskip, hn, extractFrom,
      if_pos (by omega), hchunk]
    exact mem_cons_self ..
  · intro hmem l hl hstart
    -- the first start marker takes the conflict with it
    obtain ⟨first, hfirst⟩ : ∃ x, lines.find? (fun l => oursMarker.isPrefixOf l.content) = some x := by
      rw [← isSome_iff_exists, List.find?_isSome]
      exact ⟨l, hl, List.isPrefixOf_iff_prefix.mpr hstart⟩
    obtain ⟨hours, pre, post, hsplit, hpre⟩ := List.find?_eq_some_iff_append.mp hfirst
    have hours' : oursMarker <+: first.content := List.isPrefixOf_iff_prefix.mp hours
    have hpre' : ∀ x ∈ pre, ¬oursMarker <+: x.content := fun x hx hp => by
      have hno := hpre x hx
      rw [List.isPrefixOf_iff_prefix.mpr hp] at hno
      cases hno
    have hrender : renderRaw lines = renderRaw pre ++ (first.content ++ '\n' :: renderRaw post) := by
      rw [hsplit, renderRaw, flatMap_append, ← renderRaw_cons]
      rfl
    have hstray : text = renderRaw pre ++ (first.content ++ '\n' :: (renderRaw post ++ (c.render ++ []))) := by
      rw [htext, hrender]; simp
    have hraw : text = [] ++ (renderRaw pre ++ (first.content ++ '\n' :: (renderRaw post ++ (c.render ++ [])))) :=
      hstray
    have hskip := findLineMarker_raw (show oursMarker ∈ markers by decide) hraw hpre'
    have hlt : byteLen (renderRaw pre) < byteLen (renderRaw lines) := by
      have := byteLen_pos (cons_ne_nil '\n' (renderRaw post))
      rw [hrender, byteLen_append, byteLen_append]
      omega
    rw [extractFrom_skip _ (Nat.zero_le (byteLen (renderRaw pre))) (by omega) hskip, hn, extractFrom,
      if_pos (by omega)] at hmem
    cases hturn : nextChunk (utf8 text) (byteLen (renderRaw pre)) with
    | none => rw [hturn] at hmem; exact absurd hmem (by simp)
    | some r =>
      obtain ⟨found, next⟩ := r
      obtain ⟨hfound, hnext⟩ := nextChunk_stray c hstray hours'
        (fun x hx => (hlines x (by rw [hsplit]; simp [hx])).1) hturn
      have hdone : extractFrom (utf8 text) n next = [] := by
        have hend : next = (utf8 text).length := by
          rw [hnext, htext, hrender, length_utf8]
        cases n with
        | zero => rfl
        | succ n => rw [extractFrom, if_neg (by omega)]
      rw [hturn] at hmem
      cases found with
      | none =>
        have hnil : c.chunk (byteLen (renderRaw lines)) ∈ extractFrom (utf8 text) n next := hmem
        rw [hdone] at hnil
        cases hnil
      | some chunk =>
        have hone : c.chunk (byteLen (renderRaw lines)) ∈ chunk :: extractFrom (utf8 text) n next := hmem
        rw [hdone, mem_singleton] at hone
        have hstart' := hfound chunk rfl
        rw [← hone] at hstart'
        have : byteLen (renderRaw lines) = byteLen (renderRaw pre) := hstart'
        omega

end

/-- **Recovery.** For every text the loop ends, and its chunks lie one behind the other on line
boundaries. A conflict without base section, behind lines that hold neither separator nor end
marker, is reported with its own range and sides exactly if no start marker stands before it. -/
theorem conflict_chunks_recover (text : List Char) (lines : List Label) (c : Conflict) (hc : c.base = none)
    (hlines : ∀ l ∈ lines, ¬separatorMarker <+: l.content ∧ ¬theirsMarker <+: l.content) :
    WellPlaced (utf8 text) (extractConflictChunks text) ∧
      (∀ fuel, (utf8 text).length ≤ fuel → extractFrom (utf8 text) fuel 0 = extractConflictChunks text) ∧
      ((∃ chunk ∈ extractConflictChunks (renderRaw lines ++ c.render),
          chunk.range = ⟨byteLen (renderRaw lines), byteLen (renderRaw lines ++ c.render)⟩ ∧
            chunk.sections = c.sections) ↔
        ∀ l ∈ lines, ¬oursMarker <+: l.content) := by
  refine ⟨(extractFrom_wellPlaced _ (.inl rfl)).1,
    fun fuel h => extractFrom_fuel _ _ (.inl rfl) (by omega) (by omega), ?_⟩
  rw [← conflict_reported_iff lines c hlines]
  have hparsed : c.parsed = c.sections := c.parsed_eq_iff.mpr fun h => by rw [hc] at h; exact nomatch h
  have hiff : ∀ chunk : ConflictChunk,
      (chunk.range = ⟨byteLen (renderRaw lines), byteLen (renderRaw lines ++ c.render)⟩ ∧
        chunk.sections = c.sections) ↔ chunk = c.chunk (byteLen (renderRaw lines)) := by
    intro chunk
    rw [Conflict.chunk, hparsed, byteLen_append]
    constructor
    · rintro ⟨hr, hs⟩
      obtain ⟨range, ours, theirs, base⟩ := chunk
      obtain rfl : range = _ := hr
      rw [← hs]
      rfl
    · rintro rfl
      exact ⟨rfl, rfl⟩
  constructor
  · rintro ⟨chunk, hmem, h⟩
    rwa [(hiff chunk).mp h] at hmem
  · exact fun h => ⟨_, h, (hiff _).mpr rfl⟩

theorem newline_not_mem_nil : '\n' ∉ ([] : List Char) := not_mem_nil

def emptyConflict : Conflict :=
  { oursLabel := ⟨[], newline_not_mem_nil⟩
    ours := []
    base := none
    separatorLabel := ⟨[], newline_not_mem_nil⟩
    theirs := []
    theirsLabel := ⟨[], newline_not_mem_nil⟩ }

theorem conflict_chunks_recover_plain :
    ∃ chunk ∈ extractConflictChunks (renderRaw [⟨['a'], by decide⟩] ++ emptyConflict.render),
      chunk.range = ⟨byteLen (renderRaw [⟨['a'], by decide⟩]),
          byteLen (renderRaw [⟨['a'], by decide⟩] ++ emptyConflict.render)⟩ ∧
        chunk.sections = emptyConflict.sections :=
  ((conflict_chunks_recover [] [⟨['a'], by decide⟩] emptyConflict rfl (by decide)).2.2).mpr (by decide)

/-- **A stray start marker swallows the conflict behind it.** -/
theorem conflict_swallowed :
    extractConflictChunks (renderRaw [⟨oursMarker, by decide⟩] ++ emptyConflict.render) =
        [⟨⟨0, 32⟩, oursMarker ++ ['\n'], [], none⟩] ∧
      emptyConflict.chunk (byteLen (renderRaw [⟨oursMarker, by decide⟩])) ∉
        extractConflictChunks (renderRaw [⟨oursMarker, by decide⟩] ++ emptyConflict.render) := by
  decide +kernel

end SpkEditor
