import SpkEditor.Git.PatchSummary

/-!
# The format of a patch

`detect_patch_format` of `git/src/operations/patch.rs` looks at the first 4096 bytes. It cuts them
off before it decodes them, so a character that lies across the end of this window makes the whole
patch unreadable, and the line that is cut is taken for a whole one. Its tests of a line also
take upper case digits, and a `From` line that ends behind the hash.
-/

namespace SpkEditor.Patches

open Cut Lines List

inductive PatchFormat where
  | mbox
  | unifiedWithIndex
  | unifiedNoIndex

inductive DetectError where
  /-- `patch is not valid UTF-8`. -/
  | notUtf8
  /-- `Unrecognized patch format`. -/
  | unrecognized

/-- `is_ascii_hexdigit`. -/
def isHex (c : Char) : Bool := c.isDigit || 'a' ≤ c && c ≤ 'f' || 'A' ≤ c && c ≤ 'F'

/-- The loop of `is_mbox_from_line`; `none` where it returns. -/
def countHash (count : Nat) : Line → Option Nat
  | [] => some count
  | ch :: chars =>
    if ch = ' ' then some count
    else if !isHex ch then none
    else if count + 1 > 40 then none
    else countHash (count + 1) chars

def isMboxFromLine (line : Line) : Bool :=
  match stripFront "From ".toList line with
  | none => false
  | some rest => countHash 0 rest = some 40

def isIndexLine (line : Line) : Bool :=
  match (stripFront "index ".toList line).bind (cutAt "..".toList) with
  | none => false
  | some (left, rightAndMode) =>
    let right := ((splitOnce ' ' rightAndMode).map (·.1)).getD rightAndMode
    !left.isEmpty && left.all isHex && !right.isEmpty && right.all isHex

def scanLimit : Nat := 4096

def stripBom (text : List Char) : List Char := (stripFront ['\ufeff'] text).getD text

def firstNonEmpty (ls : List Line) : Option Line := ls.find? (· ≠ [])

/-- The loop over the lines, with `has_index` and `has_diff_git`. -/
def scanLines (hasIndex hasDiffGit : Bool) : List Line → Bool × Bool
  | [] => (hasIndex, hasDiffGit)
  | line :: ls =>
    let hasIndex := hasIndex || isIndexLine line
    let hasDiffGit := hasDiffGit || IsDiff line
    if hasIndex && hasDiffGit then (hasIndex, hasDiffGit) else scanLines hasIndex hasDiffGit ls

def detectPatchFormat (bytes : List UInt8) : Except DetectError PatchFormat :=
  match fromUtf8 (bytes.take (min bytes.length scanLimit)) with
  | none => .error .notUtf8
  | some head =>
    let ls := (Cut.lines (stripBom head)).map trimCr
    if (firstNonEmpty ls).any isMboxFromLine then .ok .mbox
    else
      let (hasIndex, hasDiffGit) := scanLines false false ls
      if hasIndex then .ok .unifiedWithIndex
      else if hasDiffGit then .ok .unifiedNoIndex
      else .error .unrecognized

/-! ## The documented rules -/

/-- `[0-9a-f]`. -/
def isLowerHex (c : Char) : Bool := c.isDigit || 'a' ≤ c && c ≤ 'f'

/-- `^From [0-9a-f]{40} `. -/
def FromRule (line : Line) : Prop :=
  ∃ hash rest, line = "From ".toList ++ hash ++ ' ' :: rest ∧ hash.length = 40 ∧ hash.all isLowerHex

/-- `^index [0-9a-f]+\.\.[0-9a-f]+`. -/
def IndexRule (line : Line) : Prop :=
  ∃ left c rest, line = "index ".toList ++ left ++ "..".toList ++ c :: rest ∧ left ≠ [] ∧
    left.all isLowerHex ∧ isLowerHex c

/-- The lines that end within the window. -/
def completeLines (text : List Char) : List Line :=
  (if byteLen text ≤ scanLimit then Cut.lines (stripBom text)
    else (closedLines (stripBom (splitFloor scanLimit text).1)).1).map trimCr

open Classical in
noncomputable def firstOf (mbox index diff : Prop) : Except DetectError PatchFormat :=
  if mbox then .ok .mbox
  else if index then .ok .unifiedWithIndex
  else if diff then .ok .unifiedNoIndex
  else .error .unrecognized

/-- The rules in their order. -/
noncomputable def documented (ls : List Line) : Except DetectError PatchFormat :=
  firstOf (∃ line ∈ firstNonEmpty ls, FromRule line) (∃ line ∈ ls, IndexRule line)
    (∃ line ∈ ls, IsDiff line)

theorem utf8_prefix {part text : List Char} {rest : List UInt8} (h : utf8 text = utf8 part ++ rest) :
    ∃ after, text = part ++ after := by
  induction part generalizing text with
  | nil => exact ⟨text, rfl⟩
  | cons c part ih =>
    cases text with
    | nil => simp at h
    | cons d text =>
      rw [utf8_cons, utf8_cons, append_assoc] at h
      obtain rfl : d = c := Option.some.inj
        ((decode_eq_some_iff.mpr ⟨_, rfl⟩).symm.trans (decode_eq_some_iff.mpr ⟨_, h⟩))
      obtain ⟨after, rfl⟩ := ih (append_cancel_left h)
      exact ⟨after, rfl⟩

/-- No character lies across the end of the window. -/
def AtBoundary (text : List Char) : Prop :=
  byteLen (splitFloor scanLimit text).1 = min (byteLen text) scanLimit

theorem fromUtf8_take (text : List Char) (n : Nat) :
    fromUtf8 ((utf8 text).take (min (byteLen text) n)) =
      if byteLen (splitFloor n text).1 = min (byteLen text) n then some (splitFloor n text).1
      else none := by
  have hsplit := splitFloor_append n text
  split
  next h =>
    refine fromUtf8_eq_some_iff.mpr ?_
    conv_lhs => rw [← hsplit, utf8_append, hsplit, ← h, ← length_utf8, take_left]
  next h =>
    rw [Option.eq_none_iff_forall_ne_some]
    intro part hpart
    have hbytes := fromUtf8_eq_some_iff.mp hpart
    have hlen : byteLen part = min (byteLen text) n := by
      rw [← length_utf8, ← hbytes, length_take, length_utf8]
      omega
    obtain ⟨after, htext⟩ := utf8_prefix (hbytes ▸ (take_append_drop _ _).symm)
    have hle : byteLen (splitFloor n text).1 ≤ byteLen part := by
      have := byteLen_splitFloor_le n text
      have := congrArg byteLen hsplit
      rw [byteLen_append] at this
      omega
    -- what the longer text has more does not fit
    obtain ⟨more, rfl, hmore⟩ := exists_append_of_byteLen_le (hsplit.trans htext) hle
    cases more with
    | nil => exact h (by simpa using hlen)
    | cons c more =>
      have := lt_of_splitFloor hmore
      rw [byteLen_append, byteLen_cons] at hlen
      omega

def windowLines (text : List Char) : List Line :=
  (Cut.lines (stripBom (splitFloor scanLimit text).1)).map trimCr

/-- As far as they are tried, the tests on the lines `seen` tell what the rules tell of those that
are `complete`. -/
structure SameTests (seen complete : List Line) : Prop where
  mbox : (firstNonEmpty seen).any isMboxFromLine ↔ ∃ line ∈ firstNonEmpty complete, FromRule line
  index : (¬ ∃ line ∈ firstNonEmpty complete, FromRule line) →
    ((∃ line ∈ seen, isIndexLine line) ↔ ∃ line ∈ complete, IndexRule line)
  diff : (¬ ∃ line ∈ firstNonEmpty complete, FromRule line) →
    (¬ ∃ line ∈ complete, IndexRule line) →
    ((∃ line ∈ seen, IsDiff line) ↔ ∃ line ∈ complete, IsDiff line)

theorem scanLines_eq (hasIndex hasDiffGit : Bool) (ls : List Line) :
    scanLines hasIndex hasDiffGit ls =
      (hasIndex || ls.any isIndexLine, hasDiffGit || ls.any fun line => IsDiff line) := by
  induction ls generalizing hasIndex hasDiffGit with
  | nil => simp [scanLines]
  | cons line ls ih =>
    rw [scanLines]
    split
    next h =>
      rw [Bool.and_eq_true] at h
      rw [h.1, h.2, any_cons, any_cons, ← Bool.or_assoc, ← Bool.or_assoc, h.1, h.2]
      rfl
    · rw [ih, any_cons, any_cons, Bool.or_assoc, Bool.or_assoc]

open Classical in
theorem detectPatchFormat_utf8 (text : List Char) : detectPatchFormat (utf8 text) =
      if AtBoundary text then
        firstOf ((firstNonEmpty (windowLines text)).any isMboxFromLine)
          (∃ line ∈ windowLines text, isIndexLine line) (∃ line ∈ windowLines text, IsDiff line)
      else .error .notUtf8 := by
  unfold detectPatchFormat firstOf
  rw [length_utf8, fromUtf8_take]
  by_cases h : AtBoundary text
  · rw [if_pos h, if_pos (show _ = _ from h)]
    simp [scanLines_eq, windowLines]
  · rw [if_neg h, if_neg (show ¬ _ = _ from h)]

theorem firstOf_eq_iff {p q r p' q' r' : Prop} : firstOf p q r = firstOf p' q' r' ↔
    (p ↔ p') ∧ (¬ p' → (q ↔ q')) ∧ (¬ p' → ¬ q' → (r ↔ r')) := by
  unfold firstOf
  by_cases p <;> by_cases p' <;> by_cases q <;> by_cases q' <;> by_cases r <;> by_cases r' <;>
    simp [*]

theorem firstOf_ne_notUtf8 (p q r : Prop) : firstOf p q r ≠ .error .notUtf8 := by
  unfold firstOf
  by_cases p <;> by_cases q <;> by_cases r <;> simp [*]

theorem not_atBoundary {front : List Char} {c : Char} (hlt : byteLen front < scanLimit)
    (hc : scanLimit < byteLen front + c.utf8Size) (after : List Char) :
    ¬ AtBoundary (front ++ c :: after) := by
  intro h
  have hlen : byteLen (splitFloor scanLimit (front ++ c :: after)).1 = scanLimit := by
    rw [h, byteLen_append, byteLen_cons]
    omega
  obtain ⟨more, hfront, hmore⟩ := exists_append_of_byteLen_le
    (splitFloor_append scanLimit (front ++ c :: after)).symm (hlt.le.trans hlen.ge)
  rw [hfront, byteLen_append] at hlen
  cases more with
  | nil => exact absurd hlen hlt.ne
  | cons d more =>
    obtain ⟨rfl, -⟩ := List.cons.inj hmore
    rw [byteLen_cons] at hlen
    omega

theorem splitFloor_front {front : List Char} {n : Nat} (h : byteLen front ≤ n) (text : List Char) :
    (splitFloor n (front ++ text)).1 = front ++ (splitFloor (n - byteLen front) text).1 := by
  induction front generalizing n with
  | nil => rfl
  | cons c front ih =>
    rw [byteLen_cons] at h
    rw [cons_append, splitFloor, if_pos (by omega)]
    dsimp only
    rw [ih (by omega), byteLen_cons, Nat.sub_sub]
    rfl

theorem byteLen_replicate (n : Nat) (c : Char) : byteLen (replicate n c) = n * c.utf8Size := by
  simp [byteLen]

def fromLine : Line := "From 0123456789012345678901234567890123456789 Mon".toList

/-- The line, and text up to the last byte of the window. -/
def upToLast : List Char := fromLine ++ '\n' :: replicate 4045 'a'

def straddled : List Char := upToLast ++ 'é' :: ['\n']

end SpkEditor.Patches
