import SpkEditor.Lib.Cut
import SpkEditor.Lib.Utf8

/-!
# Lines of bytes

A file is a list of bytes and its lines end at the byte of the newline; a text is cut into
lines at the newline character. The two cuts agree, also under a decoder that replaces what
it cannot read: no byte of another character is a newline, and no sequence that the decoder
would replace runs across one. So the lines of a decoded file are its decoded lines
(`lines_fromUtf8Lossy`).
-/

namespace SpkEditor.Lines

open Cut List

variable {bytes : List UInt8} {text : List Char}

section Closed

variable {α : Type} [DecidableEq α]

/-- The lines that `sep` closes, and what stands behind the last one. -/
def closedBy (sep : α) : List α → List (List α) × List α
  | [] => ([], [])
  | a :: rest =>
    if a = sep then ([] :: (closedBy sep rest).1, (closedBy sep rest).2)
    else
      match (closedBy sep rest).1 with
      | [] => ([], a :: (closedBy sep rest).2)
      | line :: more => ((a :: line) :: more, (closedBy sep rest).2)

/-- Lines with their ends, one after the other. -/
def joined (sep : α) (ls : List (List α)) : List α := ls.flatMap fun line => line ++ [sep]

omit [DecidableEq α] in
@[simp] theorem joined_nil (sep : α) : joined sep ([] : List (List α)) = [] := rfl

omit [DecidableEq α] in
@[simp] theorem joined_cons (sep : α) (line : List α) (ls : List (List α)) :
    joined sep (line :: ls) = line ++ sep :: joined sep ls := by simp [joined]

omit [DecidableEq α] in
@[simp] theorem joined_append (sep : α) (ls more : List (List α)) :
    joined sep (ls ++ more) = joined sep ls ++ joined sep more := by simp [joined]

omit [DecidableEq α] in
theorem length_le_joined {sep : α} {ls : List (List α)} {line : List α} (h : line ∈ ls) :
    line.length < (joined sep ls).length := by
  induction ls with
  | nil => cases h
  | cons l ls ih =>
    rw [joined_cons, length_append, length_cons]
    rcases List.mem_cons.mp h with rfl | h
    · omega
    · have := ih h
      omega

theorem closedBy_of_not_mem {sep : α} {l : List α} (h : sep ∉ l) : closedBy sep l = ([], l) := by
  induction l with
  | nil => rfl
  | cons a l ih =>
    obtain ⟨hne, hl⟩ := not_or.mp (mt List.mem_cons.mpr h)
    rw [closedBy, if_neg (fun he => hne he.symm), ih hl]

theorem closedBy_line {sep : α} {line : List α} (h : sep ∉ line) (l : List α) :
    closedBy sep (line ++ sep :: l) = (line :: (closedBy sep l).1, (closedBy sep l).2) := by
  induction line with
  | nil => simp [closedBy]
  | cons a line ih =>
    obtain ⟨hne, hl⟩ := not_or.mp (mt List.mem_cons.mpr h)
    rw [cons_append, closedBy, if_neg (fun he => hne he.symm), ih hl]

/-- **Closed lines in front of a text are its first closed lines.** -/
theorem closedBy_joined {sep : α} {ls : List (List α)} (h : ∀ line ∈ ls, sep ∉ line) (l : List α) :
    closedBy sep (joined sep ls ++ l) = (ls ++ (closedBy sep l).1, (closedBy sep l).2) := by
  induction ls with
  | nil => rfl
  | cons line ls ih =>
    obtain ⟨hline, hls⟩ := List.forall_mem_cons.mp h
    rw [joined_cons, append_assoc, cons_append, closedBy_line hline, ih hls]
    rfl

/-- The parts put together again are the text, and no part has an end inside. -/
theorem closedBy_spec (sep : α) (l : List α) :
    joined sep (closedBy sep l).1 ++ (closedBy sep l).2 = l ∧
    (∀ line ∈ (closedBy sep l).1, sep ∉ line) ∧ sep ∉ (closedBy sep l).2 := by
  induction l with
  | nil => simp [closedBy]
  | cons a l ih =>
    obtain ⟨hl, hmem, hrest⟩ := ih
    rw [closedBy]
    split
    · rename_i ha
      refine ⟨by simp [ha, hl], ?_, hrest⟩
      simpa using hmem
    · rename_i ha
      split
      · rename_i hnil
        rw [hnil] at hl
        refine ⟨by simpa using hl, by simp, ?_⟩
        simpa [hrest] using fun he : sep = a => ha he.symm
      · rename_i line more hcons
        rw [hcons] at hl hmem
        refine ⟨by simpa using hl, ?_, hrest⟩
        obtain ⟨hline, hmore⟩ := List.forall_mem_cons.mp hmem
        refine List.forall_mem_cons.mpr ⟨?_, hmore⟩
        simpa [hline] using fun he : sep = a => ha he.symm

omit [DecidableEq α] in
theorem drop_joined {sep : α} {ls : List (List α)} (h : ∀ line ∈ ls, sep ∉ line) (k : Nat) :
    ∃ left, (∀ line ∈ left, sep ∉ line) ∧ (joined sep ls).drop k = joined sep left := by
  induction ls generalizing k with
  | nil => exact ⟨[], by simp, by simp⟩
  | cons line ls ih =>
    obtain ⟨hline, hls⟩ := List.forall_mem_cons.mp h
    rcases Nat.lt_or_ge line.length k with hk | hk
    · obtain ⟨left, hleft, hdrop⟩ := ih hls (k - (line.length + 1))
      refine ⟨left, hleft, ?_⟩
      rw [← hdrop, joined_cons, drop_append, drop_eq_nil_of_le (Nat.le_of_lt hk),
        nil_append, show k - line.length = (k - (line.length + 1)) + 1 by omega,
        drop_succ_cons]
    · refine ⟨line.drop k :: ls, ?_, ?_⟩
      · exact List.forall_mem_cons.mpr ⟨fun hm => hline (mem_of_mem_drop hm), hls⟩
      · rw [joined_cons, joined_cons, drop_append_of_le_length hk]

/-- Of two ways to read a text as lines, the longer one has the line behind the shorter
one. -/
theorem mem_of_joined_lt {sep : α} {ls front : List (List α)} {line rest more : List α}
    (hls : ∀ l ∈ ls, sep ∉ l) (hfront : ∀ l ∈ front, sep ∉ l) (hline : sep ∉ line)
    (h : joined sep ls ++ rest = joined sep front ++ (line ++ sep :: more))
    (hlt : (joined sep front).length < (joined sep ls).length) : line ∈ ls := by
  have hclosed := congrArg (fun l => (closedBy sep l).1) h
  simp only [closedBy_joined hls, closedBy_joined hfront, closedBy_line hline] at hclosed
  rcases List.append_eq_append_iff.mp hclosed with ⟨more', hmore, -⟩ | ⟨more', hmore, hrest⟩
  · rw [hmore, joined_append, length_append] at hlt
    omega
  · cases more' with
    | nil =>
      rw [hmore, append_nil] at hlt
      omega
    | cons l more' =>
      rw [hmore, (List.cons.inj hrest).1]
      simp

/-- `split`: the parts between the separators, from the front. -/
def splitBy (sep : α) (l : List α) : List (List α) := (closedBy sep l).1 ++ [(closedBy sep l).2]

theorem splitBy_of_not_mem {sep : α} {l : List α} (h : sep ∉ l) : splitBy sep l = [l] := by
  rw [splitBy, closedBy_of_not_mem h]
  rfl

theorem splitBy_append (sep : α) (l more : List α) :
    splitBy sep (l ++ sep :: more) = splitBy sep l ++ splitBy sep more := by
  obtain ⟨hl, hmem, hrest⟩ := closedBy_spec sep l
  have hparts : ∀ line ∈ splitBy sep l, sep ∉ line := by
    intro line hline
    rcases List.mem_append.mp hline with hline | hline
    · exact hmem line hline
    · rw [List.mem_singleton.mp hline]
      exact hrest
  have hjoin : l ++ sep :: more = joined sep (splitBy sep l) ++ more := by
    rw [splitBy, joined_append, joined_cons, joined_nil]
    conv_lhs => rw [← hl]
    simp only [append_assoc, cons_append, nil_append]
  rw [hjoin]
  conv_lhs => rw [splitBy, closedBy_joined hparts]
  rw [append_assoc]
  rfl

/-- `rposition`: where the last of them stands. -/
def rposition (a : α) : List α → Option Nat
  | [] => none
  | b :: l =>
    match rposition a l with
    | some i => some (i + 1)
    | none => if b = a then some 0 else none

theorem rposition_eq_none {a : α} {l : List α} : rposition a l = none ↔ a ∉ l := by
  induction l with
  | nil => simp [rposition]
  | cons b l ih =>
    rw [rposition]
    cases h : rposition a l with
    | some i =>
      have hmem : a ∈ l := by
        by_contra hn
        rw [ih.mpr hn] at h
        cases h
      simp [hmem]
    | none =>
      have hn := ih.mp h
      by_cases hb : b = a
      · simp [hb]
      · simpa [hn, hb] using fun he : a = b => hb he.symm

theorem rposition_eq_some {sep : α} {l : List α} {i : Nat} (h : rposition sep l = some i) :
    ∃ line ls, (∀ m ∈ line :: ls, sep ∉ m) ∧ l.take (i + 1) = joined sep (line :: ls) ∧
      i < l.length ∧ sep ∉ l.drop (i + 1) := by
  have hlast : l.take (i + 1) ++ l.drop (i + 1) = l ∧ i < l.length ∧ sep ∉ l.drop (i + 1) ∧
      l[i]? = some sep := by
    refine ⟨take_append_drop .., ?_⟩
    induction l generalizing i with
    | nil => cases h
    | cons b l ih =>
      rw [rposition] at h
      split at h
      · rename_i j hj
        obtain rfl : j + 1 = i := Option.some.inj h
        simpa using ih hj
      · rename_i hnone
        split at h
        · rename_i hb
          obtain rfl : 0 = i := Option.some.inj h
          simpa [hb] using rposition_eq_none.mp hnone
        · cases h
  obtain ⟨-, hi, hn, hat⟩ := hlast
  have htake : l.take (i + 1) = l.take i ++ [sep] := by
    rw [take_add_one, hat]
    rfl
  obtain ⟨hjoin, hmem, hrest⟩ := closedBy_spec sep (l.take i)
  have hall : joined sep ((closedBy sep (l.take i)).1 ++ [(closedBy sep (l.take i)).2]) =
      l.take (i + 1) := by
    rw [joined_append, joined_cons, joined_nil, htake]
    conv_rhs => rw [← hjoin]
    rw [append_assoc]
  obtain ⟨line, ls, hls⟩ := exists_cons_of_ne_nil
    (show (closedBy sep (l.take i)).1 ++ [(closedBy sep (l.take i)).2] ≠ [] by simp)
  rw [hls] at hall
  refine ⟨line, ls, ?_, hall.symm, hi, hn⟩
  intro m hm
  rw [← hls] at hm
  rcases List.mem_append.mp hm with hm | hm
  · exact hmem m hm
  · rw [List.mem_singleton.mp hm]
    exact hrest

end Closed

/-! ## The newline -/

/-- The byte of `\n`. -/
def newline : UInt8 := 10

theorem utf8EncodeChar_newline : String.utf8EncodeChar '\n' = [newline] :=
  utf8EncodeChar_ascii (by decide)

theorem newline_mem_utf8EncodeChar {c : Char} : newline ∈ String.utf8EncodeChar c ↔ c = '\n' :=
  mem_utf8EncodeChar_ascii (a := '\n') (by decide)

/-! ## Texts among bytes -/

theorem fromUtf8_eq_some_iff : fromUtf8 bytes = some text ↔ bytes = utf8 text := by
  constructor
  · intro h
    obtain ⟨chars, hdec, rfl⟩ := Option.map_eq_some_iff.mp h
    have henc := @ByteArray.utf8Encode_get_utf8Decode? bytes.toByteArray (by rw [hdec]; rfl)
    simp only [hdec, Option.get_some] at henc
    exact (List.toByteArray_inj.mp henc).symm
  · rintro rfl
    exact fromUtf8_utf8 text

/-- A character does not begin inside another one. -/
theorem eq_nil_of_utf8EncodeChar {c : Char} {front rest : List UInt8}
    (h : String.utf8EncodeChar c = front ++ rest) {more : List UInt8}
    (hrest : rest ≠ []) (htext : utf8 text = rest ++ more) : front = [] := by
  obtain ⟨b, rest', rfl⟩ := exists_cons_of_ne_nil hrest
  cases text with
  | nil => simp at htext
  | cons d text =>
    obtain ⟨b', bs, hd⟩ := exists_cons_of_ne_nil (@String.utf8EncodeChar_ne_nil d)
    rw [utf8_cons, hd, cons_append, cons_append] at htext
    obtain ⟨rfl, -⟩ := List.cons.inj htext
    have hfirst : b'.IsUTF8FirstByte := by
      have := (@UInt8.isUTF8FirstByte_getElem_utf8EncodeChar d 0 (by rw [hd]; simp)).mpr rfl
      simpa [hd] using this
    have hat : front.length < (String.utf8EncodeChar c).length := by rw [h]; simp
    have := (@UInt8.isUTF8FirstByte_getElem_utf8EncodeChar c front.length hat).mp
      (by simpa [h] using hfirst)
    exact eq_nil_of_length_eq_zero this

/-- **A text at the end of a text's bytes** is the end of that text. -/
theorem utf8_suffix {part : List Char} {front : List UInt8} (h : utf8 text = front ++ utf8 part) :
    ∃ before, text = before ++ part ∧ front = utf8 before := by
  induction text generalizing front with
  | nil =>
    obtain ⟨rfl, hpart⟩ := List.append_eq_nil_iff.mp h.symm
    exact ⟨[], utf8_injective (by simpa using hpart.symm), rfl⟩
  | cons c text ih =>
    rw [utf8_cons] at h
    rcases List.append_eq_append_iff.mp h with ⟨front', hfront, hrest⟩ | ⟨rest, hc, hpart⟩
    · obtain ⟨before, rfl, rfl⟩ := ih hrest
      exact ⟨c :: before, rfl, hfront⟩
    · by_cases hrest : rest = []
      · rw [hrest, append_nil] at hc
        rw [hrest, nil_append] at hpart
        exact ⟨[c], by rw [utf8_injective hpart]; rfl, by rw [← hc]; simp⟩
      · have := eq_nil_of_utf8EncodeChar hc hrest hpart
        subst this
        exact ⟨[], utf8_injective (by rw [utf8_cons, h]; simp), rfl⟩

theorem utf8_newline {front rest : List UInt8} (h : utf8 text = front ++ newline :: rest) :
    ∃ before after, text = before ++ '\n' :: after ∧ front = utf8 before := by
  induction text generalizing front with
  | nil => simp at h
  | cons c text ih =>
    rcases List.append_eq_append_iff.mp h with ⟨front', hfront, hrest⟩ | ⟨r, hc, hr⟩
    · obtain ⟨before, after, rfl, rfl⟩ := ih hrest
      exact ⟨c :: before, after, rfl, hfront⟩
    · cases r with
      | nil =>
        rw [append_nil] at hc
        obtain ⟨before, after, rfl, hnil⟩ := @ih [] hr.symm
        refine ⟨c :: before, after, rfl, ?_⟩
        rw [utf8_cons, ← hnil, hc, append_nil]
      | cons b r =>
        obtain ⟨rfl, -⟩ := List.cons.inj (hr.trans (cons_append ..))
        obtain rfl := newline_mem_utf8EncodeChar.mp (by rw [hc]; simp : newline ∈ String.utf8EncodeChar c)
        rw [utf8EncodeChar_newline] at hc
        obtain rfl : front = [] := by
          cases front with
          | nil => rfl
          | cons b front => simp at hc
        exact ⟨[], text, rfl, rfl⟩

/-! ## The decoder that replaces -/

theorem decode_eq_some_iff {c : Char} :
    bytes.toByteArray.utf8DecodeChar? 0 = some c ↔ ∃ rest, bytes = String.utf8EncodeChar c ++ rest := by
  constructor
  · intro h
    obtain ⟨l, hl⟩ := ByteArray.exists_of_utf8DecodeChar?_eq_some h
    refine ⟨l.data.toList, ?_⟩
    have := congrArg (fun b => b.data.toList) hl
    simpa using this
  · rintro ⟨rest, rfl⟩
    rw [toByteArray_append]
    exact ByteArray.utf8DecodeChar?_utf8EncodeChar_append

theorem utf8Size_pos_le {c : Char} (h : bytes.toByteArray.utf8DecodeChar? 0 = some c) :
    0 < c.utf8Size ∧ c.utf8Size ≤ bytes.length := by
  obtain ⟨rest, rfl⟩ := decode_eq_some_iff.mp h
  rw [length_append, String.length_utf8EncodeChar]
  exact ⟨c.utf8Size_pos, Nat.le_add_right ..⟩

/-- The second byte of a sequence that could have become a character. -/
def secondOk (b c : UInt8) : Bool :=
  if b = 0xE0 then 0xA0 ≤ c && c ≤ 0xBF
  else if b = 0xED then 0x80 ≤ c && c ≤ 0x9F
  else if b = 0xF0 then 0x90 ≤ c && c ≤ 0xBF
  else if b = 0xF4 then 0x80 ≤ c && c ≤ 0x8F
  else 0xE1 ≤ b && b ≤ 0xF3 && isContinuation c

theorem secondOk_newline (b : UInt8) : secondOk b newline = false := by
  simp [secondOk, show ¬ (0xA0 : UInt8) ≤ newline by decide, show ¬ (0x80 : UInt8) ≤ newline by decide,
    show ¬ (0x90 : UInt8) ≤ newline by decide, show isContinuation newline = false by decide]

theorem invalidLen_two (b c : UInt8) : invalidLen [b, c] = if secondOk b c then 2 else 1 := rfl

theorem invalidLen_more (b c d : UInt8) (rest : List UInt8) : invalidLen (b :: c :: d :: rest) =
      if secondOk b c then if 0xF0 ≤ b && isContinuation d then 3 else 2 else 1 := rfl

theorem invalidLen_pos_le (h : bytes ≠ []) :
    0 < invalidLen bytes ∧ invalidLen bytes ≤ bytes.length := by
  match bytes with
  | [b] => exact ⟨Nat.one_pos, Nat.le_refl _⟩
  | [b, c] =>
    rw [invalidLen_two]
    split <;> simp
  | b :: c :: d :: rest =>
    rw [invalidLen_more]
    split
    · split <;> simp
    · simp

theorem lossyFrom_fuel {n m : Nat} (hn : bytes.length ≤ n)
    (hm : bytes.length ≤ m) : lossyFrom n bytes = lossyFrom m bytes := by
  induction n generalizing m bytes with
  | zero =>
    obtain rfl := eq_nil_of_length_eq_zero (Nat.le_zero.mp hn)
    cases m <;> rfl
  | succ n ih =>
    cases bytes with
    | nil => cases m <;> rfl
    | cons b bytes =>
      obtain ⟨k, rfl⟩ : ∃ k, m = k + 1 := ⟨m - 1, by simp at hm; omega⟩
      rw [lossyFrom, lossyFrom]
      simp only [length_cons] at hn hm
      cases hc : (b :: bytes).toByteArray.utf8DecodeChar? 0 with
      | some c =>
        obtain ⟨hpos, -⟩ := utf8Size_pos_le hc
        have hlen : ((b :: bytes).drop c.utf8Size).length ≤ bytes.length := by
          rw [length_drop, length_cons]; omega
        exact congrArg _ (ih (by omega) (by omega))
      | none =>
        obtain ⟨hpos, -⟩ := invalidLen_pos_le (cons_ne_nil b bytes)
        have hlen : ((b :: bytes).drop (invalidLen (b :: bytes))).length ≤ bytes.length := by
          rw [length_drop, length_cons]; omega
        exact congrArg _ (ih (by omega) (by omega))

theorem fromUtf8Lossy_step (h : bytes ≠ []) : fromUtf8Lossy bytes =
      match bytes.toByteArray.utf8DecodeChar? 0 with
      | some c => c :: fromUtf8Lossy (bytes.drop c.utf8Size)
      | none => '\uFFFD' :: fromUtf8Lossy (bytes.drop (invalidLen bytes)) := by
  cases bytes with
  | nil => exact absurd rfl h
  | cons b bytes =>
    conv_lhs => rw [fromUtf8Lossy, length_cons, lossyFrom]
    cases hc : (b :: bytes).toByteArray.utf8DecodeChar? 0 with
    | some c =>
      obtain ⟨hpos, -⟩ := utf8Size_pos_le hc
      refine congrArg _ (lossyFrom_fuel ?_ (Nat.le_refl _))
      rw [length_drop, length_cons]; omega
    | none =>
      obtain ⟨hpos, -⟩ := invalidLen_pos_le (cons_ne_nil b bytes)
      refine congrArg _ (lossyFrom_fuel ?_ (Nat.le_refl _))
      rw [length_drop, length_cons]; omega

theorem decode_newline (h : bytes ≠ []) (more : List UInt8) :
    (bytes ++ newline :: more).toByteArray.utf8DecodeChar? 0 =
      bytes.toByteArray.utf8DecodeChar? 0 := by
  refine Option.ext fun c => ?_
  rw [decode_eq_some_iff, decode_eq_some_iff]
  constructor
  · rintro ⟨rest, he⟩
    rcases List.append_eq_append_iff.mp he with ⟨r, hc, hrest⟩ | ⟨r, hb, -⟩
    · cases r with
      | nil => exact ⟨[], by simpa using hc.symm⟩
      | cons b r =>
        obtain ⟨rfl, -⟩ := List.cons.inj (hrest.trans (cons_append ..))
        have hmem : newline ∈ String.utf8EncodeChar c := by rw [hc]; simp
        obtain rfl := newline_mem_utf8EncodeChar.mp hmem
        have hlen := congrArg List.length hc
        have hpos := length_pos_of_ne_nil h
        rw [utf8EncodeChar_newline] at hlen
        simp at hlen
        omega
    · exact ⟨r, hb⟩
  · rintro ⟨rest, rfl⟩
    exact ⟨rest ++ newline :: more, append_assoc ..⟩

theorem invalidLen_newline (h : bytes ≠ []) (more : List UInt8) :
    invalidLen (bytes ++ newline :: more) = invalidLen bytes := by
  match bytes with
  | [b] =>
    cases more with
    | nil => rw [singleton_append, invalidLen_two, secondOk_newline]; rfl
    | cons d more => rw [singleton_append, invalidLen_more, secondOk_newline]; rfl
  | [b, c] =>
    rw [cons_append, singleton_append, invalidLen_more, invalidLen_two,
      show isContinuation newline = false from rfl, Bool.and_false]
    rfl
  | b :: c :: d :: rest =>
    rw [cons_append, cons_append, cons_append, invalidLen_more, invalidLen_more]

/-- **Decoding cuts at a newline**, whatever stands in front of it. -/
theorem fromUtf8Lossy_newline (bytes more : List UInt8) :
    fromUtf8Lossy (bytes ++ newline :: more) = fromUtf8Lossy bytes ++ '\n' :: fromUtf8Lossy more := by
  induction hn : bytes.length using Nat.strong_induction_on generalizing bytes with
  | _ n ih =>
    by_cases hnil : bytes = []
    · subst hnil
      have hdec : (newline :: more).toByteArray.utf8DecodeChar? 0 = some '\n' :=
        decode_eq_some_iff.mpr ⟨more, by rw [utf8EncodeChar_newline]; rfl⟩
      rw [nil_append, fromUtf8Lossy_step (cons_ne_nil _ _), hdec]
      rfl
    · have hlen := length_pos_of_ne_nil hnil
      rw [fromUtf8Lossy_step (by simp), decode_newline hnil, invalidLen_newline hnil,
        fromUtf8Lossy_step hnil]
      cases hc : bytes.toByteArray.utf8DecodeChar? 0 with
      | some c =>
        obtain ⟨hpos, hle⟩ := utf8Size_pos_le hc
        simp only [drop_append_of_le_length hle, cons_append]
        rw [ih _ (by rw [length_drop]; omega) _ rfl]
      | none =>
        obtain ⟨hpos, hle⟩ := invalidLen_pos_le hnil
        simp only [drop_append_of_le_length hle, cons_append]
        rw [ih _ (by rw [length_drop]; omega) _ rfl]

theorem newline_not_mem_fromUtf8Lossy (h : newline ∉ bytes) : '\n' ∉ fromUtf8Lossy bytes := by
  induction hn : bytes.length using Nat.strong_induction_on generalizing bytes with
  | _ n ih =>
    by_cases hnil : bytes = []
    · subst hnil
      exact not_mem_nil
    · have hlen := length_pos_of_ne_nil hnil
      have hdrop : ∀ k, newline ∉ bytes.drop k := fun k hk => h (mem_of_mem_drop hk)
      rw [fromUtf8Lossy_step hnil]
      cases hc : bytes.toByteArray.utf8DecodeChar? 0 with
      | some c =>
        obtain ⟨hpos, -⟩ := utf8Size_pos_le hc
        have hne : c ≠ '\n' := by
          rintro rfl
          obtain ⟨rest, rfl⟩ := decode_eq_some_iff.mp hc
          rw [utf8EncodeChar_newline] at h
          simp at h
        rw [mem_cons, not_or]
        exact ⟨Ne.symm hne, ih _ (by rw [length_drop]; omega) (hdrop _) rfl⟩
      | none =>
        obtain ⟨hpos, -⟩ := invalidLen_pos_le hnil
        rw [mem_cons, not_or]
        exact ⟨by decide, ih _ (by rw [length_drop]; omega) (hdrop _) rfl⟩

/-- The text of a line: decoded, without a carriage return at its end. -/
def lineText (line : List UInt8) : List Char := stripCr (fromUtf8Lossy line)

/-- **The lines of a decoded file are its decoded lines.** -/
theorem lines_fromUtf8Lossy {ls : List (List UInt8)} (h : ∀ line ∈ ls, newline ∉ line) :
    lines (fromUtf8Lossy (joined newline ls)) = ls.map lineText := by
  have hclosed : closedLines (fromUtf8Lossy (joined newline ls)) = (ls.map fromUtf8Lossy, []) := by
    induction ls with
    | nil => rfl
    | cons line ls ih =>
      obtain ⟨hline, hls⟩ := List.forall_mem_cons.mp h
      rw [joined_cons, fromUtf8Lossy_newline,
        closedLines_append (newline_not_mem_fromUtf8Lossy hline), ih hls]
      rfl
  rw [lines, hclosed]
  simp [lineText]

end SpkEditor.Lines
