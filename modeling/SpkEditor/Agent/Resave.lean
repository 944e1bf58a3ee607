import Mathlib.Data.List.Forall2
import SpkEditor.Agent.ToolSummary

/-!
# Storing what has been restored

The second time a piece of tool output is stored, its markdown goes through the fence and the
limit once more. A fence leaves it alone if its first line opens one, and the limit if it has
no more lines than are allowed. Where the limit has cut already, what it has made has two or
three lines too many (the note, a blank line, the closing fence), so the note changes unless
that is the number of lines it has counted the first time.
-/

namespace SpkEditor.Entries

open Cut List

/-- Lines that the limit leaves alone, at once or after the first cut. -/
def Fits (ls : List (List Char)) : Prop :=
  ls.length ≤ maxLines ∨ (∀ l ∈ ls.take maxLines, l.getLast? ≠ some '\r') ∧
      ls.length = maxLines + if opensFence (ls.take maxLines) then 3 else 2

/-- A text that is stored as it has been stored before. -/
def Stable (text : List Char) : Prop :=
  if trimEnd text = [] then (lines text).length ≤ maxLines
  else alreadyFenced text = true ∧ Fits (lines text)

/-! ## First lines -/

section

variable {pat line space text : List Char}

section

variable (hpat : ∀ c ∈ pat, isSpace c = false) (hspace : ∀ c ∈ space, isSpace c = true)
include hpat hspace

theorem isPrefixOf_append_space : pat.isPrefixOf (line ++ space) = pat.isPrefixOf line := by
  rw [Bool.eq_iff_iff, isPrefixOf_iff_prefix, isPrefixOf_iff_prefix]
  constructor
  · intro h
    rcases prefix_or_prefix_of_prefix h (prefix_append line space) with h' | h'
    · exact h'
    · obtain ⟨rest, rfl⟩ := h'
      rw [prefix_append_right_inj] at h
      cases rest with
      | nil => simp
      | cons c rest =>
        have hblank := hspace c (h.subset (mem_cons_self ..))
        rw [hpat c (by simp)] at hblank
        cases hblank
  · intro h
    exact h.trans (prefix_append _ _)

theorem isPrefixOf_trimStart_append_space :
    pat.isPrefixOf (trimStart (line ++ space)) = pat.isPrefixOf (trimStart line) := by
  rw [trimStart, trimStart, dropWhile_append]
  split
  · rename_i hempty
    rw [List.isEmpty_iff.mp hempty, List.dropWhile_eq_nil_iff.mpr hspace]
  · exact isPrefixOf_append_space hpat hspace

end

theorem ticks3_not_space : ∀ c ∈ ticks3, isSpace c = false := by simp [ticks3, isSpace]

theorem ticks4_not_space : ∀ c ∈ ticks4, isSpace c = false := by simp [ticks4, isSpace]

theorem opensCode_append_space (hspace : ∀ c ∈ space, isSpace c = true) :
    opensCode (line ++ space) = opensCode line :=
  isPrefixOf_trimStart_append_space ticks3_not_space hspace

theorem stripCr_append (line : List Char) :
    ∃ space, line = stripCr line ++ space ∧ ∀ c ∈ space, isSpace c = true := by
  rw [stripCr]
  split
  · rename_i h
    refine ⟨['\r'], ?_, by simp [isSpace]⟩
    obtain ⟨front, rfl⟩ := List.getLast?_eq_some_iff.mp h
    simp
  · exact ⟨[], by simp, by simp⟩

theorem opensCode_stripCr (line : List Char) : opensCode (stripCr line) = opensCode line := by
  obtain ⟨space, hline, hspace⟩ := stripCr_append line
  conv_rhs => rw [hline]
  exact (opensCode_append_space hspace).symm

def firstLine (text : List Char) : List Char := text.takeWhile (· ≠ '\n')

theorem firstLine_of_not_mem (h : '\n' ∉ text) : firstLine text = text := by
  rw [firstLine, takeWhile_eq_self_iff]
  intro c hc
  exact decide_eq_true fun he => h (he ▸ hc)

theorem firstLine_break (h : '\n' ∉ line) (rest : List Char) :
    firstLine (line ++ '\n' :: rest) = line := by
  rw [firstLine, takeWhile_append_of_pos]
  · simp
  · intro c hc
    exact decide_eq_true fun he => h (he ▸ hc)

theorem head_lines (text : List Char) :
    (lines text).head?.any opensCode = opensCode (firstLine text) := by
  by_cases hn : '\n' ∈ text
  · obtain ⟨line, rest, rfl, hline⟩ := eq_append_cons_of_mem hn
    rw [lines_line hline, firstLine_break hline, head?_cons, Option.any_some,
      opensCode_stripCr]
  · rw [firstLine_of_not_mem hn]
    cases text with
    | nil => rfl
    | cons c text => rw [lines_of_not_mem hn (cons_ne_nil _ _), head?_cons,
        Option.any_some]

theorem alreadyFenced_eq (text : List Char) : alreadyFenced text = opensCode (firstLine text) := by
  obtain ⟨space, htext, hspace⟩ := trimEnd_append text
  rw [alreadyFenced, head_lines]
  conv_rhs => rw [htext, firstLine, takeWhile_append]
  split
  · rename_i hlen
    have hself : firstLine (trimEnd text) = trimEnd text :=
      ( takeWhile_prefix _).eq_of_length hlen
    rw [hself, opensCode_append_space]
    intro c hc
    exact hspace c (( takeWhile_prefix _).subset hc)
  · rfl

theorem alreadyFenced_cons {c : Char} (hspace : isSpace c = false) (hc : c ≠ '\x60')
    (text : List Char) : alreadyFenced (c :: text) = false := by
  have hn : c ≠ '\n' := by
    rintro rfl
    cases hspace
  rw [alreadyFenced_eq, firstLine, takeWhile_cons_of_pos (by simpa using hn), opensCode,
    trimStart, dropWhile_cons_of_neg (by simp [hspace]), Bool.eq_false_iff]
  intro h
  obtain ⟨rest, hrest⟩ := List.isPrefixOf_iff_prefix.mp h
  exact hc (List.cons.inj hrest).1.symm

theorem alreadyFenced_ticks3 (rest : List Char) : alreadyFenced (ticks3 ++ rest) = true := by
  rw [alreadyFenced_eq, firstLine,
    takeWhile_append_of_pos (List.all_eq_true.mp (by decide)), opensCode,
    isPrefixOf_iff_prefix]
  exact ⟨rest.takeWhile (· ≠ '\n'), rfl⟩

theorem alreadyFenced_ticks4 (rest : List Char) : alreadyFenced (ticks4 ++ rest) = true :=
  alreadyFenced_ticks3 ('\x60' :: rest)

theorem trimEnd_ne_nil_of_fenced (h : alreadyFenced text = true) : trimEnd text ≠ [] := by
  intro hnil
  rw [alreadyFenced, hnil] at h
  cases h

end

/-! ## What the limit makes -/

/-- The lines that stay, the closing fence and the note. -/
def capped (head : List (List Char)) (remaining : Nat) : List Char :=
  ['\n'].intercalate head ++ (if opensFence head then '\n' :: closingFence head else []) ++
    '\n' :: '\n' :: moreLines remaining

section

variable {text : List Char} {head : List (List Char)}

theorem truncate_short (h : (lines text).length ≤ maxLines) : truncateToolSummary text = text := by
  rw [truncateToolSummary]
  simp [Nat.sub_eq_zero_of_le h]

theorem truncate_long (h : maxLines < (lines text).length) : truncateToolSummary text =
    capped ((lines text).take maxLines) ((lines text).length - maxLines) := by
  rw [truncateToolSummary, length_drop, if_neg (by omega)]
  rfl

theorem closingFence_not_mem (head : List (List Char)) : '\n' ∉ closingFence head := by
  rw [closingFence]
  split <;> decide

theorem stripCr_closingFence (head : List (List Char)) :
    stripCr (closingFence head) = closingFence head := by
  rw [closingFence]
  split <;> decide

theorem moreLines_not_mem (remaining : Nat) : '\n' ∉ moreLines remaining := by
  have hdigits := not_mem_toDigits (c := '\n') (by decide) remaining
  simp [moreLines, hdigits]

theorem moreLines_getLast? (remaining : Nat) : (moreLines remaining).getLast? = some '_' := by
  rw [moreLines, getLast?_append_of_ne_nil _ (by decide)]
  decide

theorem lines_moreLines (remaining : Nat) : lines (moreLines remaining) = [moreLines remaining] :=
  lines_of_not_mem (moreLines_not_mem remaining) (by simp [moreLines])

section

variable (head : List (List Char)) (remaining : Nat)

theorem capped_getLast? : (capped head remaining).getLast? = some '_' := by
  rw [capped, getLast?_append_of_ne_nil _ (cons_ne_nil _ _)]
  have hne : moreLines remaining ≠ [] := by simp [moreLines]
  rw [getLast?_cons_of_ne_nil (cons_ne_nil _ _), getLast?_cons_of_ne_nil hne,
    moreLines_getLast?]

theorem trimEnd_capped : trimEnd (capped head remaining) = capped head remaining :=
  trimEnd_eq_self (capped_getLast? head remaining) (by decide)

theorem capped_ne_nil : capped head remaining ≠ [] := by
  intro h
  have hlast := capped_getLast? head remaining
  rw [h] at hlast
  cases hlast

end

theorem lines_capped (hne : head ≠ []) (h : ∀ l ∈ head, '\n' ∉ l) (remaining : Nat) :
    lines (capped head remaining) = head.map stripCr ++
      ((if opensFence head then [closingFence head] else []) ++ [[], moreLines remaining]) := by
  have hnote : lines ('\n' :: moreLines remaining) = [[], moreLines remaining] := by
    have hblank := lines_line (show '\n' ∉ [] by simp) (moreLines remaining)
    rw [nil_append] at hblank
    rw [hblank, lines_moreLines]
    rfl
  rw [capped]
  split
  · rw [append_assoc, cons_append, lines_intercalate hne h,
      lines_line (closingFence_not_mem head), stripCr_closingFence, hnote]
    rfl
  · rw [append_nil, lines_intercalate hne h, hnote]
    rfl

theorem firstLine_capped {line : List Char} {rest : List (List Char)} (h : '\n' ∉ line)
    (remaining : Nat) : firstLine (capped (line :: rest) remaining) = line := by
  rw [capped]
  cases rest with
  | nil =>
    rw [intercalate_singleton]
    split
    · rw [append_assoc, cons_append, firstLine_break h]
    · rw [append_nil, firstLine_break h]
  | cons next rest =>
    rw [intercalate_cons_cons, append_assoc, append_assoc, append_assoc,
      singleton_append, firstLine_break h]

theorem opensFence_stripCr (head : List (List Char)) :
    opensFence (head.map stripCr) = opensFence head := by
  rw [opensFence, opensFence, countP_map]
  congr 3
  funext line
  obtain ⟨space, hline, hspace⟩ := stripCr_append line
  rw [Function.comp_apply]
  conv_rhs => rw [hline, isPrefixOf_append_space ticks3_not_space hspace,
    isPrefixOf_append_space ticks4_not_space hspace]

theorem closingFence_stripCr (head : List (List Char)) :
    closingFence (head.map stripCr) = closingFence head := by
  rw [closingFence, closingFence, any_map]
  congr 2
  refine congrArg (List.any head) (funext fun line => ?_)
  obtain ⟨space, hline, hspace⟩ := stripCr_append line
  rw [Function.comp_apply]
  conv_rhs => rw [hline, isPrefixOf_trimStart_append_space ticks4_not_space hspace]

/-- The limit counts its own note, the blank line before it and the fence it has closed. -/
theorem truncate_capped (hlen : head.length = maxLines) (h : ∀ l ∈ head, '\n' ∉ l)
    (remaining : Nat) : truncateToolSummary (capped head remaining) =
      capped (head.map stripCr) (if opensFence head then 3 else 2) := by
  have hne : head ≠ [] := by
    rintro rfl
    cases hlen
  have hlines := lines_capped hne h remaining
  have hhead : (lines (capped head remaining)).take maxLines = head.map stripCr := by
    rw [hlines, take_left' (by rw [length_map, hlen])]
  have hcount : (lines (capped head remaining)).length - maxLines =
      if opensFence head then 3 else 2 := by
    rw [hlines, length_append, length_map, hlen, Nat.add_sub_cancel_left]
    split <;> rfl
  have hlong : maxLines < (lines (capped head remaining)).length := by
    have hpos : 0 < if opensFence head then 3 else 2 := by split <;> decide
    omega
  rw [truncate_long hlong, hhead, hcount]

theorem length_moreLines (remaining : Nat) :
    (moreLines remaining).length = (Nat.toDigits 10 remaining).length + 18 := by
  simp [moreLines]

theorem moreLines_inj {j k : Nat} (h : moreLines j = moreLines k) : j = k := by
  rw [moreLines, moreLines, append_assoc, append_assoc] at h
  have hdigits := append_cancel_right (append_cancel_left h)
  rw [← Nat.ofDigitChars_ten_toDigits (n := j), ← Nat.ofDigitChars_ten_toDigits (n := k), hdigits]

theorem capped_stripCr_eq_iff {j k : Nat} (hj : j < 10) :
    capped (head.map stripCr) j = capped head k ↔ (∀ l ∈ head, l.getLast? ≠ some '\r') ∧ k = j := by
  have hparts : List.Forall₂ (fun a b : List Char => a.length ≤ b.length)
      (head.map stripCr) head := by
    rw [forall₂_map_left_iff]
    exact List.forall₂_same.mpr fun l _ => (stripCr_sublist l).length_le
  have hstrip : head.map stripCr = head ↔ ∀ l ∈ head, l.getLast? ≠ some '\r' := by
    conv_lhs => rw [← map_id head, map_map]
    rw [map_inj_left]
    exact forall₂_congr fun l _ => stripCr_eq_self_iff
  constructor
  · intro h
    rw [capped, capped, opensFence_stripCr, closingFence_stripCr] at h
    -- neither the lines nor the number get longer, so both keep their length
    have hjoin := length_intercalate_le ['\n'] hparts
    have hone : (Nat.toDigits 10 j).length = 1 := by
      rw [Nat.toDigits_of_lt_base hj]
      rfl
    have hpos : 0 < (Nat.toDigits 10 k).length := length_pos_of_ne_nil Nat.toDigits_ne_nil
    have hlen := congrArg List.length h
    simp only [length_append, length_cons, length_moreLines] at hlen
    rw [append_assoc, append_assoc] at h
    obtain ⟨hhead, hrest⟩ := append_inj h (by omega)
    have hnote := (List.cons.inj (List.cons.inj (append_cancel_left hrest)).2).2
    exact ⟨hstrip.mp ((intercalate_inj hparts).mp hhead), (moreLines_inj hnote).symm⟩
  · intro h
    obtain ⟨hlines, rfl⟩ := h
    rw [hstrip.mpr hlines]

end

/-! ## Fenced and cut once more -/

section

variable {text : List Char}

theorem fence_of_fenced (h : alreadyFenced text = true) : fencePlainText text = text := by
  rw [fencePlainText, if_neg (trimEnd_ne_nil_of_fenced h), if_pos h]

theorem truncate_ticks4 (text : List Char) :
    ∃ rest, truncateToolSummary (ticks4 ++ '\n' :: text) = ticks4 ++ rest := by
  rcases lt_or_ge maxLines (lines (ticks4 ++ '\n' :: text)).length with hlong | hshort
  · have hstrip : stripCr ticks4 = ticks4 := by decide
    rw [truncate_long hlong, lines_line (by decide), hstrip, maxLines, take_succ_cons]
    cases (lines text).take 14 with
    | nil => exact ⟨_, by rw [capped, intercalate_singleton, append_assoc]⟩
    | cons line rest =>
      exact ⟨_, by rw [capped, intercalate_cons_cons, append_assoc, append_assoc, append_assoc]⟩
  · exact ⟨_, truncate_short hshort⟩

theorem truncate_fence_ne (text : List Char) (hne : trimEnd text ≠ [])
    (hplain : alreadyFenced text = false) :
    truncateToolSummary (fencePlainText text) ≠ text := by
  intro h
  rw [fencePlainText, if_neg hne, hplain, if_neg Bool.false_ne_true, append_assoc, cons_append] at h
  obtain ⟨rest, hrest⟩ := truncate_ticks4 (trimEnd text ++ '\n' :: ticks4)
  rw [hrest] at h
  rw [← h, alreadyFenced_ticks4] at hplain
  cases hplain

theorem alreadyFenced_capped {remaining : Nat} (hlong : maxLines < (lines text).length) :
    alreadyFenced (capped ((lines text).take maxLines) remaining) = alreadyFenced text := by
  rw [alreadyFenced_eq, alreadyFenced_eq text, ← head_lines text]
  cases hlines : lines text with
  | nil =>
    rw [hlines] at hlong
    cases hlong
  | cons line rest =>
    have hline : '\n' ∉ line := mem_lines (show line ∈ lines text by simp [hlines])
    rw [maxLines, take_succ_cons, firstLine_capped hline]
    rfl

/-- **A text is stored the same again exactly if it is stable.** -/
theorem truncate_fence_truncate_iff (text : List Char) :
    truncateToolSummary (fencePlainText (truncateToolSummary text)) = truncateToolSummary text ↔
      Stable text := by
  rcases lt_or_ge maxLines (lines text).length with hlong | hshort
  · have hlen : ((lines text).take maxLines).length = maxLines := by
      rw [length_take]
      omega
    have hbreak : ∀ l ∈ (lines text).take maxLines, '\n' ∉ l := by
      intro l hl
      exact mem_lines (mem_of_mem_take hl)
    rw [truncate_long hlong]
    cases hfenced : alreadyFenced text with
    | true =>
      rw [fence_of_fenced ((alreadyFenced_capped hlong).trans hfenced),
        truncate_capped hlen hbreak, capped_stripCr_eq_iff (by split <;> decide), Stable,
        if_neg (trimEnd_ne_nil_of_fenced hfenced), Fits]
      constructor
      · intro h
        exact ⟨hfenced, .inr ⟨h.1, by omega⟩⟩
      · intro h
        rcases h.2 with hshort | h
        · omega
        · exact ⟨h.1, by omega⟩
    | false =>
      have hne := truncate_fence_ne
        (capped ((lines text).take maxLines) ((lines text).length - maxLines))
        (by rw [trimEnd_capped]; exact capped_ne_nil _ _)
        ((alreadyFenced_capped hlong).trans hfenced)
      refine iff_of_false hne fun hstable => ?_
      rw [Stable] at hstable
      split at hstable
      · omega
      · rw [hfenced] at hstable
        cases hstable.1
  · rw [truncate_short hshort, Stable]
    split
    · rename_i hblank
      rw [fencePlainText, if_pos hblank, truncate_short hshort]
      exact iff_of_true rfl hshort
    · rename_i hne
      cases hfenced : alreadyFenced text with
      | true =>
        rw [fence_of_fenced hfenced, truncate_short hshort]
        exact iff_of_true rfl ⟨rfl, .inl hshort⟩
      | false =>
        refine iff_of_false (truncate_fence_ne text hne hfenced) fun h => ?_
        cases h.1

end

end SpkEditor.Entries
