import Mathlib.Algebra.Order.Ring.Nat
import Mathlib.Data.List.DropRight

/-!
# Cutting a text apart

The cuts a hand-written parser makes: at the first separator, at the last one, behind a
fixed beginning, a text into its lines, and a numeral into its value. Each comes with the
one equation a round trip needs: joining the pieces and cutting them apart again gives the
pieces back, as long as the separator cannot be mistaken.
-/

namespace SpkEditor.Cut

open List

variable {α : Type} [DecidableEq α]

/-- Cut at the first `sep`, which goes. -/
def splitOnce (sep : α) : List α → Option (List α × List α)
  | [] => none
  | a :: rest =>
    if a = sep then some ([], rest)
    else (splitOnce sep rest).map fun p => (a :: p.1, p.2)

/-- Cut at the last `sep`, which goes. -/
def rsplitOnce (sep : α) (l : List α) : Option (List α × List α) :=
  (splitOnce sep l.reverse).map fun p => (p.2.reverse, p.1.reverse)

/-- What is left behind the beginning `front`. -/
def stripFront : List α → List α → Option (List α)
  | [], l => some l
  | _ :: _, [] => none
  | a :: front, b :: l => if a = b then stripFront front l else none

theorem splitOnce_append {sep : α} {l r : List α} (h : sep ∉ l) :
    splitOnce sep (l ++ sep :: r) = some (l, r) := by
  induction l with
  | nil => simp [splitOnce]
  | cons a l ih =>
    obtain ⟨hne, hl⟩ := not_or.mp (mt List.mem_cons.mpr h)
    rw [cons_append, splitOnce, if_neg (fun he => hne he.symm), ih hl]
    rfl

theorem rsplitOnce_append {sep : α} {l r : List α} (h : sep ∉ r) :
    rsplitOnce sep (l ++ sep :: r) = some (l, r) := by
  have hr : (l ++ sep :: r).reverse = r.reverse ++ sep :: l.reverse := by simp
  rw [rsplitOnce, hr, splitOnce_append (by simpa using h)]
  simp

/-- A cut puts the list back together, and its first piece is free of the separator. -/
theorem eq_of_splitOnce {sep : α} {l a b : List α} (h : splitOnce sep l = some (a, b)) :
    l = a ++ sep :: b ∧ sep ∉ a := by
  induction l generalizing a with
  | nil => simp [splitOnce] at h
  | cons c l ih =>
    rw [splitOnce] at h
    split at h
    · rename_i hc
      obtain ⟨rfl, rfl⟩ : [] = a ∧ l = b := by simpa using h
      exact ⟨by rw [hc]; rfl, by simp⟩
    · rename_i hc
      obtain ⟨⟨a', b'⟩, hp, he⟩ := Option.map_eq_some_iff.mp h
      obtain ⟨rfl, rfl⟩ : c :: a' = a ∧ b' = b := by simpa using he
      obtain ⟨hl, hn⟩ := ih hp
      exact ⟨by rw [hl]; rfl, by simpa [hn] using fun e => hc e.symm⟩

theorem eq_of_rsplitOnce {sep : α} {l a b : List α} (h : rsplitOnce sep l = some (a, b)) :
    l = a ++ sep :: b ∧ sep ∉ b := by
  obtain ⟨⟨p, q⟩, hp, he⟩ := Option.map_eq_some_iff.mp h
  obtain ⟨rfl, rfl⟩ : q.reverse = a ∧ p.reverse = b := by simpa using he
  obtain ⟨hl, hn⟩ := eq_of_splitOnce hp
  refine ⟨?_, by simpa using hn⟩
  have := congrArg List.reverse hl
  simpa using this

theorem stripFront_append (front l : List α) : stripFront front (front ++ l) = some l := by
  induction front with
  | nil => rfl
  | cons a front ih => rw [cons_append, stripFront, if_pos rfl, ih]

/-- Cut at the first place where `pat` stands, which goes. -/
def cutAt (pat : List α) : List α → Option (List α × List α)
  | [] => (stripFront pat []).map fun rest => ([], rest)
  | a :: l =>
    match stripFront pat (a :: l) with
    | some rest => some ([], rest)
    | none => (cutAt pat l).map fun p => (a :: p.1, p.2)

theorem eq_of_stripFront {front l rest : List α} (h : stripFront front l = some rest) :
    l = front ++ rest := by
  fun_induction stripFront front l with
  | case1 l => exact Option.some.inj h
  | case2 => cases h
  | case3 front b l ih => rw [ih h, cons_append]
  | case4 => cases h

theorem eq_of_cutAt {pat l a b : List α} (h : cutAt pat l = some (a, b)) : l = a ++ (pat ++ b) := by
  induction l generalizing a with
  | nil =>
    obtain ⟨rest, hr, he⟩ := Option.map_eq_some_iff.mp h
    obtain ⟨rfl, rfl⟩ : [] = a ∧ rest = b := by simpa using he
    rw [nil_append, eq_of_stripFront hr]
  | cons c l ih =>
    rw [cutAt] at h
    split at h
    · rename_i rest hr
      obtain ⟨rfl, rfl⟩ : [] = a ∧ rest = b := by simpa using h
      rw [nil_append, eq_of_stripFront hr]
    · obtain ⟨⟨a', b'⟩, hp, he⟩ := Option.map_eq_some_iff.mp h
      obtain ⟨rfl, rfl⟩ : c :: a' = a ∧ b' = b := by simpa using he
      rw [ih hp, cons_append]

/-- The cut is where the pattern's first character stands for the first time. -/
theorem cutAt_append {c : α} {pat l : List α} (h : c ∉ l) (rest : List α) :
    cutAt (c :: pat) (l ++ (c :: pat ++ rest)) = some (l, rest) := by
  induction l with
  | nil =>
    have := stripFront_append (c :: pat) rest
    rw [cons_append] at this
    rw [nil_append, cons_append, cutAt, this]
  | cons a l ih =>
    obtain ⟨hne, hl⟩ := not_or.mp (mt List.mem_cons.mpr h)
    rw [cons_append, cutAt, stripFront, if_neg hne, ih hl]
    rfl

/-- The lines of a text that a line break closes, and what stands behind the last break. -/
def closedLines : List Char → List (List Char) × List Char
  | [] => ([], [])
  | c :: rest =>
    if c = '\n' then ([] :: (closedLines rest).1, (closedLines rest).2)
    else
      match (closedLines rest).1 with
      | [] => ([], c :: (closedLines rest).2)
      | line :: more => ((c :: line) :: more, (closedLines rest).2)

/-- A line break may be `\r\n`. -/
def stripCr (line : List Char) : List Char :=
  if line.getLast? = some '\r' then line.dropLast else line

/-- `str::lines`. -/
def lines (text : List Char) : List (List Char) :=
  (closedLines text).1.map stripCr ++
    if (closedLines text).2 = [] then [] else [(closedLines text).2]

theorem closedLines_append {line : List Char} (h : '\n' ∉ line) (text : List Char) :
    closedLines (line ++ '\n' :: text) = (line :: (closedLines text).1, (closedLines text).2) := by
  induction line with
  | nil => simp [closedLines]
  | cons c line ih =>
    obtain ⟨hne, hl⟩ := not_or.mp (mt List.mem_cons.mpr h)
    rw [cons_append, closedLines, if_neg (fun he => hne he.symm), ih hl]

theorem stripCr_of_not_mem {line : List Char} (h : '\r' ∉ line) : stripCr line = line := by
  rw [stripCr, if_neg]
  intro he
  exact h (mem_of_getLast? he)

theorem closedLines_break (text rest : List Char) : closedLines (text ++ '\n' :: rest) =
    ((closedLines text).1 ++ (closedLines text).2 :: (closedLines rest).1,
      (closedLines rest).2) := by
  induction text with
  | nil => simp [closedLines]
  | cons c text ih =>
    rw [cons_append, closedLines, closedLines, ih]
    split
    · simp
    · cases (closedLines text).1 <;> simp

section

variable {line : List Char} (h : '\n' ∉ line)
include h

theorem closedLines_of_not_mem : closedLines line = ([], line) := by
  induction line with
  | nil => rfl
  | cons c line ih =>
    obtain ⟨hne, hl⟩ := not_or.mp (mt List.mem_cons.mpr h)
    rw [closedLines, if_neg (fun he => hne he.symm), ih hl]

theorem lines_of_not_mem (hne : line ≠ []) : lines line = [line] := by
  rw [lines, closedLines_of_not_mem h]
  simp [hne]

theorem lines_line (rest : List Char) :
    lines (line ++ '\n' :: rest) = stripCr line :: lines rest := by
  rw [lines, closedLines_append h, lines]
  simp

end

theorem closedLines_not_mem (text : List Char) :
    (∀ line ∈ (closedLines text).1, '\n' ∉ line) ∧ '\n' ∉ (closedLines text).2 := by
  induction text with
  | nil => simp [closedLines]
  | cons c text ih =>
    rw [closedLines]
    split
    · exact ⟨List.forall_mem_cons.mpr ⟨by simp, ih.1⟩, ih.2⟩
    · rename_i hc
      cases h : (closedLines text).1 with
      | nil => exact ⟨by simp, by simpa using ⟨fun he => hc he.symm, ih.2⟩⟩
      | cons line more =>
        rw [h] at ih
        obtain ⟨hline, hmore⟩ := List.forall_mem_cons.mp ih.1
        refine ⟨List.forall_mem_cons.mpr ⟨?_, hmore⟩, ih.2⟩
        simpa using ⟨fun he => hc he.symm, hline⟩

theorem stripCr_sublist (line : List Char) : (stripCr line).Sublist line := by
  rw [stripCr]
  split
  · exact dropLast_sublist _
  · exact List.Sublist.refl _

theorem stripCr_eq_self_iff {line : List Char} :
    stripCr line = line ↔ line.getLast? ≠ some '\r' := by
  rw [stripCr]
  split
  · rename_i h
    simp only [h, ne_eq, not_true_eq_false, iff_false]
    intro he
    have hlen := congrArg List.length he
    have hpos : 0 < line.length := length_pos_of_mem (mem_of_getLast? h)
    rw [length_dropLast] at hlen
    omega
  · rename_i h
    simp [h]

theorem mem_lines {text line : List Char} (h : line ∈ lines text) : '\n' ∉ line := by
  intro hn
  rcases List.mem_append.mp h with h | h
  · obtain ⟨l, hl, rfl⟩ := List.mem_map.mp h
    exact (closedLines_not_mem text).1 l hl ((stripCr_sublist l).subset hn)
  · split at h
    · cases h
    · rw [List.mem_singleton.mp h] at hn
      exact (closedLines_not_mem text).2 hn

/-- A text that ends in the middle of a line ends as its last line does. -/
theorem closedLines_getLast? {c : Char} (hc : c ≠ '\n') (text : List Char)
    (h : text.getLast? = some c) : (closedLines text).2.getLast? = some c := by
  induction text with
  | nil => cases h
  | cons d text ih =>
    rw [closedLines]
    cases text with
    | nil =>
      simp only [getLast?_singleton, Option.some.injEq] at h
      subst h
      simp [hc, closedLines]
    | cons e text =>
      have hrest := ih h
      have hne : (closedLines (e :: text)).2 ≠ [] := by
        intro hnil
        rw [hnil] at hrest
        cases hrest
      split
      · exact hrest
      · cases (closedLines (e :: text)).1 with
        | nil =>
          rw [getLast?_cons_of_ne_nil hne]
          exact hrest
        | cons line more => exact hrest

theorem lines_break {c : Char} {text : List Char} (hlast : text.getLast? = some c)
    (hn : c ≠ '\n') (hr : c ≠ '\r') (rest : List Char) :
    lines (text ++ '\n' :: rest) = lines text ++ lines rest := by
  have hopen := closedLines_getLast? hn text hlast
  have hne : (closedLines text).2 ≠ [] := by
    intro hnil
    rw [hnil] at hopen
    cases hopen
  have hstrip : stripCr (closedLines text).2 = (closedLines text).2 := by
    rw [stripCr_eq_self_iff, hopen]
    simpa using hr
  rw [lines, closedLines_break, lines, lines, if_neg hne]
  simp [hstrip]

/-- Joined lines are read back, but for what counts as a part of the break. -/
theorem lines_intercalate {ls : List (List Char)} (hne : ls ≠ []) (h : ∀ l ∈ ls, '\n' ∉ l)
    (rest : List Char) :
    lines (['\n'].intercalate ls ++ '\n' :: rest) = ls.map stripCr ++ lines rest := by
  induction ls with
  | nil => exact absurd rfl hne
  | cons l ls ih =>
    obtain ⟨hl, hls⟩ := List.forall_mem_cons.mp h
    cases ls with
    | nil => simpa using lines_line hl rest
    | cons l' ls =>
      rw [intercalate_cons_cons, append_assoc, append_assoc,
        singleton_append, lines_line hl, ih (cons_ne_nil _ _) hls]
      rfl

theorem lines_flatMap {ls : List (List Char)} (h : ∀ l ∈ ls, '\n' ∉ l ∧ '\r' ∉ l) :
    lines (ls.flatMap fun l => l ++ ['\n']) = ls := by
  have key : closedLines (ls.flatMap fun l => l ++ ['\n']) = (ls, []) := by
    induction ls with
    | nil => rfl
    | cons l ls ih =>
      rw [flatMap_cons, append_assoc, singleton_append,
        closedLines_append (h l (mem_cons_self ..)).1,
        ih fun l' hl' => h l' (mem_cons_of_mem _ hl')]
  rw [lines, key]
  have hmap : ls.map stripCr = ls := by
    conv_rhs => rw [← map_id ls]
    exact map_congr_left fun l hl => stripCr_of_not_mem (h l hl).2
  simp [hmap]

/-! ## Paragraphs -/

def onFirst (front : List Char) : List (List Char) → List (List Char)
  | [] => [front]
  | part :: parts => (front ++ part) :: parts

/-- `split("\n\n")`: the parts of a text between its blank lines, from the front. -/
def paragraphs : List Char → List (List Char)
  | [] => [[]]
  | [c] => [[c]]
  | c :: d :: rest =>
    if c = '\n' ∧ d = '\n' then [] :: paragraphs rest
    else onFirst [c] (paragraphs (d :: rest))

theorem onFirst_ne_nil (front : List Char) (parts : List (List Char)) :
    onFirst front parts ≠ [] := by
  cases parts <;> simp [onFirst]

theorem onFirst_onFirst (a b : List Char) (parts : List (List Char)) :
    onFirst a (onFirst b parts) = onFirst (a ++ b) parts := by
  cases parts <;> simp [onFirst]

theorem onFirst_append (front : List Char) {parts : List (List Char)} (h : parts ≠ [])
    (more : List (List Char)) : onFirst front parts ++ more = onFirst front (parts ++ more) := by
  cases parts with
  | nil => exact absurd rfl h
  | cons part parts => rfl

theorem paragraphs_ne_nil (text : List Char) : paragraphs text ≠ [] := by
  fun_cases paragraphs text
  · simp
  · simp
  · simp
  · exact onFirst_ne_nil _ _

theorem intercalate_onFirst (sep front : List Char) {parts : List (List Char)} (h : parts ≠ []) :
    sep.intercalate (onFirst front parts) = front ++ sep.intercalate parts := by
  cases parts with
  | nil => exact absurd rfl h
  | cons part parts => cases parts <;> simp [onFirst, intercalate_cons_cons]

theorem intercalate_paragraphs (text : List Char) :
    ['\n', '\n'].intercalate (paragraphs text) = text := by
  fun_induction paragraphs text with
  | case1 => rfl
  | case2 c => rfl
  | case3 c d rest h ih =>
    obtain ⟨rfl, rfl⟩ := h
    obtain ⟨part, parts, hp⟩ := exists_cons_of_ne_nil (paragraphs_ne_nil rest)
    rw [hp] at ih ⊢
    rw [intercalate_cons_cons, ih]
    rfl
  | case4 c d rest h ih =>
    rw [intercalate_onFirst _ _ (paragraphs_ne_nil _), ih]
    rfl

theorem paragraphs_cons {c : Char} (hc : c ≠ '\n') (text : List Char) :
    paragraphs (c :: text) = onFirst [c] (paragraphs text) := by
  cases text with
  | nil => rfl
  | cons d text => rw [paragraphs, if_neg fun h => hc h.1]

theorem paragraphs_front {front : List Char} (h : '\n' ∉ front) (text : List Char) :
    paragraphs (front ++ text) = onFirst front (paragraphs text) := by
  induction front with
  | nil =>
    obtain ⟨part, parts, hp⟩ := exists_cons_of_ne_nil (paragraphs_ne_nil text)
    rw [nil_append, hp]
    rfl
  | cons c front ih =>
    obtain ⟨hc, hf⟩ := not_or.mp (mt List.mem_cons.mpr h)
    rw [cons_append, paragraphs_cons (Ne.symm hc), ih hf, onFirst_onFirst]
    rfl

/-- **A blank line behind a text that does not end in a line break** separates the
paragraphs. -/
theorem paragraphs_append {text : List Char} (h : text.getLast? ≠ some '\n') (more : List Char) :
    paragraphs (text ++ '\n' :: '\n' :: more) = paragraphs text ++ paragraphs more := by
  fun_induction paragraphs text with
  | case1 => simp [paragraphs]
  | case2 c =>
    have hc : c ≠ '\n' := by simpa using h
    rw [singleton_append, paragraphs_cons hc, paragraphs, if_pos ⟨rfl, rfl⟩]
    rfl
  | case3 c d rest hcd ih =>
    obtain ⟨rfl, rfl⟩ := hcd
    have hrest : rest.getLast? ≠ some '\n' := by
      cases rest with
      | nil => simp at h
      | cons e rest => simpa [getLast?_cons_cons] using h
    rw [cons_append, cons_append, paragraphs, if_pos ⟨rfl, rfl⟩, ih hrest]
    rfl
  | case4 c d rest hcd ih =>
    have := ih h
    rw [cons_append] at this
    rw [cons_append, cons_append, paragraphs, if_neg hcd, this,
      onFirst_append _ (paragraphs_ne_nil _)]

theorem paragraphs_intercalate {texts : List (List Char)} (hne : texts ≠ [])
    (h : ∀ text ∈ texts, text.getLast? ≠ some '\n') :
    paragraphs (['\n', '\n'].intercalate texts) = texts.flatMap paragraphs := by
  induction texts with
  | nil => exact absurd rfl hne
  | cons text texts ih =>
    cases texts with
    | nil => simp
    | cons next texts =>
      rw [intercalate_cons_cons, append_assoc, flatMap_cons,
        ← ih (by simp) fun t ht => h t (mem_cons_of_mem _ ht)]
      exact paragraphs_append (h text (mem_cons_self ..)) _

/-! ## Parts compared by their lengths -/

theorem length_intercalate_le {β : Type} (sep : List β) {as bs : List (List β)}
    (h : List.Forall₂ (fun a b => a.length ≤ b.length) as bs) :
    (sep.intercalate as).length ≤ (sep.intercalate bs).length := by
  induction h with
  | nil => simp
  | cons hab hrest ih =>
    cases hrest with
    | nil => simpa using hab
    | cons h₁ h₂ =>
      rw [intercalate_cons_cons, intercalate_cons_cons]
      simp only [length_append]
      omega

/-- **Parts that are not longer than their counterparts join to the same text only if they
are the same.** -/
theorem intercalate_inj {β : Type} {sep : List β} {as bs : List (List β)}
    (h : List.Forall₂ (fun a b => a.length ≤ b.length) as bs) :
    sep.intercalate as = sep.intercalate bs ↔ as = bs := by
  refine ⟨fun he => ?_, fun he => by rw [he]⟩
  induction h with
  | nil => rfl
  | cons hab hrest ih =>
    cases hrest with
    | nil => simpa using he
    | cons h₁ h₂ =>
      rw [intercalate_cons_cons, intercalate_cons_cons, append_assoc, append_assoc] at he
      have hlen := congrArg List.length he
      have hle := length_intercalate_le sep (.cons h₁ h₂)
      simp only [length_append] at hlen
      obtain ⟨ha, hr⟩ := append_inj he (by omega)
      rw [ha, ih (append_cancel_left hr)]

theorem flatMap_inj {β γ : Type} {f g : γ → List β} {l : List γ}
    (h : ∀ b ∈ l, (f b).length = (g b).length) :
    l.flatMap f = l.flatMap g ↔ ∀ b ∈ l, f b = g b := by
  induction l with
  | nil => simp
  | cons b l ih =>
    obtain ⟨hb, hl⟩ := List.forall_mem_cons.mp h
    rw [flatMap_cons, flatMap_cons, forall_mem_cons, ← ih hl]
    exact ⟨fun he => append_inj he hb, fun he => by rw [he.1, he.2]⟩

/-! ## Numerals -/

/-- An unsigned numeral below `bound`; a plus sign may stand in front. -/
def parseBelow (bound : Nat) (t : List Char) : Option Nat :=
  let digits := (stripFront ['+'] t).getD t
  if digits ≠ [] ∧ digits.all Char.isDigit ∧ Nat.ofDigitChars 10 digits 0 < bound then
    some (Nat.ofDigitChars 10 digits 0)
  else none

theorem lt_of_parseBelow {bound n : Nat} {t : List Char} (h : parseBelow bound t = some n) :
    n < bound := by
  simp only [parseBelow] at h
  split at h
  · rename_i hd
    rw [← Option.some.inj h]
    exact hd.2.2
  · simp at h

theorem not_mem_toDigits {c : Char} (hc : c.isDigit = false) (n : Nat) : c ∉ Nat.toDigits 10 n := by
  intro h
  have := Nat.isDigit_of_mem_toDigits (by decide) (by decide) h
  rw [hc] at this
  simp at this

/-- **A printed number is read back.** -/
theorem parseBelow_toDigits {bound n : Nat} (h : n < bound) :
    parseBelow bound (Nat.toDigits 10 n) = some n := by
  have hdigit : ∀ c ∈ Nat.toDigits 10 n, c.isDigit := fun c hc =>
    Nat.isDigit_of_mem_toDigits (by decide) (by decide) hc
  have hplus : stripFront ['+'] (Nat.toDigits 10 n) = none := by
    cases hd : Nat.toDigits 10 n with
    | nil => rfl
    | cons c rest =>
      have hc := hdigit c (by rw [hd]; exact mem_cons_self ..)
      rw [stripFront, if_neg]
      rintro rfl
      simp at hc
  rw [parseBelow, hplus]
  simp only [Option.getD_none, Nat.ofDigitChars_ten_toDigits]
  rw [if_pos ⟨Nat.toDigits_ne_nil, by simpa using hdigit, h⟩]

instance lawfulBEqText : LawfulBEq (List Char) := inferInstance

/-- `str::trim`: the characters of Unicode's `White_Space` go at both ends. -/
def isSpace (c : Char) : Bool :=
  (0x9 ≤ c.toNat ∧ c.toNat ≤ 0xD) ∨ (0x2000 ≤ c.toNat ∧ c.toNat ≤ 0x200A) ∨
    c.toNat ∈ [0x20, 0x85, 0xA0, 0x1680, 0x2028, 0x2029, 0x202F, 0x205F, 0x3000]

/-- `str::trim_start`. -/
def trimStart (t : List Char) : List Char := t.dropWhile isSpace

/-- `str::trim_end`. -/
def trimEnd (t : List Char) : List Char := t.rdropWhile isSpace

def trim (t : List Char) : List Char := (t.dropWhile isSpace).rdropWhile isSpace

theorem trimEnd_append (t : List Char) :
    ∃ space, t = trimEnd t ++ space ∧ ∀ c ∈ space, isSpace c = true := by
  refine ⟨t.rtakeWhile isSpace, List.rdropWhile_append_rtakeWhile.symm, ?_⟩
  intro c hc
  exact mem_rtakeWhile_imp hc

theorem trimEnd_getLast? {t : List Char} (h : trimEnd t ≠ []) :
    ∃ c, (trimEnd t).getLast? = some c ∧ isSpace c = false := by
  refine ⟨(trimEnd t).getLast h, getLast?_eq_some_getLast h, ?_⟩
  exact Bool.eq_false_iff.mpr (rdropWhile_last_not _ _ h)

theorem trimEnd_eq_self {t : List Char} {c : Char} (hlast : t.getLast? = some c)
    (hc : isSpace c = false) : trimEnd t = t := by
  rw [trimEnd, rdropWhile_eq_self_iff]
  intro hl
  rw [getLast?_eq_some_getLast hl, Option.some.injEq] at hlast
  rw [hlast, hc]
  exact Bool.false_ne_true

theorem trim_of_forall {t : List Char} (h : ∀ c ∈ t, isSpace c = false) : trim t = t := by
  rw [trim, List.dropWhile_eq_self_iff.mpr, List.rdropWhile_eq_self_iff.mpr]
  · intro hl
    simp [h _ (getLast_mem hl)]
  · intro hl
    simp [h _ (getElem_mem hl)]

theorem isSpace_of_isDigit {c : Char} (h : c.isDigit = true) : isSpace c = false := by
  simp only [Char.isDigit, Bool.and_eq_true, decide_eq_true_eq] at h
  have hl : 48 ≤ c.toNat := h.1
  have hu : c.toNat ≤ 57 := h.2
  simp only [isSpace, decide_eq_false_iff_not, mem_cons, not_mem_nil, or_false]
  omega

end SpkEditor.Cut
