import SpkEditor.Display.Changes
import SpkEditor.Display.InlayMap

/-!
# Texts with inlays

What an inlay map is for, without transforms: a text with inlays is a list of tokens, characters and
inlays, and `full` puts the inlays of every offset in front of the character there. How a text is cut
shows in the tokens (`full_append`, `after_append`), and they only depend on the inlays inside it.

A list of transforms is a list of tokens in which the characters between two inlays are joined
(`Block`).
-/

namespace SpkEditor.Inlays

open Chunked (strSlice strSlice_append)

variable {Anchor : Type} {inlays : List (Inlay Anchor)} {off : Inlay Anchor → Nat} {text : List Char} {o : Nat}

abbrev Token (Anchor : Type) := Char ⊕ Inlay Anchor

/-- The text of the buffer. -/
def charsOf (ts : List (Token Anchor)) : List Char := ts.filterMap Sum.getLeft?

def inlaysOf (ts : List (Token Anchor)) : List (Inlay Anchor) := ts.filterMap Sum.getRight?

/-- The text of the snapshot. -/
def outOf (ts : List (Token Anchor)) : List Char := ts.flatMap (Sum.elim (fun c => [c]) Inlay.text)

def ofChars (text : List Char) : List (Token Anchor) := text.map .inl

section

variable (s t : List (Token Anchor))

@[simp] theorem charsOf_append : charsOf (s ++ t) = charsOf s ++ charsOf t :=
  List.filterMap_append

@[simp] theorem inlaysOf_append :
    inlaysOf (s ++ t) = inlaysOf s ++ inlaysOf t :=
  List.filterMap_append

@[simp] theorem outOf_append : outOf (s ++ t) = outOf s ++ outOf t :=
  List.flatMap_append

end

@[simp] theorem charsOf_inlay (i : Inlay Anchor) : charsOf [.inr i] = [] := rfl

@[simp] theorem inlaysOf_inlay (i : Inlay Anchor) : inlaysOf [.inr i] = [i] := rfl

@[simp] theorem outOf_inlay (i : Inlay Anchor) : outOf [.inr i] = i.text := List.append_nil _

@[simp] theorem charsOf_ofChars (text : List Char) : charsOf (ofChars text : List (Token Anchor)) = text := by
  induction text with
  | nil => rfl
  | cons c text ih => exact congrArg (c :: ·) ih

@[simp] theorem inlaysOf_ofChars (text : List Char) : inlaysOf (ofChars text : List (Token Anchor)) = [] := by
  induction text with
  | nil => rfl
  | cons c text ih => exact ih

@[simp] theorem outOf_ofChars (text : List Char) : outOf (ofChars text : List (Token Anchor)) = text := by
  induction text with
  | nil => rfl
  | cons c text ih => exact congrArg (c :: ·) ih

@[simp] theorem ofChars_append (s t : List Char) :
    (ofChars (s ++ t) : List (Token Anchor)) = ofChars s ++ ofChars t :=
  List.map_append

@[simp] theorem ofChars_nil : (ofChars [] : List (Token Anchor)) = [] := rfl

@[simp] theorem ofChars_eq_nil : (ofChars text : List (Token Anchor)) = [] ↔ text = [] :=
  List.map_eq_nil_iff

/-! ## Weaving inlays into a text -/

section

variable (ats : Nat → List (Inlay Anchor))

/-- The inlays at an offset. -/
def before (o : Nat) : List (Token Anchor) := (ats o).map .inr

/-- A text from an offset on, with the inlays in front of its characters. -/
def woven : Nat → List Char → List (Token Anchor)
  | _, [] => []
  | o, c :: text => before ats o ++ .inl c :: woven (o + c.utf8Size) text

/-- The same, with the inlays strictly inside the text only. -/
def inner (o : Nat) : List Char → List (Token Anchor)
  | [] => []
  | c :: text => .inl c :: woven ats (o + c.utf8Size) text

/-- With the inlays behind the start of the text. -/
def after (o : Nat) (text : List Char) : List (Token Anchor) :=
  if text = [] then [] else inner ats o text ++ before ats (o + byteLen text)

/-- With all of them. -/
def full (o : Nat) (text : List Char) : List (Token Anchor) := before ats o ++ after ats o text

variable {ats}

@[simp] theorem after_nil (o : Nat) : after ats o [] = [] := rfl

theorem woven_append (o : Nat) (s t : List Char) :
    woven ats o (s ++ t) = woven ats o s ++ woven ats (o + byteLen s) t := by
  induction s generalizing o with
  | nil => rfl
  | cons c s ih =>
    rw [List.cons_append, woven, woven, ih, byteLen_cons, List.append_assoc, List.cons_append,
      Nat.add_assoc]

theorem woven_eq (h : text ≠ []) : woven ats o text = before ats o ++ inner ats o text := by
  cases text with
  | nil => exact absurd rfl h
  | cons c text => rfl

theorem inner_append {s : List Char} (h : s ≠ []) (t : List Char) :
    inner ats o (s ++ t) = inner ats o s ++ woven ats (o + byteLen s) t := by
  cases s with
  | nil => exact absurd rfl h
  | cons c s => rw [List.cons_append, inner, inner, woven_append, byteLen_cons, Nat.add_assoc]; rfl

/-- A text behind another one starts with the inlays where it is cut. -/
theorem after_append {s : List Char} (h : s ≠ []) (t : List Char) :
    after ats o (s ++ t) = inner ats o s ++ full ats (o + byteLen s) t := by
  have hne : s ++ t ≠ [] := fun heq => h (List.append_eq_nil_iff.mp heq).1
  rw [after, if_neg hne, inner_append h, byteLen_append, full, after]
  by_cases ht : t = []
  · subst ht
    simp [woven]
  · rw [if_neg ht, woven_eq ht, List.append_assoc, List.append_assoc, Nat.add_assoc]

theorem full_append (o : Nat) (s t : List Char) :
    full ats o (s ++ t) = full ats o s ++ after ats (o + byteLen s) t := by
  by_cases hs : s = []
  · subst hs
    simp [full]
  · have hafter : after ats o s = inner ats o s ++ before ats (o + byteLen s) := if_neg hs
    rw [full, after_append hs, full, full, hafter]
    simp

theorem full_eq_woven (o : Nat) (s t : List Char) :
    full ats o (s ++ t) = woven ats o s ++ full ats (o + byteLen s) t := by
  by_cases h : s = []
  · subst h
    rfl
  · rw [full, after_append h, woven_eq h, List.append_assoc]

@[simp] theorem charsOf_before (o : Nat) : charsOf (before ats o) = [] := by
  simp [charsOf, before, List.filterMap_map]

section

variable (o : Nat) (text : List Char)

theorem charsOf_woven : charsOf (woven ats o text) = text := by
  induction text generalizing o with
  | nil => rfl
  | cons c text ih =>
    rw [woven, charsOf_append, charsOf_before, List.nil_append]
    exact congrArg (c :: ·) (ih _)

@[simp] theorem charsOf_inner : charsOf (inner ats o text) = text := by
  cases text with
  | nil => rfl
  | cons c text => exact congrArg (c :: ·) (charsOf_woven _ _)

@[simp] theorem charsOf_after : charsOf (after ats o text) = text := by
  rw [after]
  split
  · next h => rw [h]; rfl
  · simp

@[simp] theorem charsOf_full : charsOf (full ats o text) = text := by
  simp [full]

end

/-! Only the inlays inside count. -/

variable {ats' : Nat → List (Inlay Anchor)}

theorem woven_congr {o' : Nat}
    (h : ∀ k < byteLen text, ats (o + k) = ats' (o' + k)) : woven ats o text = woven ats' o' text := by
  induction text generalizing o o' with
  | nil => rfl
  | cons c text ih =>
    have hpos := c.utf8Size_pos
    have h0 := h 0 (by rw [byteLen_cons]; omega)
    rw [Nat.add_zero, Nat.add_zero] at h0
    rw [woven, woven, before, before, h0, ih]
    intro k hk
    rw [Nat.add_assoc, Nat.add_assoc]
    exact h _ (by rw [byteLen_cons]; omega)

theorem inner_congr {o' : Nat} (h : ∀ k, 0 < k → k < byteLen text → ats (o + k) = ats' (o' + k)) :
    inner ats o text = inner ats' o' text := by
  cases text with
  | nil => rfl
  | cons c text =>
    have hpos := c.utf8Size_pos
    refine congrArg _ (woven_congr fun k hk => ?_)
    rw [Nat.add_assoc, Nat.add_assoc]
    exact h _ (by omega) (by rw [byteLen_cons]; omega)

theorem after_congr {o' : Nat} (h : ∀ k, 0 < k → k ≤ byteLen text → ats (o + k) = ats' (o' + k)) :
    after ats o text = after ats' o' text := by
  rw [after, after]
  split
  · rfl
  · next hne =>
    rw [inner_congr fun k h0 hk => h k h0 (Nat.le_of_lt hk), before, before,
      h _ (byteLen_pos hne) (Nat.le_refl _)]

theorem full_congr {o' : Nat}
    (h : ∀ k ≤ byteLen text, ats (o + k) = ats' (o' + k)) : full ats o text = full ats' o' text := by
  have h0 := h 0 (Nat.zero_le _)
  rw [Nat.add_zero, Nat.add_zero] at h0
  rw [full, full, before, before, h0, after_congr fun k _ hk => h k hk]

end

/-! ## Sorted inlays -/

/-- The inlays of a list at an offset. -/
def atOf (off : Inlay Anchor → Nat) (inlays : List (Inlay Anchor)) (o : Nat) : List (Inlay Anchor) :=
  inlays.filter fun i => off i = o

section

variable (off : Inlay Anchor → Nat) (o : Nat) (text : List Char)

theorem woven_nil : woven (atOf off []) o text = ofChars text := by
  induction text generalizing o with
  | nil => rfl
  | cons c text ih => exact congrArg (Sum.inl c :: ·) (ih _)

theorem inner_nil : inner (atOf off []) o text = ofChars text := by
  cases text with
  | nil => rfl
  | cons c text => exact congrArg (Sum.inl c :: ·) (woven_nil off _ text)

theorem full_nil : full (atOf off []) o text = ofChars text := by
  have hbefore : ∀ o, before (atOf off []) o = [] := fun _ => rfl
  rw [full, after, hbefore, hbefore, inner_nil, List.nil_append, List.append_nil]
  split
  · next h => rw [h]; rfl
  · rfl

end

theorem atOf_eq_nil (h : ∀ i ∈ inlays, off i ≠ o) : atOf off inlays o = [] :=
  List.filter_eq_nil_iff.mpr fun i hi => by simpa using h i hi

theorem full_cons {i : Inlay Anchor}
    (hsorted : ∀ j ∈ inlays, off i ≤ off j) {s : List Char} (hi : off i = o + byteLen s)
    (t : List Char) :
    full (atOf off (i :: inlays)) o (s ++ t) =
      ofChars s ++ .inr i :: full (atOf off inlays) (off i) t := by
  have hge : ∀ j ∈ i :: inlays, off i ≤ off j := by
    intro j hj
    rcases List.mem_cons.mp hj with rfl | hj
    · exact Nat.le_refl _
    · exact hsorted j hj
  -- where the inlay is
  have hhere : full (atOf off (i :: inlays)) (off i) t = .inr i :: full (atOf off inlays) (off i) t := by
    have hfirst : atOf off (i :: inlays) (off i) = i :: atOf off inlays (off i) :=
      List.filter_cons_of_pos (by simp)
    have hrest : after (atOf off (i :: inlays)) (off i) t = after (atOf off inlays) (off i) t := by
      refine after_congr fun k hk _ => ?_
      exact List.filter_cons_of_neg (by simp; omega)
    rw [full, full, before, hfirst, hrest]
    rfl
  by_cases hs : s = []
  · subst hs
    rw [byteLen_nil, Nat.add_zero] at hi
    rw [← hi, List.nil_append, hhere]
    rfl
  · have hpos := byteLen_pos hs
    have hnone : before (atOf off (i :: inlays)) o = [] := by
      rw [before, atOf_eq_nil fun j hj => ?_]
      · rfl
      · have := hge j hj
        omega
    have hinner : inner (atOf off (i :: inlays)) o s = ofChars s := by
      rw [← inner_nil off o s]
      refine inner_congr fun k _ hk => ?_
      rw [atOf_eq_nil fun j hj => ?_]
      · rfl
      · have := hge j hj
        omega
    rw [full_eq_woven, woven_eq hs, hnone, hinner, ← hi, hhere]
    rfl

def InText (off : Inlay Anchor → Nat) (inlays : List (Inlay Anchor)) (o : Nat) (text : List Char) :
    Prop :=
  ∀ i ∈ inlays, ∃ s t, text = s ++ t ∧ off i = o + byteLen s

theorem InText.behind {p : Nat}
    {s t : List Char} (h : InText off inlays o (s ++ t)) (hp : p = o + byteLen s)
    (hge : ∀ j ∈ inlays, p ≤ off j) : InText off inlays p t := by
  intro j hj
  obtain ⟨s', t', heq, hoff⟩ := h j hj
  have := hge j hj
  obtain ⟨r, rfl, rfl⟩ := exists_append_of_byteLen_le heq (by omega)
  exact ⟨r, t', rfl, by rw [hoff, hp, byteLen_append, Nat.add_assoc]⟩

/-- Every inlay occurs once, in the order of the list. -/
theorem inlaysOf_full (hsorted : inlays.Pairwise fun i j => off i ≤ off j)
    (hin : InText off inlays o text) : inlaysOf (full (atOf off inlays) o text) = inlays := by
  induction inlays generalizing o text with
  | nil => rw [full_nil, inlaysOf_ofChars]
  | cons i inlays ih =>
    obtain ⟨hi, hsorted⟩ := List.pairwise_cons.mp hsorted
    obtain ⟨s, t, rfl, hoff⟩ := hin i (by simp)
    have hrest : InText off inlays (off i) t :=
      InText.behind (fun j hj => hin j (List.mem_cons_of_mem i hj)) hoff hi
    rw [full_cons hi hoff, inlaysOf_append, inlaysOf_ofChars, List.nil_append]
    exact congrArg (i :: ·) (ih hsorted hrest)

def Buffer.offsetOf (b : Buffer Anchor) (i : Inlay Anchor) : Nat := b.toOffset i.position

def Buffer.visible (b : Buffer Anchor) (inlays : List (Inlay Anchor)) : List (Inlay Anchor) :=
  inlays.filter fun i => b.isValid i.position

def Buffer.woven (b : Buffer Anchor) (inlays : List (Inlay Anchor)) : List (Token Anchor) :=
  full (atOf b.offsetOf (b.visible inlays)) 0 b.text

/-- A transform, with the text it stands for. -/
inductive Block (Anchor : Type) where
  | run (text : List Char)
  | inlay (inlay : Inlay Anchor)

namespace Block

def tokens : Block Anchor → List (Token Anchor)
  | .run text => ofChars text
  | .inlay i => [.inr i]

def transform : Block Anchor → Transform Anchor
  | .run text => .isomorphic (.ofText text)
  | .inlay i => .inlay i

def isRun : Block Anchor → Bool
  | .run _ => true
  | .inlay _ => false

end Block

def tokensOf (bs : List (Block Anchor)) : List (Token Anchor) := bs.flatMap Block.tokens

def transforms (bs : List (Block Anchor)) : List (Transform Anchor) := bs.map Block.transform

@[simp] theorem tokensOf_append (a b : List (Block Anchor)) : tokensOf (a ++ b) = tokensOf a ++ tokensOf b :=
  List.flatMap_append

@[simp] theorem tokensOf_nil : tokensOf ([] : List (Block Anchor)) = [] := rfl

@[simp] theorem tokensOf_cons (b : Block Anchor) (bs : List (Block Anchor)) :
    tokensOf (b :: bs) = b.tokens ++ tokensOf bs :=
  List.flatMap_cons

@[simp] theorem transforms_append (a b : List (Block Anchor)) :
    transforms (a ++ b) = transforms a ++ transforms b :=
  List.map_append

theorem len_input (b : Block Anchor) : b.transform.input.len = byteLen (charsOf b.tokens) := by
  cases b with
  | run text => simp [Block.transform, Transform.input, Block.tokens]
  | inlay i => rfl

theorem len_output (b : Block Anchor) : b.transform.output.len = byteLen (outOf b.tokens) := by
  cases b with
  | run text => simp [Block.transform, Transform.output, Block.tokens]
  | inlay i => simp [Block.transform, Transform.output, Block.tokens]

section

variable (bs : List (Block Anchor))

@[simp] theorem inputLen_transforms :
    inputLen (transforms bs) = byteLen (charsOf (tokensOf bs)) := by
  induction bs with
  | nil => rfl
  | cons b bs ih =>
    rw [tokensOf_cons, charsOf_append, byteLen_append, ← len_input, ← ih]
    exact List.sum_cons

@[simp] theorem outputLen_transforms :
    outputLen (transforms bs) = byteLen (outOf (tokensOf bs)) := by
  induction bs with
  | nil => rfl
  | cons b bs ih =>
    rw [tokensOf_cons, outOf_append, byteLen_append, ← len_output, ← ih]
    exact List.sum_cons

theorem inputSummary_transforms :
    inputSummary (transforms bs) = .ofText (charsOf (tokensOf bs)) := by
  induction bs using List.reverseRecOn with
  | nil => rfl
  | append_singleton bs b ih =>
    have hb : b.transform.input = .ofText (charsOf b.tokens) := by
      cases b with
      | run text => simp [Block.transform, Transform.input, Block.tokens]
      | inlay i => rfl
    rw [inputSummary] at ih ⊢
    rw [transforms_append, List.foldl_append, ih]
    change TextSummary.add _ b.transform.input = _
    rw [hb, ← TextSummary.ofText_append]
    simp

end

theorem chunks_transforms (s : List Char) (bs : List (Block Anchor)) (t : List Char) :
    chunks (s ++ charsOf (tokensOf bs) ++ t) (byteLen s) (transforms bs) = some (outOf (tokensOf bs)) := by
  induction bs generalizing s with
  | nil => rfl
  | cons b bs ih =>
    cases b with
    | run text =>
      have hrest := ih (s ++ text)
      have hslice := strSlice_append s text (charsOf (tokensOf bs) ++ t)
      rw [byteLen_append] at hrest hslice
      simp only [List.append_assoc] at hrest hslice
      simp only [tokensOf_cons, Block.tokens, charsOf_append, charsOf_ofChars, outOf_append,
        outOf_ofChars, List.append_assoc]
      change (do
        let chunk ← strSlice _ (byteLen s) (byteLen s + (TextSummary.ofText text).len)
        let rest ← chunks _ (byteLen s + (TextSummary.ofText text).len) (transforms bs)
        some (chunk ++ rest)) = _
      rw [TextSummary.len_ofText, hslice, hrest]
      rfl
    | inlay i =>
      have hrest := ih s
      simp only [tokensOf_cons, Block.tokens, charsOf_append, outOf_append]
      change (do
        let rest ← chunks (s ++ charsOf (tokensOf bs) ++ t) (byteLen s) (transforms bs)
        some (i.text ++ rest)) = _
      rw [hrest, outOf_inlay]
      rfl

end SpkEditor.Inlays
