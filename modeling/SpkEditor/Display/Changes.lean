import SpkEditor.Lib.Utf8
import SpkEditor.Text.Compose

/-!
# Exact edits of a text

`Changes`: the edits from an old text to a new one, with their offsets in bytes. A position that no edit
touches, not even at its ends, has an image in the new text (`Patch.imageFrom`), which no edit touches
either, and no two positions have the same one.
-/

namespace SpkEditor

open Patch (imageFrom)

/-- The edits from one text to another, from the offsets `o` and `n` on. -/
inductive Changes : Nat → Nat → List Edit → List Char → List Char → Prop
  | same {o n : Nat} (text : List Char) : Changes o n [] text text
  | edit {o n : Nat} {edits : List Edit} {old new : List Char} (kept deleted inserted : List Char) :
      Changes (o + byteLen kept + byteLen deleted) (n + byteLen kept + byteLen inserted) edits old new →
      Changes o n (⟨⟨o + byteLen kept, o + byteLen kept + byteLen deleted⟩,
          ⟨n + byteLen kept, n + byteLen kept + byteLen inserted⟩⟩ :: edits)
        (kept ++ (deleted ++ old)) (kept ++ (inserted ++ new))

/-- **Exact, sorted and separated edits** from one text to another. -/
structure ExactEdits (edits : List Edit) (old new : List Char) : Prop where
  changes : Changes 0 0 edits old new
  separated : Patch.Separated edits

/-- No edit touches a position of the old text. -/
def Untouched (edits : List Edit) (x : Nat) : Prop := ∀ e ∈ edits, x < e.old.start ∨ e.old.stop < x

theorem untouched_cons {e : Edit} {edits : List Edit} {x : Nat} :
    Untouched (e :: edits) x ↔ (x < e.old.start ∨ e.old.stop < x) ∧ Untouched edits x :=
  List.forall_mem_cons

namespace Changes

variable {o n : Nat} {edits : List Edit} {old new : List Char}

theorem le (h : Changes o n edits old new) :
    ∀ e ∈ edits, o ≤ e.old.start ∧ e.old.start ≤ e.old.stop ∧ n ≤ e.new.start ∧ e.new.start ≤ e.new.stop := by
  induction h with
  | same text => simp
  | edit kept deleted inserted _ ih =>
    intro e he
    rcases List.mem_cons.mp he with rfl | he
    · simp only
      omega
    · have := ih e he
      omega

theorem eq_of_nil (h : Changes o n [] old new) : old = new := by
  cases h
  rfl

theorem image_untouched (h : Changes o n edits old new) {x : Nat} (hx : o ≤ x) (hu : Untouched edits x) :
    n ≤ imageFrom o n edits x ∧ (o < x → n < imageFrom o n edits x) ∧
      ∀ e ∈ edits, imageFrom o n edits x < e.new.start ∨ e.new.stop < imageFrom o n edits x := by
  induction h with
  | same text =>
    rw [imageFrom]
    exact ⟨by omega, fun _ => by omega, by simp⟩
  | @edit o n edits old new kept deleted inserted hrest ih =>
    obtain ⟨hfirst, hu⟩ := untouched_cons.mp hu
    simp only at hfirst
    rw [imageFrom]
    by_cases hlt : x < o + byteLen kept
    · rw [if_pos hlt]
      refine ⟨by omega, fun _ => by omega, ?_⟩
      intro e he
      rcases List.mem_cons.mp he with rfl | he
      · exact .inl (by simp only; omega)
      · have := hrest.le e he
        exact .inl (by omega)
    · rw [if_neg hlt, if_neg (by simp only; omega)]
      obtain ⟨h1, h2, h3⟩ := ih (by omega) hu
      simp only
      refine ⟨by omega, fun _ => by omega, ?_⟩
      intro e he
      rcases List.mem_cons.mp he with rfl | he
      · exact .inr (by simp only; omega)
      · exact h3 e he

theorem image_inj (h : Changes o n edits old new) {x y : Nat} (hx : o ≤ x) (hy : o ≤ y)
    (hux : Untouched edits x) (huy : Untouched edits y)
    (heq : imageFrom o n edits x = imageFrom o n edits y) : x = y := by
  induction h with
  | same text =>
    rw [imageFrom, imageFrom] at heq
    omega
  | @edit o n edits old new kept deleted inserted hrest ih =>
    obtain ⟨hfx, hux⟩ := untouched_cons.mp hux
    obtain ⟨hfy, huy⟩ := untouched_cons.mp huy
    simp only at hfx hfy
    rw [imageFrom, imageFrom] at heq
    by_cases hxlt : x < o + byteLen kept <;> by_cases hylt : y < o + byteLen kept
    · rw [if_pos hxlt, if_pos hylt] at heq
      omega
    · have := (hrest.image_untouched (by omega : _ ≤ y) huy).2.1 (by omega)
      rw [if_pos hxlt, if_neg hylt, if_neg (by simp only; omega)] at heq
      simp only at heq
      omega
    · have := (hrest.image_untouched (by omega : _ ≤ x) hux).2.1 (by omega)
      rw [if_neg hxlt, if_pos hylt, if_neg (by simp only; omega)] at heq
      simp only at heq
      omega
    · rw [if_neg hxlt, if_neg hylt, if_neg (by simp only; omega), if_neg (by simp only; omega)] at heq
      exact ih (by omega) (by omega) hux huy heq

end Changes

/-! ## Edits that change nothing -/

/-- An edit that replaces nothing by nothing. -/
def pointEdit (offset : Nat) : Edit := ⟨⟨offset, offset⟩, ⟨offset, offset⟩⟩

section

variable {offsets : List Nat}

theorem changes_points (hsorted : offsets.Pairwise (· < ·)) {o : Nat}
    {text : List Char} (hin : ∀ x ∈ offsets, ∃ s t, text = s ++ t ∧ x = o + byteLen s) :
    Changes o o (offsets.map pointEdit) text text := by
  induction offsets generalizing o text with
  | nil => exact .same text
  | cons x offsets ih =>
    obtain ⟨hx, hoffsets⟩ := List.pairwise_cons.mp hsorted
    obtain ⟨s, t, rfl, rfl⟩ := hin x (by simp)
    have hrest : Changes (o + byteLen s) (o + byteLen s) (offsets.map pointEdit) t t := by
      refine ih hoffsets fun y hy => ?_
      obtain ⟨s', t', heq, rfl⟩ := hin y (by simp [hy])
      have := hx _ hy
      obtain ⟨r, rfl, rfl⟩ := exists_append_of_byteLen_le heq (by omega)
      exact ⟨r, t', rfl, by rw [byteLen_append, Nat.add_assoc]⟩
    exact .edit s [] [] hrest

theorem separated_points (hsorted : offsets.Pairwise (· < ·)) :
    Patch.Separated (offsets.map pointEdit) := by
  rw [Patch.Separated, List.isChain_map]
  exact hsorted.isChain.imp fun _ _ h => ⟨h, h⟩

theorem untouched_points {x : Nat} : Untouched (offsets.map pointEdit) x ↔ x ∉ offsets := by
  rw [Untouched, List.forall_mem_map]
  simp only [pointEdit]
  constructor
  · intro h hx
    have := h x hx
    omega
  · intro h y hy
    have : y ≠ x := fun heq => h (heq ▸ hy)
    omega

theorem imageFrom_points {o x : Nat} (ho : o ≤ x) (hx : x ∉ offsets) :
    imageFrom o o (offsets.map pointEdit) x = x := by
  induction offsets generalizing o with
  | nil =>
    rw [List.map_nil, imageFrom]
    omega
  | cons y offsets ih =>
    rw [List.map_cons, pointEdit, imageFrom]
    by_cases hlt : x < y
    · rw [if_pos hlt]
      omega
    · rw [if_neg hlt, if_neg hlt]
      exact ih (by simp only; omega) fun h => hx (List.mem_cons_of_mem y h)

end

end SpkEditor
