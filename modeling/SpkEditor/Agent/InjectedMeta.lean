import SpkEditor.Agent.Queue
import SpkEditor.Lib.Cut
import Mathlib.Data.List.Forall2

/-!
# What the queue writes into a message, and what the view takes out

A queued message gets its time in front, a message that joins a bundle gets a blank line
before that, and a delivered bundle may get a line of its own on top. The view takes all
of it out again. It does not know where the messages begin: it cuts the text at every
blank line and drops a clock time in front of each part.

So a bundle comes back as the user typed it unless a text has a clock time of its own in
front of a later paragraph. That is the whole condition: in front of a first paragraph the
queue's own time stands, and a hint line inside a text is never on top.
-/

namespace SpkEditor

open Cut List

/-! ## The view's side -/

/-- `HH:MM:SS`, the test in `strip_one_timestamp`. -/
def isHms (stamp : List Char) : Bool :=
  stamp.length == 8 && stamp[2]? == some ':' && stamp[5]? == some ':' &&
    stamp.zipIdx.all fun p => p.2 == 2 || p.2 == 5 || p.1.isDigit

/-- `strip_one_timestamp`. -/
def stripOneTimestamp (segment : List Char) : List Char :=
  match stripFront TS_PREFIX_OPEN segment with
  | none => segment
  | some rest =>
    match cutAt TS_PREFIX_CLOSE rest with
    | none => segment
    | some (stamp, text) => if isHms stamp then text else segment

/-- `strip_injected_meta`. -/
def stripInjectedMeta (text : List Char) : List Char :=
  let body :=
    match stripFront QUEUE_HINT_LINE text with
    | some rest => rest.dropWhile (· == '\n')
    | none => text
  ['\n', '\n'].intercalate ((paragraphs body).map stripOneTimestamp)

section Preview

variable {M X : Type}

def Piece.textOf (piece : Piece M X) : List Char :=
  match piece.block with
  | .text text _ => text
  | _ => []

/-- The loop of `pending_blocks_preview`: an image beyond those that the texts label gets a
label. -/
def previewLoop (labelledInText : Nat) : List Char → Nat → List (Piece M X) → List Char
  | out, _, [] => out
  | out, imageOrdinal, p :: ps =>
    match p.block with
    | .text text _ => previewLoop labelledInText (out ++ text) imageOrdinal ps
    | .image .. =>
      previewLoop labelledInText (if labelledInText ≤ imageOrdinal then
          out ++ "[image #".toList ++ Nat.toDigits 10 (imageOrdinal + 1) ++ [']']
        else out)
        (imageOrdinal + 1) ps
    | _ => previewLoop labelledInText out imageOrdinal ps

/-- The text that `pending_blocks_preview` puts together. `placeholders` counts the
`[image #N]` in a text. -/
def assembledText (placeholders : List Char → Nat) (blocks : List (Piece M X)) : List Char :=
  previewLoop ((blocks.map fun p => if p.block.isText then placeholders p.textOf else 0).sum) [] 0
    blocks

end Preview

/-! ## A clock time in front -/

theorem isHms_eight {a b c d e f g h : Char} : isHms [a, b, c, d, e, f, g, h] ↔
      c = ':' ∧ f = ':' ∧ a.isDigit ∧ b.isDigit ∧ d.isDigit ∧ e.isDigit ∧ g.isDigit ∧ h.isDigit := by
  simp [isHms]
  tauto

theorem not_mem_of_isHms {stamp : List Char} (h : isHms stamp) {c : Char} (hc : c.isDigit = false)
    (hcolon : c ≠ ':') : c ∉ stamp := by
  simp only [isHms, Bool.and_eq_true, beq_iff_eq, all_eq_true] at h
  obtain ⟨⟨⟨hlen, h2⟩, h5⟩, hall⟩ := h
  intro hmem
  obtain ⟨i, hi, he⟩ := List.mem_iff_getElem.mp hmem
  have := hall (c, i) (by rw [mem_zipIdx_iff_getElem?, getElem?_eq_getElem hi, he])
  simp only [Bool.or_eq_true, beq_iff_eq, hc, Bool.false_eq_true, or_false] at this
  rw [List.getElem?_eq_some_iff] at h2 h5
  rcases this with rfl | rfl
  · exact hcolon (he.symm.trans h2.2)
  · exact hcolon (he.symm.trans h5.2)

def OpensWithClock (text : List Char) : Prop :=
  ∃ stamp rest, isHms stamp ∧ text = TS_PREFIX_OPEN ++ (stamp ++ (TS_PREFIX_CLOSE ++ rest))

theorem stripOneTimestamp_clock {stamp : List Char} (h : isHms stamp) (rest : List Char) :
    stripOneTimestamp (TS_PREFIX_OPEN ++ (stamp ++ (TS_PREFIX_CLOSE ++ rest))) = rest := by
  have hcut : cutAt TS_PREFIX_CLOSE (stamp ++ (TS_PREFIX_CLOSE ++ rest)) = some (stamp, rest) :=
    cutAt_append (not_mem_of_isHms h (by decide) (by decide)) rest
  rw [stripOneTimestamp, stripFront_append]
  simp only [hcut]
  rw [if_pos h]

theorem stripOneTimestamp_cases (text : List Char) :
    stripOneTimestamp text = text ∧ ¬ OpensWithClock text ∨
    (stripOneTimestamp text).length < text.length ∧ OpensWithClock text := by
  by_cases h : OpensWithClock text
  · obtain ⟨stamp, rest, hs, rfl⟩ := h
    refine .inr ⟨?_, stamp, rest, hs, rfl⟩
    rw [stripOneTimestamp_clock hs]
    simp [TS_PREFIX_OPEN]
    omega
  · refine .inl ⟨?_, h⟩
    rw [stripOneTimestamp]
    split
    · rfl
    · rename_i rest hopen
      split
      · rfl
      · rename_i stamp after hcut
        split
        · rename_i hs
          refine absurd ⟨stamp, after, hs, ?_⟩ h
          rw [eq_of_stripFront hopen, eq_of_cutAt hcut]
        · rfl

theorem length_stripOneTimestamp_le (text : List Char) :
    (stripOneTimestamp text).length ≤ text.length := by
  rcases stripOneTimestamp_cases text with ⟨he, -⟩ | ⟨hlt, -⟩
  · rw [he]
  · exact le_of_lt hlt

theorem stripOneTimestamp_eq_iff {text : List Char} :
    stripOneTimestamp text = text ↔ ¬ OpensWithClock text := by
  rcases stripOneTimestamp_cases text with ⟨he, hn⟩ | ⟨hlt, hc⟩
  · exact ⟨fun _ => hn, fun _ => he⟩
  · exact ⟨fun he => by rw [he] at hlt; omega, fun hn => absurd hc hn⟩

theorem queueTimestampPrefix_clock (now : LocalTime) : ∃ stamp, isHms stamp ∧ ∀ text,
      queueTimestampPrefix now ++ text = TS_PREFIX_OPEN ++ (stamp ++ (TS_PREFIX_CLOSE ++ text)) := by
  refine ⟨twoDigits now.hour ++ [':'] ++ twoDigits now.minute ++ [':'] ++ twoDigits now.second,
    ?_, fun text => by simp [queueTimestampPrefix]⟩
  simp only [twoDigits, cons_append, nil_append]
  simp only [isHms_eight, Nat.isDigit_digitChar, decide_eq_true_eq, true_and]
  refine ⟨?_, ?_, ?_, ?_, ?_, ?_⟩ <;> exact Nat.mod_lt _ (by decide)

theorem stripOneTimestamp_stamped (now : LocalTime) (text : List Char) :
    stripOneTimestamp (queueTimestampPrefix now ++ text) = text := by
  obtain ⟨stamp, hs, he⟩ := queueTimestampPrefix_clock now
  rw [he, stripOneTimestamp_clock hs]

theorem newline_not_mem_queueTimestampPrefix (now : LocalTime) :
    '\n' ∉ queueTimestampPrefix now := by
  obtain ⟨stamp, hs, he⟩ := queueTimestampPrefix_clock now
  have := not_mem_of_isHms hs (c := '\n') (by decide) (by decide)
  rw [← append_nil (queueTimestampPrefix now), he]
  simp [TS_PREFIX_OPEN, TS_PREFIX_CLOSE, this]

/-! ## A bundle of texts -/

structure QueuedText (M : Type) where
  now : LocalTime
  msg : Option Nat
  text : List Char
  details : M

namespace QueuedText

variable {M X : Type}

/-- The view hands over texts without blank ends. -/
def Trimmed (q : QueuedText M) : Prop := trimText q.text = q.text ∧ q.text ≠ []

instance (q : QueuedText M) : Decidable q.Trimmed := inferInstanceAs (Decidable (_ ∧ _))

def block (q : QueuedText M) : Piece M X := ⟨q.msg, .text q.text q.details⟩

/-- The text with its time in front. -/
def stamped (q : QueuedText M) : List Char := queueTimestampPrefix q.now ++ q.text

/-- What a text adds to a bundle that is there. -/
def joined [Inhabited M] (q : QueuedText M) : List (Piece M X) :=
  [Piece.ofText ['\n', '\n'], Piece.ofText (queueTimestampPrefix q.now), q.block]

end QueuedText

section Bundle

variable {M X : Type} [Inhabited M]

def SolutionSession.enqueueAll (s : SolutionSession M X) (target : QueueTarget)
    (texts : List (QueuedText M)) : SolutionSession M X :=
  texts.foldl (fun s q => s.enqueue [q.block] target q.now) s

def bundleBlocks : List (QueuedText M) → List (Piece M X)
  | [] => []
  | q :: texts => Piece.ofText (queueTimestampPrefix q.now) :: q.block :: texts.flatMap QueuedText.joined

/-- No text of this target can join the last bundle. -/
def NoneWaiting (queue : List (PendingBundle M X)) (target : QueueTarget) : Prop :=
  ∀ last, queue.getLast? = some last → last.target ≠ target

theorem enqueueAll_merges (s : SolutionSession M X) {queue : List (PendingBundle M X)}
    {target : QueueTarget} {blocks : List (Piece M X)}
    (h : s.pendingMessages = queue ++ [⟨target, blocks⟩]) (texts : List (QueuedText M)) :
    (s.enqueueAll target texts).pendingMessages =
      queue ++ [⟨target, blocks ++ texts.flatMap QueuedText.joined⟩] := by
  induction texts generalizing s blocks with
  | nil => simpa [SolutionSession.enqueueAll] using h
  | cons q texts ih =>
    have hstep : (s.enqueue [q.block] target q.now).pendingMessages =
        queue ++ [⟨target, blocks ++ q.joined⟩] := by
      simp [SolutionSession.enqueue, SolutionSession.enqueued, h, QueuedText.joined]
    rw [SolutionSession.enqueueAll, foldl_cons]
    rw [← SolutionSession.enqueueAll, ih _ hstep, flatMap_cons, append_assoc]

theorem enqueueAll_pending {s : SolutionSession M X} {target : QueueTarget}
    (h : NoneWaiting s.pendingMessages target) {texts : List (QueuedText M)} (hne : texts ≠ []) :
    (s.enqueueAll target texts).pendingMessages =
      s.pendingMessages ++ [⟨target, bundleBlocks texts⟩] := by
  cases texts with
  | nil => exact absurd rfl hne
  | cons q texts =>
    have hfirst : (s.enqueue [q.block] target q.now).pendingMessages = s.pendingMessages ++
          [⟨target, [Piece.ofText (queueTimestampPrefix q.now), q.block]⟩] := by
      simp only [SolutionSession.enqueue, SolutionSession.enqueued]
      split
      · rename_i hnone
        rw [List.getLast?_eq_none_iff.mp hnone]
        rfl
      · rename_i last hlast
        rw [if_neg (h last hlast)]
    rw [SolutionSession.enqueueAll, foldl_cons]
    rw [← SolutionSession.enqueueAll, enqueueAll_merges _ hfirst]
    rfl

/-- What stands on top of the bundle when it goes out as a message of its own. -/
def hintBlocks (hint : Bool) : List (Piece M X) :=
  if hint then [Piece.ofText (QUEUE_HINT_LINE ++ ['\n', '\n'])] else []

def hintText (hint : Bool) : List Char := if hint then QUEUE_HINT_LINE ++ ['\n', '\n'] else []

omit [Inhabited M] in
theorem previewLoop_texts {labelled : Nat} {blocks : List (Piece M X)}
    (h : ∀ p ∈ blocks, p.block.isText) (out : List Char) (ordinal : Nat) :
    previewLoop labelled out ordinal blocks = out ++ blocks.flatMap Piece.textOf := by
  induction blocks generalizing out with
  | nil => simp [previewLoop]
  | cons p blocks ih =>
    obtain ⟨hp, hrest⟩ := List.forall_mem_cons.mp h
    rw [previewLoop]
    split
    · rename_i text details hb
      have htext : p.textOf = text := by rw [Piece.textOf, hb]
      rw [ih hrest, flatMap_cons, htext, append_assoc]
    · rename_i hb
      rw [hb] at hp
      cases hp
    · rename_i hnot _
      cases hb : p.block with
      | text text details => exact absurd hb (hnot text details)
      | image _ _ _ => rw [hb] at hp; cases hp
      | resourceLink _ _ _ => rw [hb] at hp; cases hp
      | other _ => rw [hb] at hp; cases hp

theorem bundleBlocks_isText {texts : List (QueuedText M)} {p : Piece M X}
    (h : p ∈ bundleBlocks texts) : p.block.isText := by
  cases texts with
  | nil => cases h
  | cons q texts =>
    simp only [bundleBlocks, mem_cons, mem_flatMap, QueuedText.joined, not_mem_nil, or_false] at h
    rcases h with rfl | rfl | ⟨q', -, rfl | rfl | rfl⟩ <;> rfl

theorem bundleBlocks_text {texts : List (QueuedText M)} :
    (bundleBlocks (X := X) texts).flatMap Piece.textOf =
      ['\n', '\n'].intercalate (texts.map QueuedText.stamped) := by
  have hjoined : ∀ (text : List Char) (texts : List (QueuedText M)),
      text ++ (texts.flatMap (QueuedText.joined (X := X))).flatMap Piece.textOf =
        ['\n', '\n'].intercalate (text :: texts.map QueuedText.stamped) := by
    intro text texts
    induction texts generalizing text with
    | nil => simp
    | cons q texts ih =>
      rw [map_cons, intercalate_cons_cons, ← ih]
      simp [QueuedText.joined, QueuedText.stamped, QueuedText.block, Piece.textOf, Piece.ofText]
  cases texts with
  | nil => rfl
  | cons q texts =>
    rw [map_cons, ← hjoined]
    simp [bundleBlocks, QueuedText.stamped, QueuedText.block, Piece.textOf, Piece.ofText]

/-- **The text of a bundle**: the stamped texts with a blank line between them, below the
hint line. -/
theorem assembledText_bundle (placeholders : List Char → Nat) (hint : Bool)
    (texts : List (QueuedText M)) :
    assembledText placeholders (hintBlocks (X := X) hint ++ bundleBlocks texts) =
      hintText hint ++ ['\n', '\n'].intercalate (texts.map QueuedText.stamped) := by
  have htexts : ∀ p ∈ hintBlocks (X := X) hint ++ bundleBlocks (M := M) texts, p.block.isText := by
    intro p hp
    rcases List.mem_append.mp hp with hp | hp
    · cases hint with
      | false => cases hp
      | true => rw [List.mem_singleton.mp hp]; rfl
    · exact bundleBlocks_isText hp
  rw [assembledText, previewLoop_texts htexts, nil_append, flatMap_append, bundleBlocks_text]
  congr 1
  cases hint <;> simp [hintBlocks, hintText, Piece.textOf, Piece.ofText]

end Bundle

/-! ## Taking it out -/

section Strip

variable {M X : Type}

theorem not_isWhitespace_of_trimmed {text : List Char} {c : Char} (h : trimText text = text)
    (hlast : text.getLast? = some c) : isWhitespace c = false := by
  rw [← h, trimText, getLast?_reverse] at hlast
  have := head?_dropWhile_not isWhitespace (text.dropWhile isWhitespace).reverse
  rw [hlast] at this
  simpa using this

theorem getLast?_of_trimmed {text : List Char} (h : trimText text = text) :
    text.getLast? ≠ some '\n' := fun hlast =>
  absurd (not_isWhitespace_of_trimmed h hlast) (by decide)

namespace QueuedText

variable {q : QueuedText M}

theorem getLast?_stamped (h : q.Trimmed) : q.stamped.getLast? = q.text.getLast? := by
  rw [stamped, getLast?_append_of_ne_nil _ h.2]

theorem paragraphs_stamped :
    paragraphs q.stamped = onFirst (queueTimestampPrefix q.now) (paragraphs q.text) :=
  paragraphs_front (newline_not_mem_queueTimestampPrefix _) _

/-- What the view makes of one text. -/
def shown (q : QueuedText M) : List (List Char) := (paragraphs q.stamped).map stripOneTimestamp

theorem shown_eq : q.shown = (paragraphs q.text).head (paragraphs_ne_nil _) ::
      (paragraphs q.text).tail.map stripOneTimestamp := by
  obtain ⟨part, parts, hp⟩ := exists_cons_of_ne_nil (paragraphs_ne_nil q.text)
  simp only [shown, paragraphs_stamped, hp, onFirst, map_cons, stripOneTimestamp_stamped,
    head_cons, tail_cons]

/-- No later paragraph opens with a clock time. -/
def Plain (q : QueuedText M) : Prop := ∀ p ∈ (paragraphs q.text).tail, ¬ OpensWithClock p

theorem shown_eq_paragraphs_iff : q.shown = paragraphs q.text ↔ q.Plain := by
  obtain ⟨part, parts, hp⟩ := exists_cons_of_ne_nil (paragraphs_ne_nil q.text)
  simp only [shown_eq, Plain, hp, head_cons, tail_cons, List.cons.injEq, true_and]
  have hsame : parts.map stripOneTimestamp = parts.map id ↔
      ∀ p ∈ parts, stripOneTimestamp p = p := map_inj_left
  rw [map_id] at hsame
  rw [hsame]
  exact forall₂_congr fun p _ => stripOneTimestamp_eq_iff

theorem forall₂_shown :
    List.Forall₂ (fun a b : List Char => a.length ≤ b.length) q.shown (paragraphs q.text) := by
  obtain ⟨part, parts, hp⟩ := exists_cons_of_ne_nil (paragraphs_ne_nil q.text)
  simp only [shown_eq, hp, head_cons, tail_cons]
  refine .cons (le_refl _) ?_
  rw [forall₂_map_left_iff]
  exact List.forall₂_same.mpr fun p _ => length_stripOneTimestamp_le p

end QueuedText

theorem stripFront_hint (now : LocalTime) (text : List Char) :
    stripFront QUEUE_HINT_LINE (queueTimestampPrefix now ++ text) = none := by
  have hhint : ∃ rest, QUEUE_HINT_LINE = '[' :: 'Q' :: rest := ⟨_, rfl⟩
  have hstamp : ∃ rest, queueTimestampPrefix now ++ text =
      '[' :: Nat.digitChar (now.hour / 10 % 10) :: rest := ⟨_, rfl⟩
  obtain ⟨line, hline⟩ := hhint
  obtain ⟨rest, hrest⟩ := hstamp
  have hne : 'Q' ≠ Nat.digitChar (now.hour / 10 % 10) := by
    intro he
    have hdigit := Nat.isDigit_digitChar (n := now.hour / 10 % 10)
    rw [← he] at hdigit
    have hlt : now.hour / 10 % 10 < 10 := Nat.mod_lt _ (by decide)
    simp [hlt] at hdigit
  rw [hline, hrest, stripFront, if_pos rfl, stripFront, if_neg hne]

/-- Below the hint line, or without it, the view finds the stamped texts. -/
theorem stripInjectedMeta_hint (hint : Bool) (now : LocalTime) (text : List Char) :
    stripInjectedMeta (hintText hint ++ (queueTimestampPrefix now ++ text)) =
      ['\n', '\n'].intercalate
        ((paragraphs (queueTimestampPrefix now ++ text)).map stripOneTimestamp) := by
  cases hint with
  | false => simp only [stripInjectedMeta, hintText, Bool.false_eq_true, if_false, nil_append,
      stripFront_hint]
  | true =>
    congr 3

/-- What the view makes of a bundle is what it makes of each text. -/
theorem strip_stamped (hint : Bool) {texts : List (QueuedText M)} (hne : texts ≠ [])
    (htrim : ∀ q ∈ texts, q.Trimmed) :
    stripInjectedMeta (hintText hint ++ ['\n', '\n'].intercalate (texts.map QueuedText.stamped)) =
      ['\n', '\n'].intercalate (texts.flatMap QueuedText.shown) := by
  have hbody : (paragraphs (['\n', '\n'].intercalate (texts.map QueuedText.stamped))).map
      stripOneTimestamp = texts.flatMap QueuedText.shown := by
    rw [paragraphs_intercalate (by simpa using hne), map_flatMap, flatMap_map]
    · rfl
    · intro t ht
      obtain ⟨q, hq, rfl⟩ := List.mem_map.mp ht
      rw [QueuedText.getLast?_stamped (htrim q hq)]
      exact getLast?_of_trimmed (htrim q hq).1
  obtain ⟨q, rest, rfl⟩ := exists_cons_of_ne_nil hne
  obtain ⟨text, htext⟩ : ∃ text, ['\n', '\n'].intercalate ((q :: rest).map QueuedText.stamped) =
      queueTimestampPrefix q.now ++ text := by
    cases rest with
    | nil => exact ⟨q.text, by simp [QueuedText.stamped]⟩
    | cons q' rest =>
      exact ⟨_, rfl⟩
  rw [← hbody, htext, stripInjectedMeta_hint]

theorem intercalate_texts {texts : List (QueuedText M)} (hne : texts ≠ [])
    (htrim : ∀ q ∈ texts, q.Trimmed) :
    ['\n', '\n'].intercalate (texts.map QueuedText.text) =
      ['\n', '\n'].intercalate (texts.flatMap fun q => paragraphs q.text) := by
  rw [← intercalate_paragraphs (['\n', '\n'].intercalate (texts.map QueuedText.text)),
    paragraphs_intercalate (by simpa using hne), flatMap_map]
  intro t ht
  obtain ⟨q, hq, rfl⟩ := List.mem_map.mp ht
  exact getLast?_of_trimmed (htrim q hq).1

theorem forall₂_flatMap_shown (texts : List (QueuedText M)) :
    List.Forall₂ (fun a b : List Char => a.length ≤ b.length) (texts.flatMap QueuedText.shown)
      (texts.flatMap fun q => paragraphs q.text) := by
  induction texts with
  | nil => exact .nil
  | cons q texts ih =>
    exact rel_append q.forall₂_shown ih

/-- **Queue metadata comes out as it went in**, for texts queued for one target one after
the other, if and only if no text has a clock time in front of a later paragraph. -/
theorem strip_bundle_iff [Inhabited M] (s : SolutionSession M X) (target : QueueTarget)
    (placeholders : List Char → Nat) (hint : Bool) (texts : List (QueuedText M))
    (hfresh : NoneWaiting s.pendingMessages target) (hne : texts ≠ [])
    (htrim : ∀ q ∈ texts, q.Trimmed) :
    ∃ bundle, (s.enqueueAll target texts).pendingMessages = s.pendingMessages ++ [bundle] ∧
      bundle.target = target ∧
      (stripInjectedMeta (assembledText placeholders (hintBlocks hint ++ bundle.blocks)) =
          ['\n', '\n'].intercalate (texts.map QueuedText.text) ↔
        ∀ q ∈ texts, ∀ p ∈ (paragraphs q.text).tail, ¬ OpensWithClock p) := by
  refine ⟨⟨target, bundleBlocks texts⟩, enqueueAll_pending hfresh hne, rfl, ?_⟩
  rw [assembledText_bundle, strip_stamped hint hne htrim, intercalate_texts hne htrim,
    intercalate_inj (forall₂_flatMap_shown texts),
    flatMap_inj fun q _ => q.forall₂_shown.length_eq]
  exact forall₂_congr fun q _ => QueuedText.shown_eq_paragraphs_iff

end Strip

theorem strip_bundle_two :
    ∃ bundle, ((SolutionSession.newIdle (X := Unit) 0 [] none).enqueueAll .main
        [⟨⟨9, 30, 0⟩, some 0, ['a'], ()⟩, ⟨⟨9, 30, 7⟩, some 1, ['b'], ()⟩]).pendingMessages =
          [] ++ [bundle] ∧
      bundle.target = .main ∧
      (stripInjectedMeta (assembledText (fun _ => 0) (hintBlocks true ++ bundle.blocks)) =
          ['a', '\n', '\n', 'b'] ↔
        ∀ q ∈ [QueuedText.mk ⟨9, 30, 0⟩ (some 0) ['a'] (), ⟨⟨9, 30, 7⟩, some 1, ['b'], ()⟩],
          ∀ p ∈ (paragraphs q.text).tail, ¬ OpensWithClock p) :=
  strip_bundle_iff (SolutionSession.newIdle 0 [] none) .main (fun _ => 0) true
    [⟨⟨9, 30, 0⟩, some 0, ['a'], ()⟩, ⟨⟨9, 30, 7⟩, some 1, ['b'], ()⟩]
    (by intro last h; cases h) (by simp) (by decide)

/-- A text whose second paragraph opens with a clock time. -/
def typedClock : QueuedText Unit :=
  ⟨⟨9, 30, 0⟩, some 0,
    ['a', '\n', '\n', '[', '1', '2', ':', '0', '0', ':', '0', '0', ']', ' ', 'b'], ()⟩

/-- The clock time that the user typed goes with the queue's own. -/
theorem strip_drops_typed_clock : typedClock.Trimmed ∧
    ((SolutionSession.newIdle (X := Unit) 0 [] none).enqueueAll .main [typedClock]).pendingMessages.map
        (fun bundle => stripInjectedMeta (assembledText (fun _ => 0) bundle.blocks)) =
      [['a', '\n', '\n', 'b']] ∧
    typedClock.text ≠ ['a', '\n', '\n', 'b'] := by
  decide

end SpkEditor
