import SpkEditor.Shell.Parts

/-!
# What the rules see of a safe program

A safe program holds no substitution that the extractor looks at, so what it returns is the texts
of the simple commands and of the redirects to files, in the order of the walk: nothing of a
duplication, and nothing of a command without a text.
-/

namespace SpkEditor.Shell

open List Option

section

variable (P : Parser)

def itemWord : Item → Option (List Char)
  | .word w => normalizeWord P w
  | .assignmentWord a raw => (normalizeAssignment P a raw).join
  | .ioRedirect _ | .processSubstitution _ => none

def commandWords (front : List Item) (wordOrName : Option Word) (suffix : List Item) :
    List (List Char) :=
  front.filterMap (itemWord P) ++
    ((wordOrName.bind (normalizeWord P)).toList ++ suffix.filterMap (itemWord P))

/-- The text under which the extractor returns a part. -/
def Part.checked : Part → Option (List Char)
  | .command front wordOrName suffix =>
    let text := joinWords (commandWords P front wordOrName suffix)
    if text = [] then none else some text
  | .redirect operator target => (normalizeTarget P operator target).join
  | .word _ | .duplication _ _ _ | .processSubstitution | .arithmetic => none

variable {P}

theorem filterMap_checked_words (words : List Word) :
    (words.map Part.word).filterMap (Part.checked P) = [] := by
  simp [filterMap_map, Function.comp_def, Part.checked]

theorem filterMap_checked_assignment (a : Assignment) (raw : List Char) :
    (a.parts raw).filterMap (Part.checked P) = [] := by
  unfold Assignment.parts
  rw [filterMap_append]
  cases a.value with
  | scalar w => rfl
  | array elements => rw [filterMap_checked_words]; rfl

/-- The target of a redirect is validated, so it is no process substitution. -/
theorem normalizeIoRedirect_checked {r : IoRedirect} (hs : ∀ p ∈ r.parts, p.Safe P)
    {n : Option (List Char)} (h : normalizeIoRedirect P r = some n) :
    r.parts.filterMap (Part.checked P) = n.toList := by
  cases r with
  | file fd kind target =>
    cases target with
    | filename w =>
      simp only [normalizeIoRedirect] at h
      cases n <;> simp [IoRedirect.parts, IoFileRedirectTarget.parts, Part.checked, h]
    | processSubstitution list =>
      exact absurd (hs .processSubstitution
        (by simp [IoRedirect.parts, IoFileRedirectTarget.parts])) id
    | fd k =>
      simp only [normalizeIoRedirect, Option.some.injEq] at h
      subst h
      rfl
    | duplicate w =>
      simp only [normalizeIoRedirect, Option.some.injEq] at h
      subst h
      rfl
  | outputAndError w append =>
    simp only [normalizeIoRedirect] at h
    cases n <;> simp [IoRedirect.parts, Part.checked, h]
  | hereDocument fd requiresExpansion doc =>
    simp only [normalizeIoRedirect, Option.some.injEq] at h
    subst h
    cases requiresExpansion <;> simp [IoRedirect.parts, Part.checked]
  | hereString fd w =>
    simp only [normalizeIoRedirect, Option.some.injEq] at h
    subst h
    rfl

theorem normalizeRedirects_checked : ∀ {redirects : List IoRedirect}
    (_ : ∀ p ∈ redirectParts redirects, p.Safe P) {texts : List (List Char)}
    (_ : normalizeRedirects P redirects = some texts),
    (redirectParts redirects).filterMap (Part.checked P) = texts
  | [], _, texts, h => by
      simp only [normalizeRedirects, Option.some.injEq] at h
      subst h
      rfl
  | r :: redirects, hs, texts, h => by
      simp only [redirectParts, forall_mem_append] at hs
      simp only [normalizeRedirects, bind_eq_bind, bind_eq_some_iff, Option.some.injEq] at h
      obtain ⟨n, hn, rest, hrest, rfl⟩ := h
      rw [redirectParts, filterMap_append, normalizeIoRedirect_checked hs.1 hn,
        normalizeRedirects_checked hs.2 hrest]

theorem normalizeItems_checked (front : Bool) : ∀ {items : List Item}
    (_ : ∀ p ∈ itemParts items, p.Safe P) {words redirects : List (List Char)}
    (_ : normalizeItems P front items = some (words, redirects)),
    words = items.filterMap (itemWord P) ∧ redirects = (itemParts items).filterMap (Part.checked P)
  | [], _, words, redirects, h => by
      simp only [normalizeItems, Option.some.injEq, Prod.mk.injEq] at h
      obtain ⟨rfl, rfl⟩ := h
      exact ⟨rfl, rfl⟩
  | .ioRedirect r :: items, hs, words, redirects, h => by
      simp only [itemParts, Item.parts, forall_mem_append] at hs
      simp only [normalizeItems, bind_eq_bind, bind_eq_some_iff, Prod.exists,
        Option.some.injEq, Prod.mk.injEq] at h
      obtain ⟨n, hn, words', redirects', hrest, rfl, rfl⟩ := h
      obtain ⟨hw, hr⟩ := normalizeItems_checked front hs.2 hrest
      refine ⟨by rw [hw, filterMap_cons_none rfl], ?_⟩
      rw [itemParts, Item.parts, filterMap_append, normalizeIoRedirect_checked hs.1 hn, hr]
  | .assignmentWord a raw :: items, hs, words, redirects, h => by
      simp only [itemParts, Item.parts, forall_mem_append] at hs
      simp only [normalizeItems, bind_eq_bind, bind_eq_some_iff, Prod.exists,
        Option.some.injEq, Prod.mk.injEq] at h
      obtain ⟨n, hn, words', redirects', hrest, rfl, rfl⟩ := h
      obtain ⟨hw, hr⟩ := normalizeItems_checked front hs.2 hrest
      constructor
      · cases n <;> simp [itemWord, hn, hw]
      · rw [itemParts, Item.parts, filterMap_append, filterMap_checked_assignment, hr]
        rfl
  | .word w :: items, hs, words, redirects, h => by
      simp only [itemParts, Item.parts, forall_mem_append] at hs
      simp only [normalizeItems, bind_eq_bind, bind_eq_some_iff, Prod.exists,
        Option.some.injEq, Prod.mk.injEq] at h
      obtain ⟨n, hn, words', redirects', hrest, rfl, rfl⟩ := h
      obtain ⟨hw, hr⟩ := normalizeItems_checked front hs.2 hrest
      refine ⟨by simp [itemWord, hn, hw], ?_⟩
      rw [itemParts, Item.parts, filterMap_append, hr]
      rfl
  | .processSubstitution list :: items, hs, words, redirects, h =>
    absurd (hs .processSubstitution (by simp [itemParts, Item.parts])) id

theorem normalizeSimpleCommand_checked {front suffix : List Item} {wordOrName : Option Word}
    (hf : ∀ p ∈ itemParts front, p.Safe P) (hx : ∀ p ∈ itemParts suffix, p.Safe P)
    {words redirects : List (List Char)}
    (h : normalizeSimpleCommand P front wordOrName suffix = some (words, redirects)) :
    words = commandWords P front wordOrName suffix ∧
      redirects = (itemParts front ++ itemParts suffix).filterMap (Part.checked P) := by
  simp only [normalizeSimpleCommand, bind_eq_bind, bind_eq_some_iff, Prod.exists,
    Option.some.injEq, Prod.mk.injEq] at h
  obtain ⟨w₁, r₁, h₁, name, hn, w₂, r₂, h₂, rfl, rfl⟩ := h
  obtain ⟨hw₁, hr₁⟩ := normalizeItems_checked true hf h₁
  obtain ⟨hw₂, hr₂⟩ := normalizeItems_checked false hx h₂
  have hname : name = (wordOrName.bind (normalizeWord P)).toList := by
    cases wordOrName with
    | none => simpa [normalizeName] using hn.symm
    | some w =>
      obtain ⟨t, ht, rfl⟩ := Option.map_eq_some_iff.mp hn
      simp [ht]
  exact ⟨by rw [commandWords, hw₁, hname, hw₂], by rw [filterMap_append, hr₁, hr₂]⟩

/-! ## The second half: nested commands

Nothing that is nested is left in a safe program. -/

section

variable {nested : List Char → Option (List (List Char))}

mutual

theorem extractFromWordPiece_plain : ∀ {piece : WordPiece} (_ : piece.plain = true)
    (commands : List (List Char)), extractFromWordPiece nested piece commands = some commands
  | .text _, _, _ | .singleQuotedText _, _, _ | .ansiCQuotedText _, _, _
  | .escapeSequence _, _, _ | .tildePrefix _, _, _ => rfl
  | .doubleQuotedSequence _, h, commands => extractFromWordPieces_plain h commands
  | .gettextDoubleQuotedSequence _, h, commands => extractFromWordPieces_plain h commands

theorem extractFromWordPieces_plain : ∀ {pieces : List (WordPiece × Nat × Nat)}
    (_ : plainPieces pieces = true) (commands : List (List Char)),
    extractFromWordPieces nested pieces commands = some commands
  | [], _, _ => rfl
  | (piece, _, _) :: pieces, h, commands => by
      simp only [plainPieces, Bool.and_eq_true] at h
      rw [extractFromWordPieces, extractFromWordPiece_plain h.1, bind_some,
        extractFromWordPieces_plain h.2]

end

/-- A walk over safe parts that adds nothing. -/
def Passes (P : Parser) (walk : List (List Char) → Option (List (List Char))) (parts : List Part) : Prop :=
  (∀ p ∈ parts, p.Safe P) → ∀ commands, walk commands = some commands

theorem passes_nil : Passes P some [] := fun _ _ => rfl

theorem Passes.bind {f g : List (List Char) → Option (List (List Char))} {as bs : List Part}
    (hf : Passes P f as) (hg : Passes P g bs) : Passes P (fun commands => (f commands).bind g) (as ++ bs) := by
  intro h commands
  rw [forall_mem_append] at h
  dsimp only
  rw [hf h.1, bind_some, hg h.2]

theorem extractFromWord_plain {w : Word} : Passes P (extractFromWord P nested w) [.word w] := by
  intro h commands
  obtain ⟨pieces, hp, hpl⟩ := (Option.any_eq_true _ _).mp (h _ (mem_singleton_self _))
  rw [extractFromWord, hp, bind_some, extractFromWordPieces_plain hpl]

theorem extractFromWords_plain : ∀ {words : List Word},
    Passes P (extractFromWords P nested words) (words.map .word)
  | [] => passes_nil
  | _ :: _ => extractFromWord_plain.bind extractFromWords_plain

theorem extractFromAssignment_plain {a : Assignment} {raw : List Char} :
    Passes P (extractFromAssignment P nested a) (a.parts raw) := by
  intro h commands
  unfold Assignment.parts at h
  unfold extractFromAssignment
  rw [forall_mem_append] at h
  cases hv : a.value with
  | scalar w =>
    rw [hv] at h
    exact extractFromWord_plain h.1 commands
  | array elements =>
    rw [hv] at h
    exact extractFromWords_plain h.1 commands

theorem extractFromExtendedTestExpr_plain : ∀ e : ExtendedTestExpr,
    Passes P (extractFromExtendedTestExpr P nested e) e.parts
  | .not e | .parenthesized e => extractFromExtendedTestExpr_plain e
  | .and left right | .or left right =>
    (extractFromExtendedTestExpr_plain left).bind (extractFromExtendedTestExpr_plain right)
  | .unaryTest _ => extractFromWord_plain
  | .binaryTest _ _ => extractFromWord_plain.bind extractFromWord_plain

theorem extractFromIoRedirect_plain {r : IoRedirect} : Passes P (extractFromIoRedirect P nested r) r.parts := by
  cases r with
  | file fd kind target =>
    cases target with
    | filename w =>
      exact fun h => extractFromWord_plain fun p hp => h p (mem_cons_of_mem _ hp)
    | processSubstitution list =>
      exact fun h => absurd (h .processSubstitution
        (by simp [IoRedirect.parts, IoFileRedirectTarget.parts])) id
    | fd k => exact fun _ _ => rfl
    | duplicate w => exact fun _ _ => rfl
  | hereDocument fd requiresExpansion doc =>
    cases requiresExpansion with
    | false => exact fun _ _ => rfl
    | true => exact extractFromWord_plain
  | hereString fd w => exact extractFromWord_plain
  | outputAndError w append =>
    exact fun h => extractFromWord_plain fun p hp => h p (mem_cons_of_mem _ hp)

theorem extractFromIoRedirects_plain {redirects : List IoRedirect} :
    Passes P (extractFromIoRedirects P nested redirects) (redirectParts redirects) := by
  induction redirects with
  | nil => exact passes_nil
  | cons _ _ ih => exact extractFromIoRedirect_plain.bind ih

theorem extractFromItem_plain {item : Item} : Passes P (extractFromItem P nested item) item.parts := by
  cases item with
  | ioRedirect r => exact extractFromIoRedirect_plain
  | assignmentWord a raw => exact extractFromAssignment_plain
  | word w => exact extractFromWord_plain
  | processSubstitution list =>
    exact fun h => absurd (h .processSubstitution (by simp [Item.parts])) id

theorem extractFromItems_plain {items : List Item} :
    Passes P (extractFromItems P nested items) (itemParts items) := by
  induction items with
  | nil => exact passes_nil
  | cons _ _ ih => exact extractFromItem_plain.bind ih

/-! ## The commands of a safe tree -/

def checkedTexts (P : Parser) (parts : List Part) : List (List Char) :=
  parts.filterMap (Part.checked P)

@[simp]
theorem checkedTexts_append (as bs : List Part) :
    checkedTexts P (as ++ bs) = checkedTexts P as ++ checkedTexts P bs := filterMap_append

def Walks (P : Parser) (walk : List (List Char) → Option (List (List Char)))
    (parts : List Part) : Prop :=
  ∀ commands cs, walk commands = some cs → cs = commands ++ checkedTexts P parts

/-- What a walk over safe parts adds. -/
def Reads (P : Parser) (walk : List (List Char) → Option (List (List Char))) (parts : List Part) : Prop :=
  (∀ p ∈ parts, p.Safe P) → Walks P walk parts

theorem reads_nil {walk : List (List Char) → Option (List (List Char))}
    (h : ∀ commands, walk commands = some commands) : Reads P walk [] := by
  intro _ commands cs hcs
  rw [h, Option.some.injEq] at hcs
  rw [← hcs, checkedTexts, filterMap_nil, append_nil]

theorem Reads.bind {f g : List (List Char) → Option (List (List Char))} {as bs : List Part}
    (hf : Reads P f as) (hg : Reads P g bs) : Reads P (fun commands => (f commands).bind g) (as ++ bs) := by
  intro hs commands cs h
  rw [forall_mem_append] at hs
  obtain ⟨ds, hd, he⟩ := Option.bind_eq_some_iff.mp h
  rw [hg hs.2 _ _ he, hf hs.1 _ _ hd, checkedTexts_append, append_assoc]

theorem Reads.words {walk : List (List Char) → Option (List (List Char))} {parts : List Part}
    (h : Reads P walk parts) (words : List Word) : Reads P walk (words.map .word ++ parts) := by
  intro hs commands cs hcs
  rw [checkedTexts_append, checkedTexts, filterMap_checked_words, nil_append]
  exact h (forall_mem_append.mp hs).2 commands cs hcs

theorem checkedTexts_extendedTestExpr : ∀ e : ExtendedTestExpr, checkedTexts P e.parts = []
  | .not e => checkedTexts_extendedTestExpr e
  | .parenthesized e => checkedTexts_extendedTestExpr e
  | .and left right | .or left right => by
      rw [ExtendedTestExpr.parts, checkedTexts_append, checkedTexts_extendedTestExpr left,
        checkedTexts_extendedTestExpr right, append_nil]
  | .unaryTest _ | .binaryTest _ _ => rfl

theorem extractFromSimpleCommand_checked {c : SimpleCommand} :
    Reads P (extractFromSimpleCommand P nested c) c.parts := by
  intro hs commands cs h
  obtain ⟨front, wordOrName, suffix⟩ := c
  simp only [SimpleCommand.parts, forall_mem_cons, forall_mem_append] at hs
  obtain ⟨-, hf, hn, hx⟩ := hs
  simp only [extractFromSimpleCommand, bind_eq_bind, bind_eq_some_iff, Prod.exists] at h
  obtain ⟨words, redirects, hw, h⟩ := h
  obtain ⟨rfl, rfl⟩ := normalizeSimpleCommand_checked hf hx hw
  split at h
  · cases h
  · simp only [extractFromItems_plain hf, extractFromWords_plain hn, extractFromItems_plain hx,
      bind_some, Option.some.injEq] at h
    have hparts : checkedTexts P (SimpleCommand.mk front wordOrName suffix).parts =
        (Part.checked P (.command front wordOrName suffix)).toList ++
          (itemParts front ++ itemParts suffix).filterMap (Part.checked P) := by
      rw [SimpleCommand.parts, checkedTexts, filterMap_cons, filterMap_append,
        filterMap_append, filterMap_checked_words, nil_append, filterMap_append]
      cases Part.checked P (.command front wordOrName suffix) <;> rfl
    rw [← h, hparts]
    congr 2
    simp only [Part.checked]
    split <;> rfl

mutual

theorem extractFromCommand_checked : ∀ {c : Command}, Reads P (extractFromCommand P nested c) c.parts
  | .simple c, hs, commands, cs, h => extractFromSimpleCommand_checked hs commands cs h
  | .compound c redirects, hs, commands, cs, h | .function c redirects, hs, commands, cs, h => by
      simp only [Command.parts, forall_mem_append] at hs
      simp only [extractFromCommand, bind_eq_bind, bind_eq_some_iff, Prod.exists] at h
      obtain ⟨ds, bodyStart, hd, texts, ht, h⟩ := h
      have hc := extractFromCompoundCommand_checked hs.1 commands ds bodyStart hd
      split at h
      · cases h
      · rw [extractFromIoRedirects_plain hs.2, Option.some.injEq] at h
        rw [← h, hc, ← normalizeRedirects_checked hs.2 ht, Command.parts, checkedTexts_append,
          append_assoc]
        rfl
  | .extendedTest e, hs, commands, cs, h => by
      rw [extractFromCommand, extractFromExtendedTestExpr_plain e hs, Option.some.injEq] at h
      have he : checkedTexts P e.parts = [] := checkedTexts_extendedTestExpr e
      rw [Command.parts, he, append_nil, h]

theorem extractFromCompoundCommand_checked : ∀ {c : CompoundCommand}
    (_ : ∀ p ∈ c.parts, p.Safe P) (commands cs : List (List Char)) (bodyStart : Nat)
    (_ : extractFromCompoundCommand P nested c commands = some (cs, bodyStart)),
    cs = commands ++ checkedTexts P c.parts
  | .braceGroup list, hs, commands, cs, bodyStart, h
  | .subshell list, hs, commands, cs, bodyStart, h => by
      simp only [extractFromCompoundCommand, map_eq_some_iff, Prod.mk.injEq] at h
      obtain ⟨ds, hd, rfl, -⟩ := h
      exact extractFromCompoundList_checked hs commands ds hd
  | .forClause values body, hs, commands, cs, bodyStart, h => by
      have hw := @extractFromWords_plain P nested values (forall_mem_append.mp hs).1
      simp only [extractFromCompoundCommand, hw, bind_eq_bind, bind_some, map_eq_some_iff, Prod.mk.injEq] at h
      obtain ⟨ds, hd, rfl, -⟩ := h
      exact extractFromCompoundList_checked.words values hs commands ds hd
  | .caseClause value cases, hs, commands, cs, bodyStart, h => by
      have hs' := forall_mem_append.mp (show ∀ p ∈ [.word value] ++ caseParts cases, p.Safe P from hs)
      simp only [extractFromCompoundCommand, extractFromWord_plain hs'.1, bind_eq_bind,
        bind_some, map_eq_some_iff, Prod.mk.injEq] at h
      obtain ⟨ds, hd, rfl, -⟩ := h
      exact extractFromCases_checked hs'.2 commands ds hd
  | .ifClause condition body elses, hs, commands, cs, bodyStart, h => by
      simp only [extractFromCompoundCommand, bind_eq_bind, bind_eq_some_iff,
        map_eq_some_iff, Prod.mk.injEq] at h
      obtain ⟨ds, hd, es, ⟨bs, hb, he⟩, rfl, -⟩ := h
      exact extractFromCompoundList_checked.bind (extractFromCompoundList_checked.bind
        extractFromElses_checked) hs commands es
        (Option.bind_eq_some_iff.mpr ⟨ds, hd, Option.bind_eq_some_iff.mpr ⟨bs, hb, he⟩⟩)
  | .whileClause condition body, hs, commands, cs, bodyStart, h
  | .untilClause condition body, hs, commands, cs, bodyStart, h => by
      simp only [extractFromCompoundCommand, bind_eq_bind, bind_eq_some_iff,
        map_eq_some_iff, Prod.mk.injEq] at h
      obtain ⟨ds, hd, es, he, rfl, -⟩ := h
      exact extractFromCompoundList_checked.bind extractFromCompoundList_checked hs
        commands es (Option.bind_eq_some_iff.mpr ⟨ds, hd, he⟩)
  | .arithmeticForClause body, hs, _, _, _, _ =>
    absurd (hs .arithmetic (by simp [CompoundCommand.parts])) id
  | .arithmetic, hs, _, _, _, _ => absurd (hs .arithmetic (by simp [CompoundCommand.parts])) id

theorem extractFromCases_checked : ∀ {cases : List CaseItem},
    Reads P (extractFromCases P nested cases) (caseParts cases)
  | [] => reads_nil fun _ => by rw [extractFromCases]
  | .mk patterns _ :: _ => (extractFromCompoundList_checked.bind extractFromCases_checked).words patterns

theorem extractFromElses_checked : ∀ {elses : List ElseClause},
    Reads P (extractFromElses P nested elses) (elseParts elses)
  | [] => reads_nil fun _ => by rw [extractFromElses]
  | .mk condition body :: elses => by
      rw [elseParts, ← append_assoc]
      exact (extractFromCompoundList_checked.bind extractFromCompoundList_checked).bind extractFromElses_checked

theorem extractFromCompoundList_checked : ∀ {list : CompoundList},
    Reads P (extractFromCompoundList P nested list) list.parts
  | .mk _ => extractFromAndOrLists_checked

theorem extractFromAndOrLists_checked : ∀ {lists : List AndOrList},
    Reads P (extractFromAndOrLists P nested lists) (andOrListParts lists)
  | [] => reads_nil fun _ => by rw [extractFromAndOrLists]
  | _ :: _ => extractFromAndOrList_checked.bind extractFromAndOrLists_checked

theorem extractFromAndOrList_checked : ∀ {list : AndOrList},
    Reads P (extractFromAndOrList P nested list) list.parts
  | .mk _ _ => extractFromPipeline_checked.bind extractFromAndOrs_checked

theorem extractFromAndOrs_checked : ∀ {additional : List AndOr},
    Reads P (extractFromAndOrs P nested additional) (andOrParts additional)
  | [] => reads_nil fun _ => by rw [extractFromAndOrs]
  | .and _ :: _ | .or _ :: _ => extractFromPipeline_checked.bind extractFromAndOrs_checked

theorem extractFromPipeline_checked : ∀ {p : Pipeline}, Reads P (extractFromPipeline P nested p) p.parts
  | .mk _ => extractFromCommands_checked

theorem extractFromCommands_checked : ∀ {seq : List Command},
    Reads P (extractFromCommands P nested seq) (commandParts seq)
  | [] => reads_nil fun _ => by rw [extractFromCommands]
  | _ :: _ => extractFromCommand_checked.bind extractFromCommands_checked

end

theorem extractFromProgram_checked : ∀ {lists : List CompoundList},
    Reads P (extractFromProgram P nested lists) (lists.flatMap CompoundList.parts)
  | [] => reads_nil fun _ => by rw [extractFromProgram]
  | _ :: _ => extractFromCompoundList_checked.bind extractFromProgram_checked

end

theorem extractCommands_checked {input : List Char} {program : Program}
    (hp : P.parseProgram input = some program) (hs : ∀ p ∈ program.parts, p.Safe P)
    {cs : List (List Char)} (h : extractCommands P input = some cs) :
    cs = checkedTexts P program.parts := by
  rw [extractCommands, extractCommandsTo, hp, bind_some] at h
  exact extractFromProgram_checked hs [] cs h

end

end SpkEditor.Shell
