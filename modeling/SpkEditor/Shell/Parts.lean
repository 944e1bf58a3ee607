import SpkEditor.Shell.Validate
import SpkEditor.Shell.Extract

/-!
# What a program consists of

One walk through the tree that lists everything a permission is about: the words, the simple
commands, the redirects. The validator and the extractor are two walks of their own, and each of
them is compared with this list. Here is the validator: it looks at every word of the list but
the ones behind `>&` and `<&`.
-/

namespace SpkEditor.Shell

open List

/-- Something that a program consists of. -/
inductive Part where
  | word (w : Word)
  /-- a simple command -/
  | command (front : List Item) (wordOrName : Option Word) (suffix : List Item)
  /-- a redirect to or from a file -/
  | redirect (operator : List Char) (target : Word)
  /-- `>&` and `<&` with a word -/
  | duplication (fd : Option Nat) (kind : IoFileRedirectKind) (target : Word)
  | processSubstitution
  | arithmetic

def ExtendedTestExpr.parts : ExtendedTestExpr → List Part
  | .not e => e.parts
  | .parenthesized e => e.parts
  | .and left right => left.parts ++ right.parts
  | .or left right => left.parts ++ right.parts
  | .unaryTest w => [.word w]
  | .binaryTest left right => [.word left, .word right]

def Assignment.parts (a : Assignment) (raw : List Char) : List Part :=
  (match a.value with
    | .scalar w => [.word w]
    | .array elements => (elements.flatMap fun e => e.1.toList ++ [e.2]).map .word) ++
    [.word (a.word raw)]

mutual

def Command.parts : Command → List Part
  | .simple c => c.parts
  | .compound c redirects => c.parts ++ redirectParts redirects
  | .function body redirects => body.parts ++ redirectParts redirects
  | .extendedTest e => e.parts

def SimpleCommand.parts : SimpleCommand → List Part
  | .mk front wordOrName suffix =>
    .command front wordOrName suffix ::
      (itemParts front ++ (wordOrName.toList.map .word ++ itemParts suffix))

def itemParts : List Item → List Part
  | [] => []
  | item :: items => item.parts ++ itemParts items

def Item.parts : Item → List Part
  | .ioRedirect r => r.parts
  | .word w => [.word w]
  | .assignmentWord a raw => a.parts raw
  | .processSubstitution list => .processSubstitution :: list.parts

def redirectParts : List IoRedirect → List Part
  | [] => []
  | r :: redirects => r.parts ++ redirectParts redirects

/-- The body of a here-document is a word only if its delimiter is not quoted. -/
def IoRedirect.parts : IoRedirect → List Part
  | .file fd kind target => target.parts fd kind
  | .hereDocument _ requiresExpansion doc => if requiresExpansion then [.word doc] else []
  | .hereString _ w => [.word w]
  | .outputAndError w append => [.redirect (outputAndErrorOperator append) w, .word w]

def IoFileRedirectTarget.parts (fd : Option Nat) (kind : IoFileRedirectKind) :
    IoFileRedirectTarget → List Part
  | .filename w => [.redirect (fdText fd ++ kind.operator) w, .word w]
  | .fd _ => []
  | .processSubstitution list => .processSubstitution :: list.parts
  | .duplicate w => [.duplication fd kind w]

def CompoundCommand.parts : CompoundCommand → List Part
  | .braceGroup list => list.parts
  | .subshell list => list.parts
  | .forClause values body => values.map .word ++ body.parts
  | .caseClause value cases => .word value :: caseParts cases
  | .ifClause condition body elses => condition.parts ++ (body.parts ++ elseParts elses)
  | .whileClause condition body => condition.parts ++ body.parts
  | .untilClause condition body => condition.parts ++ body.parts
  | .arithmeticForClause body => .arithmetic :: body.parts
  | .arithmetic => [.arithmetic]

def caseParts : List CaseItem → List Part
  | [] => []
  | .mk patterns cmd :: cases => patterns.map .word ++ (cmd.parts ++ caseParts cases)

def elseParts : List ElseClause → List Part
  | [] => []
  | .mk condition body :: elses => condition.parts ++ (body.parts ++ elseParts elses)

def CompoundList.parts : CompoundList → List Part
  | .mk items => andOrListParts items

def andOrListParts : List AndOrList → List Part
  | [] => []
  | list :: lists => list.parts ++ andOrListParts lists

def AndOrList.parts : AndOrList → List Part
  | .mk first additional => first.parts ++ andOrParts additional

def andOrParts : List AndOr → List Part
  | [] => []
  | .and p :: additional => p.parts ++ andOrParts additional
  | .or p :: additional => p.parts ++ andOrParts additional

def Pipeline.parts : Pipeline → List Part
  | .mk seq => commandParts seq

def commandParts : List Command → List Part
  | [] => []
  | c :: seq => c.parts ++ commandParts seq

end

def Program.parts (program : Program) : List Part :=
  program.completeCommands.flatMap CompoundList.parts

/-! ## Words without substitutions -/

mutual

/-- The piece holds no parameter, command or arithmetic substitution. -/
def WordPiece.plain : WordPiece → Bool
  | .text _ | .singleQuotedText _ | .ansiCQuotedText _ | .escapeSequence _ | .tildePrefix _ => true
  | .doubleQuotedSequence pieces => plainPieces pieces
  | .gettextDoubleQuotedSequence pieces => plainPieces pieces
  | .parameterExpansion | .arithmeticExpression => false
  | .commandSubstitution _ | .backquotedCommandSubstitution _ => false

def plainPieces : List (WordPiece × Nat × Nat) → Bool
  | [] => true
  | (piece, _, _) :: pieces => piece.plain && plainPieces pieces

end

/-- The pieces of the word are known, and none of them is a substitution. -/
def Parser.plain (P : Parser) (w : Word) : Bool := (P.parseWord w.value).any plainPieces

/-! ## The validator -/

@[simp]
theorem combineValidations_safe (vs : List Validation) :
    combineValidations vs = .Safe ↔ ∀ v ∈ vs, v = .Safe := by
  unfold combineValidations
  split
  · next h =>
    obtain ⟨v, hv, he⟩ := List.any_eq_true.mp h
    simp only [beq_iff_eq] at he
    subst he
    exact ⟨nofun, fun hs => absurd (hs _ hv) nofun⟩
  · next h =>
    split
    · next h' =>
      obtain ⟨v, hv, he⟩ := List.any_eq_true.mp h'
      simp only [beq_iff_eq] at he
      subst he
      exact ⟨nofun, fun hs => absurd (hs _ hv) nofun⟩
    · next h' =>
      refine ⟨fun _ v hv => ?_, fun _ => rfl⟩
      simp only [List.any_eq_true, beq_iff_eq, not_exists, not_and] at h h'
      cases v with
      | Safe => rfl
      | Unsafe => exact absurd rfl (h _ hv)
      | Unsupported => exact absurd rfl (h' _ hv)

section

variable (P : Parser)

def Part.Safe : Part → Prop
  | .word w => P.plain w
  | .processSubstitution | .arithmetic => False
  | .command _ _ _ | .redirect _ _ | .duplication _ _ _ => True

mutual

theorem wordPieceValidation_safe : ∀ piece : WordPiece,
    wordPieceValidation P piece = .Safe ↔ piece.plain = true
  | .text _ | .singleQuotedText _ | .ansiCQuotedText _ | .escapeSequence _ | .tildePrefix _ => by
      simp [wordPieceValidation, WordPiece.plain]
  | .doubleQuotedSequence pieces => by
      simp only [wordPieceValidation, WordPiece.plain, combineValidations_safe]
      exact wordPiecesValidation_safe pieces
  | .gettextDoubleQuotedSequence pieces => by
      simp only [wordPieceValidation, WordPiece.plain, combineValidations_safe]
      exact wordPiecesValidation_safe pieces
  | .parameterExpansion | .arithmeticExpression => by simp [wordPieceValidation, WordPiece.plain]
  | .commandSubstitution command | .backquotedCommandSubstitution command => by
      -- whether the text of the substitution parses or not
      cases h : P.parseProgram command <;> simp [wordPieceValidation, WordPiece.plain, h]

theorem wordPiecesValidation_safe : ∀ pieces : List (WordPiece × Nat × Nat),
    (∀ v ∈ wordPiecesValidation P pieces, v = .Safe) ↔ plainPieces pieces = true
  | [] => by simp [wordPiecesValidation, plainPieces]
  | (piece, _, _) :: pieces => by
      simp only [wordPiecesValidation, plainPieces, forall_mem_cons, Bool.and_eq_true,
        wordPieceValidation_safe piece, wordPiecesValidation_safe pieces]

end

@[simp]
theorem wordValidation_safe (w : Word) : wordValidation P w = .Safe ↔ P.plain w = true := by
  unfold wordValidation Parser.plain
  cases P.parseWord w.value with
  | none => simp
  | some pieces => simpa using wordPiecesValidation_safe P pieces

/-- A verdict is `Safe` when the parts are. -/
def Validates (v : Validation) (parts : List Part) : Prop := v = .Safe ↔ ∀ p ∈ parts, p.Safe P

def ValidatesAll (vs : List Validation) (parts : List Part) : Prop :=
  (∀ v ∈ vs, v = .Safe) ↔ ∀ p ∈ parts, p.Safe P

section

variable {P} {v : Validation} {vs ws : List Validation} {as bs : List Part}

theorem validatesAll_nil : ValidatesAll P [] [] := by simp [ValidatesAll]

theorem Validates.cons (hv : Validates P v as) (h : ValidatesAll P vs bs) : ValidatesAll P (v :: vs) (as ++ bs) := by
  rw [ValidatesAll, forall_mem_cons, forall_mem_append]
  exact and_congr hv h

theorem Validates.one (hv : Validates P v as) : ValidatesAll P [v] as := by
  simpa using hv.cons validatesAll_nil

theorem ValidatesAll.append (h : ValidatesAll P vs as) (h' : ValidatesAll P ws bs) :
    ValidatesAll P (vs ++ ws) (as ++ bs) := by
  rw [ValidatesAll, forall_mem_append, forall_mem_append]
  exact and_congr h h'

theorem ValidatesAll.combine (h : ValidatesAll P vs as) : Validates P (combineValidations vs) as :=
  (combineValidations_safe vs).trans h

end

theorem validates_word (w : Word) : Validates P (wordValidation P w) [.word w] := by
  simp [Validates, Part.Safe]

theorem validates_safe {part : Part} (h : part.Safe P) : Validates P .Safe [part] := by
  simp [Validates, h]

theorem validates_unsafe {part : Part} {parts : List Part} (h : ¬part.Safe P) :
    Validates P .Unsafe (part :: parts) := by
  simp [Validates, h]

theorem wordsValidation_safe (words : List Word) :
    ValidatesAll P (words.map (wordValidation P)) (words.map .word) := by
  simp [ValidatesAll, Part.Safe]

theorem assignmentValidation_safe (a : Assignment) (raw : List Char) :
    ValidatesAll P [assignmentValidation P a, wordValidation P (a.word raw)] (a.parts raw) := by
  unfold assignmentValidation Assignment.parts
  cases a.value with
  | scalar w => exact (validates_word P w).cons (validates_word P _).one
  | array elements =>
    have h : (elements.flatMap fun e =>
        e.1.toList.map (wordValidation P) ++ [wordValidation P e.2]) =
        (elements.flatMap fun e => e.1.toList ++ [e.2]).map (wordValidation P) := by
      simp [map_flatMap]
    dsimp only
    rw [h]
    exact (wordsValidation_safe P _).combine.cons (validates_word P _).one

theorem extendedTestExprValidation_safe : ∀ e : ExtendedTestExpr,
    Validates P (extendedTestExprValidation P e) e.parts
  | .not e | .parenthesized e => extendedTestExprValidation_safe e
  | .and left right | .or left right =>
    ((extendedTestExprValidation_safe left).cons (extendedTestExprValidation_safe right).one).combine
  | .unaryTest w => validates_word P w
  | .binaryTest left right => ((validates_word P left).cons (validates_word P right).one).combine

mutual

theorem commandValidation_safe : ∀ c : Command, Validates P (commandValidation P c) c.parts
  | .simple c => simpleCommandValidation_safe c
  | .compound c redirects | .function c redirects =>
    ((compoundCommandValidation_safe c).cons (redirectsValidation_safe redirects).combine.one).combine
  | .extendedTest e => extendedTestExprValidation_safe P e

theorem simpleCommandValidation_safe : ∀ c : SimpleCommand,
    Validates P (simpleCommandValidation P c) c.parts
  | .mk front wordOrName suffix => by
      have h := ((itemsValidation_safe front).combine.cons ((wordsValidation_safe P wordOrName.toList).append
        (itemsValidation_safe suffix).combine.one)).combine
      rw [Validates, SimpleCommand.parts, forall_mem_cons]
      exact h.trans (and_iff_right trivial).symm

theorem itemsValidation_safe : ∀ items : List Item, ValidatesAll P (itemsValidation P items) (itemParts items)
  | [] => validatesAll_nil
  | item :: items => (itemValidation_safe item).cons (itemsValidation_safe items)

theorem itemValidation_safe : ∀ item : Item, Validates P (itemValidation P item) item.parts
  | .ioRedirect r => ioRedirectValidation_safe r
  | .word w => validates_word P w
  | .assignmentWord a raw => (assignmentValidation_safe P a raw).combine
  | .processSubstitution _ => validates_unsafe P id

theorem redirectsValidation_safe : ∀ redirects : List IoRedirect,
    ValidatesAll P (redirectsValidation P redirects) (redirectParts redirects)
  | [] => validatesAll_nil
  | r :: redirects => (ioRedirectValidation_safe r).cons (redirectsValidation_safe redirects)

theorem ioRedirectValidation_safe : ∀ r : IoRedirect, Validates P (ioRedirectValidation P r) r.parts
  | .file fd kind target => targetValidation_safe fd kind target
  | .hereDocument _ false _ => by simp [Validates, ioRedirectValidation, IoRedirect.parts]
  | .hereDocument _ true doc => validates_word P doc
  | .hereString _ w => validates_word P w
  | .outputAndError w append => by simp [Validates, ioRedirectValidation, IoRedirect.parts, Part.Safe]

theorem targetValidation_safe (fd : Option Nat) (kind : IoFileRedirectKind) :
    ∀ target : IoFileRedirectTarget, Validates P (targetValidation P target) (target.parts fd kind)
  | .filename w => by simp [Validates, targetValidation, IoFileRedirectTarget.parts, Part.Safe]
  | .fd _ => by simp [Validates, targetValidation, IoFileRedirectTarget.parts]
  | .processSubstitution _ => validates_unsafe P id
  | .duplicate _ => validates_safe P trivial

theorem compoundCommandValidation_safe : ∀ c : CompoundCommand,
    Validates P (compoundCommandValidation P c) c.parts
  | .braceGroup list | .subshell list => compoundListValidation_safe list
  | .forClause values body =>
    ((wordsValidation_safe P values).append (compoundListValidation_safe body).one).combine
  | .caseClause value cases => ((validates_word P value).cons (casesValidation_safe cases)).combine
  | .ifClause condition body elses => ((compoundListValidation_safe condition).cons
      ((compoundListValidation_safe body).cons (elsesValidation_safe elses))).combine
  | .whileClause condition body | .untilClause condition body =>
    ((compoundListValidation_safe condition).cons (compoundListValidation_safe body).one).combine
  | .arithmeticForClause _ | .arithmetic => validates_unsafe P id

theorem casesValidation_safe : ∀ cases : List CaseItem,
    ValidatesAll P (caseBodiesValidation P cases ++ casePatternsValidation P cases) (caseParts cases)
  | [] => validatesAll_nil
  | .mk patterns cmd :: cases => by
      have hc := compoundListValidation_safe cmd
      have hp := wordsValidation_safe P patterns
      have ih := casesValidation_safe cases
      simp only [Validates, ValidatesAll, forall_mem_append] at hc hp ih
      simp only [ValidatesAll, caseBodiesValidation, casePatternsValidation, caseParts, forall_mem_cons,
        forall_mem_append, hc, hp, ← ih]
      tauto

theorem elsesValidation_safe : ∀ elses : List ElseClause,
    ValidatesAll P (elsesValidation P elses) (elseParts elses)
  | [] => validatesAll_nil
  | .mk condition body :: elses => (compoundListValidation_safe condition).cons
      ((compoundListValidation_safe body).cons (elsesValidation_safe elses))

theorem compoundListValidation_safe : ∀ list : CompoundList,
    Validates P (compoundListValidation P list) list.parts
  | .mk items => (andOrListsValidation_safe items).combine

theorem andOrListsValidation_safe : ∀ lists : List AndOrList,
    ValidatesAll P (andOrListsValidation P lists) (andOrListParts lists)
  | [] => validatesAll_nil
  | list :: lists => (andOrListValidation_safe list).cons (andOrListsValidation_safe lists)

theorem andOrListValidation_safe : ∀ list : AndOrList, Validates P (andOrListValidation P list) list.parts
  | .mk first additional => ((pipelineValidation_safe first).cons (andOrsValidation_safe additional)).combine

theorem andOrsValidation_safe : ∀ additional : List AndOr,
    ValidatesAll P (andOrsValidation P additional) (andOrParts additional)
  | [] => validatesAll_nil
  | .and p :: additional | .or p :: additional =>
    (pipelineValidation_safe p).cons (andOrsValidation_safe additional)

theorem pipelineValidation_safe : ∀ p : Pipeline, Validates P (pipelineValidation P p) p.parts
  | .mk seq => (commandsValidation_safe seq).combine

theorem commandsValidation_safe : ∀ seq : List Command,
    ValidatesAll P (commandsValidation P seq) (commandParts seq)
  | [] => validatesAll_nil
  | c :: seq => (commandValidation_safe c).cons (commandsValidation_safe seq)

end

theorem programValidation_safe (program : Program) :
    programValidation P program = .Safe ↔ ∀ p ∈ program.parts, Part.Safe P p := by
  have hlist : ∀ l, compoundListValidation P l = .Safe ↔ ∀ p ∈ l.parts, p.Safe P := compoundListValidation_safe P
  simp only [programValidation, combineValidations_safe, List.forall_mem_map, hlist, Program.parts, mem_flatMap]
  exact ⟨fun h p ⟨l, hl, hp⟩ => h l hl p hp, fun h l hl p hp => h p ⟨l, hl, hp⟩⟩

end

end SpkEditor.Shell
