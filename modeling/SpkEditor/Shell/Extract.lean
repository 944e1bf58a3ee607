import SpkEditor.Shell.Syntax

/-!
# Extraction

`extract_commands`: the texts that the permission rules see. A simple command becomes its words
without their quotes, a redirect to a file its operator and its target; where a word cannot be
normalised the extraction gives up.
-/

namespace SpkEditor.Shell

/-- `str::split_at_checked`. -/
def splitAtByte : Nat → List Char → Option (List Char × List Char)
  | 0, text => some ([], text)
  | _ + 1, [] => none
  | n + 1, c :: text =>
    if c.utf8Size ≤ n + 1 then
      (splitAtByte (n + 1 - c.utf8Size) text).map fun s => (c :: s.1, s.2)
    else none

/-- `str::get` of a range. -/
def strGet (text : List Char) (start stop : Nat) : Option (List Char) :=
  if start ≤ stop then do
    let (_, rest) ← splitAtByte start text
    let (middle, _) ← splitAtByte (stop - start) rest
    some middle
  else none

/-- `[String]::join` with a space. -/
def joinWords (words : List (List Char)) : List Char := [' '].intercalate words

/-- `shell_value_requires_quoting`. White space is in none of the ranges. -/
def shellValueRequiresQuoting (value : List Char) : Bool :=
  value.any fun c =>
    !(('a' ≤ c && c ≤ 'z') || ('A' ≤ c && c ≤ 'Z') || ('0' ≤ c && c ≤ '9') ||
      ['_', '@', '%', '+', '=', ':', ',', '.', '/', '-'].any (· == c))

/-- `is_known_safe_redirect_target`. -/
def isKnownSafeRedirectTarget (normalizedTarget : List Char) : Bool :=
  normalizedTarget == "/dev/null".toList

/-- How `normalize_io_redirect` writes the kind of a redirect. -/
def IoFileRedirectKind.operator : IoFileRedirectKind → List Char
  | .read => ['<']
  | .write => ['>']
  | .append => ['>', '>']
  | .readAndWrite => ['<', '>']
  | .clobber => ['>', '|']
  | .duplicateInput => ['<', '&']
  | .duplicateOutput => ['>', '&']

/-- A file descriptor in front of an operator. -/
def fdText : Option Nat → List Char
  | none => []
  | some fd => Nat.toDigits 10 fd

def outputAndErrorOperator (append : Bool) : List Char :=
  if append then ['&', '>', '>'] else ['&', '>']

section

variable (P : Parser)

mutual

/-- `normalize_word_piece_into`: what the piece adds to the word. -/
def normalizeWordPiece (raw : List Char) : WordPiece → Nat → Nat → Option (List Char)
  | .text t, _, _ => some t
  | .singleQuotedText t, _, _ => some t
  | .ansiCQuotedText t, _, _ => some t
  | .escapeSequence t, _, _ =>
    match t with
    | '\\' :: rest => some rest
    | _ => some t
  | .doubleQuotedSequence pieces, _, _ => normalizeWordPieces raw pieces
  | .gettextDoubleQuotedSequence pieces, _, _ => normalizeWordPieces raw pieces
  | .tildePrefix user, _, _ => some ('~' :: user)
  -- a substitution stays as it was written
  | .parameterExpansion, start, stop => strGet raw start stop
  | .commandSubstitution _, start, stop => strGet raw start stop
  | .backquotedCommandSubstitution _, start, stop => strGet raw start stop
  | .arithmeticExpression, start, stop => strGet raw start stop

def normalizeWordPieces (raw : List Char) : List (WordPiece × Nat × Nat) → Option (List Char)
  | [] => some []
  | (piece, start, stop) :: pieces => do
      let text ← normalizeWordPiece raw piece start stop
      let rest ← normalizeWordPieces raw pieces
      some (text ++ rest)

end

/-- `normalize_word`. -/
def normalizeWord (w : Word) : Option (List Char) :=
  (P.parseWord w.value).bind (normalizeWordPieces w.value)

/-- `normalize_assignment_for_command_prefix`: an array is skipped, which is the inner `none`.
The word of the assignment is its lead and `raw`, so the lead can always be stripped. -/
def normalizeAssignment (a : Assignment) (raw : List Char) : Option (Option (List Char)) :=
  match a.value with
  | .scalar value => (normalizeWord P value).map fun normalized =>
    some (a.lead ++ if shellValueRequiresQuoting normalized then raw else normalized)
  | .array _ => some none

/-- The last part of `normalize_io_redirect`, for a target that is a word; the inner `none` is
`Skip`. -/
def normalizeTarget (operator : List Char) (target : Word) : Option (Option (List Char)) :=
  (normalizeWord P target).map fun normalized =>
    if isKnownSafeRedirectTarget normalized then none else some (operator ++ ' ' :: normalized)

/-- `normalize_io_redirect`. -/
def normalizeIoRedirect : IoRedirect → Option (Option (List Char))
  | .file fd kind (.filename w) => normalizeTarget P (fdText fd ++ kind.operator) w
  | .file _ _ _ => some none
  | .outputAndError w append => normalizeTarget P (outputAndErrorOperator append) w
  | .hereDocument _ _ _ => some none
  | .hereString _ _ => some none

/-- The words and the redirects that the items before (`front`) or behind the name of a simple
command give it. -/
def normalizeItems (front : Bool) : List Item → Option (List (List Char) × List (List Char))
  | [] => some ([], [])
  | .ioRedirect r :: items => do
      let redirect ← normalizeIoRedirect P r
      let (words, redirects) ← normalizeItems front items
      some (words, redirect.toList ++ redirects)
  | .assignmentWord a raw :: items => do
      let assignment ← normalizeAssignment P a raw
      let (words, redirects) ← normalizeItems front items
      some (assignment.toList ++ words, redirects)
  | .word w :: items => do
      let word ← normalizeWord P w
      let (words, redirects) ← normalizeItems front items
      some (word :: words, redirects)
  | .processSubstitution _ :: items => if front then none else normalizeItems front items

def normalizeName : Option Word → Option (List (List Char))
  | none => some []
  | some w => (normalizeWord P w).map ([·])

/-- The first half of `extract_commands_from_simple_command`: the words of the command and its
redirects. -/
def normalizeSimpleCommand (front : List Item) (wordOrName : Option Word) (suffix : List Item) :
    Option (List (List Char) × List (List Char)) := do
  let (frontWords, frontRedirects) ← normalizeItems P true front
  let name ← normalizeName P wordOrName
  let (suffixWords, suffixRedirects) ← normalizeItems P false suffix
  some (frontWords ++ (name ++ suffixWords), frontRedirects ++ suffixRedirects)

/-- The redirects of a compound command that are not skipped. -/
def normalizeRedirects : List IoRedirect → Option (List (List Char))
  | [] => some []
  | r :: redirects => do
      let redirect ← normalizeIoRedirect P r
      let rest ← normalizeRedirects redirects
      some (redirect.toList ++ rest)

-- `extract_commands` on the text of a substitution
variable (nested : List Char → Option (List (List Char)))

mutual

/-- `extract_commands_from_word_piece`. -/
def extractFromWordPiece : WordPiece → List (List Char) → Option (List (List Char))
  | .commandSubstitution command, commands => (nested command).map (commands ++ ·)
  | .backquotedCommandSubstitution command, commands => (nested command).map (commands ++ ·)
  | .doubleQuotedSequence pieces, commands => extractFromWordPieces pieces commands
  | .gettextDoubleQuotedSequence pieces, commands => extractFromWordPieces pieces commands
  | _, commands => some commands

def extractFromWordPieces : List (WordPiece × Nat × Nat) → List (List Char) →
    Option (List (List Char))
  | [], commands => some commands
  | (piece, _, _) :: pieces, commands =>
    (extractFromWordPiece piece commands).bind (extractFromWordPieces pieces)

end

/-- `extract_commands_from_word`. -/
def extractFromWord (w : Word) (commands : List (List Char)) : Option (List (List Char)) :=
  (P.parseWord w.value).bind fun pieces => extractFromWordPieces nested pieces commands

def extractFromWords : List Word → List (List Char) → Option (List (List Char))
  | [], commands => some commands
  | w :: words, commands => (extractFromWord P nested w commands).bind (extractFromWords words)

/-- `extract_commands_from_assignment`. -/
def extractFromAssignment (a : Assignment) (commands : List (List Char)) :
    Option (List (List Char)) :=
  match a.value with
  | .scalar w => extractFromWord P nested w commands
  | .array elements =>
    extractFromWords P nested (elements.flatMap fun e => e.1.toList ++ [e.2]) commands

/-- `extract_commands_from_extended_test_expr_inner`. -/
def extractFromExtendedTestExpr : ExtendedTestExpr → List (List Char) → Option (List (List Char))
  | .not e, commands => extractFromExtendedTestExpr e commands
  | .parenthesized e, commands => extractFromExtendedTestExpr e commands
  | .and left right, commands =>
    (extractFromExtendedTestExpr left commands).bind (extractFromExtendedTestExpr right)
  | .or left right, commands =>
    (extractFromExtendedTestExpr left commands).bind (extractFromExtendedTestExpr right)
  | .unaryTest w, commands => extractFromWord P nested w commands
  | .binaryTest left right, commands =>
    (extractFromWord P nested left commands).bind (extractFromWord P nested right)

mutual

/-- `extract_commands_from_command`. A function is its body (`extract_commands_from_function_body`,
which does what is done for a compound command). -/
def extractFromCommand : Command → List (List Char) → Option (List (List Char))
  | .simple c, commands => extractFromSimpleCommand c commands
  | .compound c redirects, commands => do
      let (commands, bodyStart) ← extractFromCompoundCommand c commands
      let normalizedRedirects ← normalizeRedirects P redirects
      -- a redirect of a body that runs nothing has no command to be read with
      if normalizedRedirects ≠ [] ∧ commands.length ≤ bodyStart then none
      else extractFromIoRedirects redirects (commands ++ normalizedRedirects)
  | .function body redirects, commands => do
      let (commands, bodyStart) ← extractFromCompoundCommand body commands
      let normalizedRedirects ← normalizeRedirects P redirects
      if normalizedRedirects ≠ [] ∧ commands.length ≤ bodyStart then none
      else extractFromIoRedirects redirects (commands ++ normalizedRedirects)
  | .extendedTest e, commands => extractFromExtendedTestExpr P nested e commands

/-- `extract_commands_from_simple_command`. -/
def extractFromSimpleCommand : SimpleCommand → List (List Char) → Option (List (List Char))
  | .mk front wordOrName suffix, commands => do
      let (words, redirects) ← normalizeSimpleCommand P front wordOrName suffix
      if words = [] ∧ redirects ≠ [] then none
      else
        let commandStr := joinWords words
        let commands := commands ++ ((if commandStr = [] then [] else [commandStr]) ++ redirects)
        let commands ← extractFromItems front commands
        let commands ← extractFromWords P nested wordOrName.toList commands
        extractFromItems suffix commands

def extractFromItems : List Item → List (List Char) → Option (List (List Char))
  | [], commands => some commands
  | item :: items, commands => (extractFromItem item commands).bind (extractFromItems items)

/-- `extract_commands_from_prefix_or_suffix_item`. -/
def extractFromItem : Item → List (List Char) → Option (List (List Char))
  | .ioRedirect r, commands => extractFromIoRedirect r commands
  | .assignmentWord a _, commands => extractFromAssignment P nested a commands
  | .word w, commands => extractFromWord P nested w commands
  | .processSubstitution list, commands => extractFromCompoundList list commands

def extractFromIoRedirects : List IoRedirect → List (List Char) → Option (List (List Char))
  | [], commands => some commands
  | r :: redirects, commands =>
    (extractFromIoRedirect r commands).bind (extractFromIoRedirects redirects)

/-- `extract_commands_from_io_redirect`. -/
def extractFromIoRedirect : IoRedirect → List (List Char) → Option (List (List Char))
  | .file _ _ target, commands => extractFromTarget target commands
  | .hereDocument _ requiresExpansion doc, commands =>
    if requiresExpansion then extractFromWord P nested doc commands else some commands
  | .hereString _ w, commands => extractFromWord P nested w commands
  | .outputAndError w _, commands => extractFromWord P nested w commands

def extractFromTarget : IoFileRedirectTarget → List (List Char) → Option (List (List Char))
  | .processSubstitution list, commands => extractFromCompoundList list commands
  | .filename w, commands => extractFromWord P nested w commands
  | .fd _, commands => some commands
  | .duplicate _, commands => some commands

/-- `extract_commands_from_compound_command`, with the place where the commands of the body
start. -/
def extractFromCompoundCommand : CompoundCommand → List (List Char) →
    Option (List (List Char) × Nat)
  | .braceGroup list, commands =>
    (extractFromCompoundList list commands).map (·, commands.length)
  | .subshell list, commands =>
    (extractFromCompoundList list commands).map (·, commands.length)
  | .forClause values body, commands => do
      let commands ← extractFromWords P nested values commands
      (extractFromCompoundList body commands).map (·, commands.length)
  | .caseClause value cases, commands => do
      let commands ← extractFromWord P nested value commands
      (extractFromCases cases commands).map (·, commands.length)
  | .ifClause condition body elses, commands => do
      let commands ← extractFromCompoundList condition commands
      ((extractFromCompoundList body commands).bind (extractFromElses elses)).map
        (·, commands.length)
  | .whileClause condition body, commands => do
      let commands ← extractFromCompoundList condition commands
      (extractFromCompoundList body commands).map (·, commands.length)
  | .untilClause condition body, commands => do
      let commands ← extractFromCompoundList condition commands
      (extractFromCompoundList body commands).map (·, commands.length)
  | .arithmeticForClause body, commands =>
    (extractFromCompoundList body commands).map (·, commands.length)
  | .arithmetic, commands => some (commands, commands.length)

def extractFromCases : List CaseItem → List (List Char) → Option (List (List Char))
  | [], commands => some commands
  | .mk _ cmd :: cases, commands =>
    (extractFromCompoundList cmd commands).bind (extractFromCases cases)

def extractFromElses : List ElseClause → List (List Char) → Option (List (List Char))
  | [], commands => some commands
  | .mk condition body :: elses, commands =>
    ((extractFromCompoundList condition commands).bind (extractFromCompoundList body)).bind
      (extractFromElses elses)

/-- `extract_commands_from_compound_list`. -/
def extractFromCompoundList : CompoundList → List (List Char) → Option (List (List Char))
  | .mk items, commands => extractFromAndOrLists items commands

def extractFromAndOrLists : List AndOrList → List (List Char) → Option (List (List Char))
  | [], commands => some commands
  | list :: lists, commands =>
    (extractFromAndOrList list commands).bind (extractFromAndOrLists lists)

/-- `extract_commands_from_and_or_list`. -/
def extractFromAndOrList : AndOrList → List (List Char) → Option (List (List Char))
  | .mk first additional, commands =>
    (extractFromPipeline first commands).bind (extractFromAndOrs additional)

def extractFromAndOrs : List AndOr → List (List Char) → Option (List (List Char))
  | [], commands => some commands
  | .and p :: additional, commands =>
    (extractFromPipeline p commands).bind (extractFromAndOrs additional)
  | .or p :: additional, commands =>
    (extractFromPipeline p commands).bind (extractFromAndOrs additional)

/-- `extract_commands_from_pipeline`. -/
def extractFromPipeline : Pipeline → List (List Char) → Option (List (List Char))
  | .mk seq, commands => extractFromCommands seq commands

def extractFromCommands : List Command → List (List Char) → Option (List (List Char))
  | [], commands => some commands
  | c :: seq, commands => (extractFromCommand c commands).bind (extractFromCommands seq)

end

/-- `extract_commands_from_program`. -/
def extractFromProgram : List CompoundList → List (List Char) → Option (List (List Char))
  | [], commands => some commands
  | list :: lists, commands =>
    (extractFromCompoundList P nested list commands).bind (extractFromProgram lists)

end

/-- `extract_commands`, as deep into substitutions as the fuel goes. -/
def extractCommandsTo (P : Parser) : Nat → List Char → Option (List (List Char))
  | 0, _ => none
  | fuel + 1, command =>
    (P.parseProgram command).bind fun program =>
      extractFromProgram P (extractCommandsTo P fuel) program.completeCommands []

/-- `extract_commands`. The text of a substitution is shorter than the text it stands in, so the
length of the text is fuel enough. -/
def extractCommands (P : Parser) (command : List Char) : Option (List (List Char)) :=
  extractCommandsTo P (command.length + 1) command

end SpkEditor.Shell
