import SpkEditor.Shell.Syntax

/-!
# Validation

`validate_terminal_command`: a program is safe if no word that the validator looks at holds a
substitution.
-/

namespace SpkEditor.Shell

/-- `TerminalCommandValidation`, and `TerminalProgramValidation` inside of it. -/
inductive Validation where
  | Safe
  | Unsafe
  | Unsupported
  deriving DecidableEq

/-- `combine_validations`. -/
def combineValidations (validations : List Validation) : Validation :=
  if validations.any (· == .Unsafe) then .Unsafe
  else if validations.any (· == .Unsupported) then .Unsupported
  else .Safe

section

variable (P : Parser)

mutual

/-- `word_piece_validation`. -/
def wordPieceValidation : WordPiece → Validation
  | .text _ | .singleQuotedText _ | .ansiCQuotedText _ | .escapeSequence _ | .tildePrefix _ => .Safe
  | .doubleQuotedSequence pieces => combineValidations (wordPiecesValidation pieces)
  | .gettextDoubleQuotedSequence pieces => combineValidations (wordPiecesValidation pieces)
  | .parameterExpansion | .arithmeticExpression => .Unsafe
  | .commandSubstitution command | .backquotedCommandSubstitution command =>
    match P.parseProgram command with
    | some _ => .Unsafe
    | none => .Unsupported

def wordPiecesValidation : List (WordPiece × Nat × Nat) → List Validation
  | [] => []
  | (piece, _, _) :: pieces => wordPieceValidation piece :: wordPiecesValidation pieces

end

/-- `word_validation`. -/
def wordValidation (w : Word) : Validation :=
  match P.parseWord w.value with
  | none => .Unsupported
  | some pieces => combineValidations (wordPiecesValidation P pieces)

/-- `assignment_validation`. -/
def assignmentValidation (a : Assignment) : Validation :=
  match a.value with
  | .scalar w => wordValidation P w
  | .array elements => combineValidations (elements.flatMap fun e =>
    (e.1.toList.map (wordValidation P)) ++ [wordValidation P e.2])

/-- `extended_test_expr_inner_validation`. -/
def extendedTestExprValidation : ExtendedTestExpr → Validation
  | .not e => extendedTestExprValidation e
  | .parenthesized e => extendedTestExprValidation e
  | .and left right =>
    combineValidations [extendedTestExprValidation left, extendedTestExprValidation right]
  | .or left right =>
    combineValidations [extendedTestExprValidation left, extendedTestExprValidation right]
  | .unaryTest w => wordValidation P w
  | .binaryTest left right => combineValidations [wordValidation P left, wordValidation P right]

mutual

/-- `command_validation`. A function is validated like its body (`function_body_validation`). -/
def commandValidation : Command → Validation
  | .simple c => simpleCommandValidation c
  | .compound c redirects =>
    combineValidations [compoundCommandValidation c, combineValidations (redirectsValidation redirects)]
  | .function body redirects =>
    combineValidations
      [compoundCommandValidation body, combineValidations (redirectsValidation redirects)]
  | .extendedTest e => extendedTestExprValidation P e

/-- `simple_command_validation`. -/
def simpleCommandValidation : SimpleCommand → Validation
  | .mk front wordOrName suffix =>
    combineValidations (combineValidations (itemsValidation front) ::
      (wordOrName.toList.map (wordValidation P) ++ [combineValidations (itemsValidation suffix)]))

def itemsValidation : List Item → List Validation
  | [] => []
  | item :: items => itemValidation item :: itemsValidation items

/-- `prefix_or_suffix_item_validation`. -/
def itemValidation : Item → Validation
  | .ioRedirect r => ioRedirectValidation r
  | .word w => wordValidation P w
  | .assignmentWord a raw =>
    combineValidations [assignmentValidation P a, wordValidation P (a.word raw)]
  | .processSubstitution _ => .Unsafe

/-- `redirect_list_validation`, before the results are combined. -/
def redirectsValidation : List IoRedirect → List Validation
  | [] => []
  | r :: redirects => ioRedirectValidation r :: redirectsValidation redirects

/-- `io_redirect_validation`. -/
def ioRedirectValidation : IoRedirect → Validation
  | .file _ _ target => targetValidation target
  | .hereDocument _ requiresExpansion doc =>
    if requiresExpansion then wordValidation P doc else .Safe
  | .hereString _ w => wordValidation P w
  | .outputAndError w _ => wordValidation P w

def targetValidation : IoFileRedirectTarget → Validation
  | .filename w => wordValidation P w
  | .processSubstitution _ => .Unsafe
  | .fd _ => .Safe
  | .duplicate _ => .Safe

/-- `compound_command_validation`. -/
def compoundCommandValidation : CompoundCommand → Validation
  | .braceGroup list => compoundListValidation list
  | .subshell list => compoundListValidation list
  | .forClause values body =>
    combineValidations (values.map (wordValidation P) ++ [compoundListValidation body])
  | .caseClause value cases =>
    combineValidations (wordValidation P value ::
      (caseBodiesValidation cases ++ casePatternsValidation cases))
  | .ifClause condition body elses =>
    combineValidations (compoundListValidation condition :: compoundListValidation body ::
      elsesValidation elses)
  | .whileClause condition body =>
    combineValidations [compoundListValidation condition, compoundListValidation body]
  | .untilClause condition body =>
    combineValidations [compoundListValidation condition, compoundListValidation body]
  | .arithmeticForClause _ => .Unsafe
  | .arithmetic => .Unsafe

def caseBodiesValidation : List CaseItem → List Validation
  | [] => []
  | .mk _ cmd :: cases => compoundListValidation cmd :: caseBodiesValidation cases

def casePatternsValidation : List CaseItem → List Validation
  | [] => []
  | .mk patterns _ :: cases => patterns.map (wordValidation P) ++ casePatternsValidation cases

def elsesValidation : List ElseClause → List Validation
  | [] => []
  | .mk condition body :: elses =>
    compoundListValidation condition :: compoundListValidation body :: elsesValidation elses

/-- `compound_list_validation`. -/
def compoundListValidation : CompoundList → Validation
  | .mk items => combineValidations (andOrListsValidation items)

def andOrListsValidation : List AndOrList → List Validation
  | [] => []
  | list :: lists => andOrListValidation list :: andOrListsValidation lists

/-- `and_or_list_validation`. -/
def andOrListValidation : AndOrList → Validation
  | .mk first additional =>
    combineValidations (pipelineValidation first :: andOrsValidation additional)

def andOrsValidation : List AndOr → List Validation
  | [] => []
  | .and p :: additional => pipelineValidation p :: andOrsValidation additional
  | .or p :: additional => pipelineValidation p :: andOrsValidation additional

/-- `pipeline_validation`. -/
def pipelineValidation : Pipeline → Validation
  | .mk seq => combineValidations (commandsValidation seq)

def commandsValidation : List Command → List Validation
  | [] => []
  | c :: commands => commandValidation c :: commandsValidation commands

end

/-- `program_validation`. -/
def programValidation (program : Program) : Validation :=
  combineValidations (program.completeCommands.map (compoundListValidation P))

/-- `validate_terminal_command`. -/
def validateTerminalCommand (command : List Char) : Validation :=
  match P.parseProgram command with
  | none => .Unsupported
  | some program => programValidation P program

end

end SpkEditor.Shell
