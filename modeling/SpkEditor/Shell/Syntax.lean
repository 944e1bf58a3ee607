import SpkEditor.Lib.Utf8

/-!
# Shell syntax

The syntax tree of `brush_parser`, as far as `shell_command_parser` looks at it, and the two
functions of that crate: `parse_program` on a text, and `word::parse` on the raw text of a
word. A list that may be missing is a list here; nobody tells a missing one from an empty one.
-/

namespace SpkEditor.Shell

structure Word where
  value : List Char

/-- The pieces of a word. A quoted sequence holds pieces with the places where they start and
end in the word. -/
inductive WordPiece where
  | text (t : List Char)
  | singleQuotedText (t : List Char)
  | ansiCQuotedText (t : List Char)
  | doubleQuotedSequence (pieces : List (WordPiece × Nat × Nat))
  | gettextDoubleQuotedSequence (pieces : List (WordPiece × Nat × Nat))
  | tildePrefix (user : List Char)
  | parameterExpansion
  | commandSubstitution (command : List Char)
  | backquotedCommandSubstitution (command : List Char)
  | escapeSequence (t : List Char)
  | arithmeticExpression

inductive AssignmentValue where
  | scalar (value : Word)
  | array (elements : List (Option Word × Word))

structure Assignment where
  name : List Char
  value : AssignmentValue
  append : Bool

/-- What stands in front of the value of an assignment. -/
def Assignment.lead (a : Assignment) : List Char := a.name ++ if a.append then ['+', '='] else ['=']

inductive IoFileRedirectKind where
  | read
  | write
  | append
  | readAndWrite
  | clobber
  | duplicateInput
  | duplicateOutput
  deriving DecidableEq

inductive ExtendedTestExpr where
  | not (e : ExtendedTestExpr)
  | and (left right : ExtendedTestExpr)
  | or (left right : ExtendedTestExpr)
  | parenthesized (e : ExtendedTestExpr)
  | unaryTest (w : Word)
  | binaryTest (left right : Word)

mutual

inductive Command where
  | simple (c : SimpleCommand)
  | compound (c : CompoundCommand) (redirects : List IoRedirect)
  | function (body : CompoundCommand) (redirects : List IoRedirect)
  | extendedTest (e : ExtendedTestExpr)

inductive SimpleCommand where
  | mk (front : List Item) (wordOrName : Option Word) (suffix : List Item)

/-- What may stand before or behind the name of a command. The word of an assignment is the
assignment as it was written: `raw` is what stands behind the sign. -/
inductive Item where
  | ioRedirect (r : IoRedirect)
  | word (w : Word)
  | assignmentWord (a : Assignment) (raw : List Char)
  | processSubstitution (list : CompoundList)

inductive IoRedirect where
  | file (fd : Option Nat) (kind : IoFileRedirectKind) (target : IoFileRedirectTarget)
  | hereDocument (fd : Option Nat) (requiresExpansion : Bool) (doc : Word)
  | hereString (fd : Option Nat) (w : Word)
  | outputAndError (w : Word) (append : Bool)

inductive IoFileRedirectTarget where
  | filename (w : Word)
  | fd (n : Nat)
  | processSubstitution (list : CompoundList)
  | duplicate (w : Word)

inductive CompoundCommand where
  | braceGroup (list : CompoundList)
  | subshell (list : CompoundList)
  | forClause (values : List Word) (body : CompoundList)
  | caseClause (value : Word) (cases : List CaseItem)
  | ifClause (condition body : CompoundList) (elses : List ElseClause)
  | whileClause (condition body : CompoundList)
  | untilClause (condition body : CompoundList)
  | arithmeticForClause (body : CompoundList)
  | arithmetic

inductive CaseItem where
  | mk (patterns : List Word) (cmd : CompoundList)

inductive ElseClause where
  | mk (condition body : CompoundList)

inductive CompoundList where
  | mk (items : List AndOrList)

inductive AndOrList where
  | mk (first : Pipeline) (additional : List AndOr)

inductive AndOr where
  | and (p : Pipeline)
  | or (p : Pipeline)

inductive Pipeline where
  | mk (seq : List Command)

end

structure Program where
  completeCommands : List CompoundList

/-- `brush_parser`: a text as a program, and a word as pieces, each with its place in the word.
`none` is a parse error. -/
structure Parser where
  parseProgram : List Char → Option Program
  parseWord : List Char → Option (List (WordPiece × Nat × Nat))

def Assignment.word (a : Assignment) (raw : List Char) : Word := ⟨a.lead ++ raw⟩

end SpkEditor.Shell
