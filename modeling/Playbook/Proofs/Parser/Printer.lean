import Playbook.Command.Parser
import Playbook.Proofs.Command
import Playbook.Proofs.Text
import Playbook.Proofs.Token.Nesting
import Playbook.Proofs.Token.Scanning

/-!
# Printing a command as a command file

`Command.source` writes a command in the form in which it is read, one line for each statement
without a block.  `Command.Printable` says which commands can be written at all: their names are
names, their literals can stand between quotation marks, and each text that is kept as written is a
properly nested run of tokens that is not taken for something else where it stands.
-/

namespace Playbook

/-- How a command file is laid out. -/
structure Layout where
  /-- The blanks that each level of blocks adds in front of a line. -/
  indent : List Char
  isBlank_of_mem : ∀ c ∈ indent, Text.isBlank c = true ∧ c ≠ '\n'
  /-- Whether an `else` stands on a line of its own, below the brace before it. -/
  elseBelow : Bool

/-! ### Texts -/

/-- A text between quotation marks. -/
def quote (content : List Char) : List Char := '"' :: (content ++ ['"'])

/-- A word with arguments in parentheses. -/
def callSource (word : List Char) (args : List (List Char)) : List Char :=
  word ++ '(' :: (Text.joinWith [',', ' '] args ++ [')'])

/-- A phrase as an argument. -/
def Phrase.source : Phrase → List Char
  | .literal text => quote text.toList
  | .reference expression => expression.toList

/-- A value as the right-hand side of an assignment. -/
def Value.source : Value → List Char
  | .str text => quote text.toList
  | .bool b => (if b then "true" else "false").toList
  | .array items =>
    '[' :: (Text.joinWith [',', ' '] (items.map fun item => quote item.toList) ++ [']'])
  | .expr expression => expression.toList

/-! ### Lines -/

/-- A keyword with a condition in parentheses. -/
def conditionSource (k : Keyword) (condition : String) : List Char :=
  k.spelling.toList ++ ' ' :: '(' :: (condition.toList ++ [')'])

/-- The lines of a block with what stands in front of it. -/
def blockLines (margin head : List Char) (body : List (List Char)) : List (List Char) :=
  (margin ++ (head ++ [' ', '{'])) :: (body ++ [margin ++ ['}']])

/-- The lines between the two blocks of a conditional. -/
def elseLines (layout : Layout) (margin : List Char) : List (List Char) :=
  if layout.elseBelow then [margin ++ ['}'], margin ++ ("else".toList ++ [' ', '{'])]
  else [margin ++ '}' :: ' ' :: ("else".toList ++ [' ', '{'])]

mutual

/-- The lines of a statement behind the given margin. -/
def Statement.lines (layout : Layout) (margin : List Char) : Statement → List (List Char)
  | .ask question => [margin ++ callSource Keyword.ask.spelling.toList [question.source]]
  | .confirm message =>
    [margin ++ callSource Keyword.confirm.spelling.toList [quote message.toList]]
  | .createFile filename content =>
    [margin ++ callSource Keyword.createFile.spelling.toList
      [quote filename.toList, content.source]]
  | .assign name value => [margin ++ (name.toList ++ ' ' :: '=' :: ' ' :: value.source)]
  | .call name args => [margin ++ callSource name.toList (args.map String.toList)]
  | .ifThen condition body =>
    blockLines margin (conditionSource .conditional condition)
      (statementsLines layout (margin ++ layout.indent) body)
  | .ifElse condition body otherwise =>
    blockLines margin (conditionSource .conditional condition)
      (statementsLines layout (margin ++ layout.indent) body ++ elseLines layout margin ++
        statementsLines layout (margin ++ layout.indent) otherwise)
  | .whileLoop condition body =>
    blockLines margin (conditionSource .whileLoop condition)
      (statementsLines layout (margin ++ layout.indent) body)
  | .forEach item iterable body =>
    blockLines margin
      (Keyword.forLoop.spelling.toList ++ ' ' :: (item.toList ++
        ' ' :: ("in".toList ++ ' ' :: iterable.toList)))
      (statementsLines layout (margin ++ layout.indent) body)
  | .stop => [margin ++ Keyword.stop.spelling.toList]
  | .waitForResponse => [margin ++ callSource Keyword.waitForResponse.spelling.toList []]
  | .task t => taskLines layout margin t
  | .parallel tasks =>
    blockLines margin Keyword.parallel.spelling.toList
      (tasksLines layout (margin ++ layout.indent) tasks)
  | .unknown kind => [margin ++ kind.toList]

/-- The lines of statements behind the given margin. -/
def statementsLines (layout : Layout) (margin : List Char) : List Statement → List (List Char)
  | [] => []
  | s :: rest => s.lines layout margin ++ statementsLines layout margin rest

/-- The lines of a task behind the given margin. -/
def taskLines (layout : Layout) (margin : List Char) : TaskOf Statement → List (List Char)
  | ⟨description, agent, body, none⟩ =>
    blockLines margin
      (Keyword.task.spelling.toList ++
        ' ' :: (agent.keyword.toList ++ ' ' :: quote description.toList))
      (statementsLines layout (margin ++ layout.indent) body)
  | ⟨_, agent, _, some file⟩ =>
    [margin ++ callSource Keyword.task.spelling.toList [quote file.toList, agent.keyword.toList]]

/-- The lines of tasks behind the given margin. -/
def tasksLines (layout : Layout) (margin : List Char) : List (TaskOf Statement) → List (List Char)
  | [] => []
  | t :: rest => taskLines layout margin t ++ tasksLines layout margin rest

end

/-- A command as a command file. -/
def Command.source (layout : Layout) (c : Command) : String :=
  String.ofList <| Text.ofLines <|
    blockLines [] ("command".toList ++ ' ' :: c.name.toList)
      (statementsLines layout layout.indent c.body)

/-! ### What can be printed -/

/-- Whether a text is a name. -/
def isName (name : List Char) : Bool := isIdentifier name && name.all isWordChar

theorem not_mem_of_isName {name : List Char} (h : isName name = true) {c : Char}
    (hc : isWordChar c = false) : c ∉ name := by
  intro hmem
  rw [isName, Bool.and_eq_true, List.all_eq_true] at h
  rw [h.2 c hmem] at hc
  cases hc

/-- The tokens of a text that is nothing but a properly nested run of them. -/
def runTokens? (text : List Char) : Option (List Token) :=
  match scan text with
  | .ok ⟨first :: rest, []⟩ =>
    if first.gap.isEmpty && nests [] (Token.lexemes (first :: rest)) then some (first :: rest)
    else none
  | _ => none

/-- The words that cannot be the name of a function. -/
def reservedNames : List String :=
  ["ask", "confirm", "create_file", "if", "while", "wait_for_response", "task"]

/-- Whether a phrase can be printed: a single string would be read as a literal. -/
def Phrase.isPrintable : Phrase → Bool
  | .literal text => isQuotable text.toList
  | .reference expression =>
    (runTokens? expression.toList).any fun tokens => (Token.literal? tokens).isNone

/-- Whether a value can be printed: an expression must not be read as a string, a truth value or an
array, and an array is cut at every comma. -/
def Value.isPrintable : Value → Bool
  | .str text => isQuotable text.toList
  | .bool _ => true
  | .array items => items.all fun item => isQuotable item.toList && !item.toList.contains ','
  | .expr expression =>
    (runTokens? expression.toList).any fun tokens =>
      (Token.literal? tokens).isNone && ((Token.word? tokens).bind truth?).isNone &&
        (Token.arrayInterior? tokens).isNone

/-- Whether a task can be printed: it is written out and has a description, or it names a file and
has nothing else. -/
def Task.isPrintable (t : Task) : Bool :=
  match t.file with
  | none => isQuotable t.description.toList && !t.description.toList.isEmpty
  | some file =>
    isQuotable file.toList && !file.toList.isEmpty && t.description.toList.isEmpty &&
      t.body.isEmpty

/-- Whether a statement can be printed if those in it can. -/
def Statement.isPrintable : Statement → Bool
  | .ask question => question.isPrintable
  | .confirm message => isQuotable message.toList
  | .createFile filename content => isQuotable filename.toList && content.isPrintable
  | .assign name value => isName name.toList && value.isPrintable
  | .call name args =>
    isName name.toList && !reservedNames.contains name &&
      args.all fun arg => (runTokens? arg.toList).isSome
  | .ifThen condition _ | .ifElse condition _ _ | .whileLoop condition _ =>
    (runTokens? condition.toList).isSome
  | .forEach item iterable _ => isName item.toList && (runTokens? iterable.toList).isSome
  | .stop | .waitForResponse | .parallel _ => true
  | .task t => Task.isPrintable t
  | .unknown _ => false

/-- A command that can be written as a command file. -/
structure Command.Printable (c : Command) : Prop where
  isName : isName c.name.toList = true
  everywhere : c.Everywhere fun s => s.isPrintable = true

end Playbook
