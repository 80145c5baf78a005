import Playbook.Command
import Playbook.Defect
import Playbook.Token.Lexer
import Playbook.Token.Nesting

/-!
# Reading a command

`Command.parse` reads a command file.  The grammar is line oriented: a statement starts with a word,
stays on its line up to the brace that opens its block, and nothing may follow it on the line of its
end.  Braces are paired up over the whole file before any statement is read, so that a stray one is
not reported as something else.

`statement` reads one statement with the help of a reader for blocks, and `block` ties the knot.
Its counter bounds the number of statements and is taken from the number of tokens, each statement
having at least one.
-/

namespace Playbook

/-- What reading the front of a list of tokens gives: a result, and the tokens that are left. -/
abbrev Parsed (α : Type) := α × List Token

/-- The words that open statements of their own. -/
inductive Keyword
  | ask
  | confirm
  | createFile
  | conditional
  | whileLoop
  | forLoop
  | task
  | parallel
  | stop
  | waitForResponse
  deriving DecidableEq, Repr

namespace Keyword

/-- Every keyword. -/
def all : List Keyword :=
  [.ask, .confirm, .createFile, .conditional, .whileLoop, .forLoop, .task, .parallel, .stop,
    .waitForResponse]

/-- A keyword as it is written. -/
def spelling : Keyword → String
  | .ask => "ask"
  | .confirm => "confirm"
  | .createFile => "create_file"
  | .conditional => "if"
  | .whileLoop => "while"
  | .forLoop => "for"
  | .task => "task"
  | .parallel => "parallel"
  | .stop => "break"
  | .waitForResponse => "wait_for_response"

/-- The keyword that a word is. -/
def ofWord? (letters : List Char) : Option Keyword :=
  all.find? fun k => k.spelling.toList == letters

@[simp] theorem ofWord?_spelling (k : Keyword) : ofWord? k.spelling.toList = some k := by
  cases k <;> decide +kernel

end Keyword

/-- A phrase from an argument: a single string is literal, anything else a reference. -/
def Phrase.ofTokens (tokens : List Token) : Phrase :=
  match Token.literal? tokens with
  | some content => .literal (String.ofList content)
  | none => .reference (String.ofList (Token.span tokens))

/-- An element of an array without one quotation mark at either end. -/
def unquote (item : List Char) : List Char :=
  let opened := match item with
    | c :: rest => if isQuote c then rest else item
    | [] => []
  match opened.getLast? with
  | some c => if isQuote c then opened.dropLast else opened
  | none => []

/-- The elements of an array from the text between its brackets, which is cut at every comma. -/
def arrayItems (interior : List Char) : List String :=
  if (Text.trim interior).isEmpty then []
  else (Text.splitOn ',' interior).map fun item => String.ofList (unquote (Text.trim item))

/-- The truth value that a word names. -/
def truth? (letters : List Char) : Option Bool :=
  if letters = "true".toList then some true
  else if letters = "false".toList then some false
  else none

/-- The value of the tokens on the right of an assignment. -/
def Value.ofTokens (tokens : List Token) : Value :=
  match Token.literal? tokens with
  | some content => .str (String.ofList content)
  | none =>
    match (Token.word? tokens).bind truth? with
    | some b => .bool b
    | none =>
      match Token.arrayInterior? tokens with
      | some interior => .array (arrayItems interior)
      | none => .expr (String.ofList (Token.span tokens))

namespace Parser

/-- Fails with the complaint about a form of statement. -/
def malformed {α : Type} (form : Form) (line : Nat) : Except Fault α :=
  .error ⟨.malformed form, line⟩

/-! ### Statements without a block

Each reader starts after the first word of its statement, which stands on the given line. -/

/-- Reads `(question)`. -/
def ask (line : Nat) (tokens : List Token) :
    Except Fault (Parsed Statement) :=
  match Token.arguments? tokens with
  | some ([question], rest) => .ok (.ask (Phrase.ofTokens question), rest)
  | _ => malformed .ask line

/-- Reads `(message)`. -/
def confirm (line : Nat) (tokens : List Token) :
    Except Fault (Parsed Statement) :=
  match Token.arguments? tokens with
  | some ([message], rest) => .ok (.confirm (Phrase.ofTokens message).text, rest)
  | _ => malformed .confirm line

/-- Reads `("filename", content)`. -/
def createFile (line : Nat) (tokens : List Token) :
    Except Fault (Parsed Statement) :=
  match Token.arguments? tokens with
  | some ([filename, content], rest) =>
    match Token.literal? filename with
    | some name => .ok (.createFile (String.ofList name) (Phrase.ofTokens content), rest)
    | none => malformed .createFile line
  | _ => malformed .createFile line

/-- Reads `()`. -/
def waitForResponse (line : Nat) (tokens : List Token) :
    Except Fault (Parsed Statement) :=
  match Token.arguments? tokens with
  | some ([], rest) => .ok (.waitForResponse, rest)
  | _ => malformed .waitForResponse line

/-- Reads the arguments of a call of the named function. -/
def call (name : List Char) (line : Nat) (tokens : List Token) :
    Except Fault (Parsed Statement) :=
  if isIdentifier name then
    match Token.arguments? tokens with
    | some (args, rest) =>
      .ok (.call (String.ofList name) (args.map fun a => String.ofList (Token.span a)), rest)
    | none => malformed .call line
  else malformed .call line

/-- Reads the right-hand side of an assignment to the named variable, after the assignment sign.  It
goes to the end of the line, or to a closing brace outside all brackets. -/
def assignment (name : List Char) (line : Nat) (tokens : List Token) :
    Except Fault (Parsed Statement) :=
  if isIdentifier name then
    let (run, rest) := Token.takeNested Token.nestBrackets .closeBrace 0 tokens
    if run.isEmpty then malformed .assignment line
    else .ok (.assign (String.ofList name) (Value.ofTokens run), rest)
  else malformed .assignment line

/-- The agent that a run of tokens names. -/
def agent? (tokens : List Token) : Option Agent :=
  (Token.word? tokens).bind fun letters => Agent.ofKeyword? (String.ofList letters)

/-- Reads `("file")` or `("file", agent)`. -/
def taskFile (line : Nat) (tokens : List Token) :
    Except Fault (Parsed Statement) :=
  let build (path : List Token) (agent : Option Agent) (rest : List Token) :
      Except Fault (Parsed Statement) :=
    match Token.literal? path, agent with
    | some (c :: cs), some a => .ok (.task (Task.fromFile (String.ofList (c :: cs)) a), rest)
    | _, _ => malformed .taskFile line
  match Token.arguments? tokens with
  | some ([path], rest) => build path (some .general) rest
  | some ([path, agent], rest) => build path (agent? agent) rest
  | _ => malformed .taskFile line

/-! ### Statements with a block -/

/-- A reader for the statements of a block, from the line on which it was opened and the tokens
after its opening brace. -/
abbrev BlockReader := Nat → List Token → Except Fault (Parsed (List Statement))

/-- Reads a block with its opening brace; the given form is malformed without it. -/
def braced (block : BlockReader) (form : Form) (line : Nat) (tokens : List Token) :
    Except Fault (Parsed (List Statement)) :=
  match Token.after? .openBrace tokens with
  | some rest => block line rest
  | none => malformed form line

/-- Reads a condition in parentheses, which must not be empty. -/
def condition? (tokens : List Token) : Option (String × List Token) := do
  let inner ← Token.after? .openParen tokens
  let (run, rest) ← Token.runBefore? Token.nestParens .closeParen inner
  if run.isEmpty then none else some (String.ofList (Token.span run), rest)

/-- The line of an `else` with a brace after it, and the tokens after that brace. -/
def elseBlock? (tokens : List Token) : Option (Nat × List Token) :=
  match Token.skipBreaks tokens with
  | word :: rest =>
    if word.lexeme = .word "else".toList then
      (Token.after? .openBrace rest).map fun inner => (word.line, inner)
    else none
  | [] => none

/-- Reads `(condition) { … }` and the `else` block that may follow, also on a later line. -/
def conditional (block : BlockReader) (line : Nat) (tokens : List Token) :
    Except Fault (Parsed Statement) :=
  match condition? tokens with
  | none => malformed .conditional line
  | some (condition, rest) => do
    let (body, rest) ← braced block .conditional line rest
    match elseBlock? rest with
    | some (elseLine, inner) =>
      let (otherwise, rest) ← block elseLine inner
      .ok (.ifElse condition body otherwise, rest)
    | none => .ok (.ifThen condition body, rest)

/-- Reads `(condition) { … }`. -/
def whileLoop (block : BlockReader) (line : Nat) (tokens : List Token) :
    Except Fault (Parsed Statement) :=
  match condition? tokens with
  | none => malformed .whileLoop line
  | some (condition, rest) => do
    let (body, rest) ← braced block .whileLoop line rest
    .ok (.whileLoop condition body, rest)

/-- Reads `name in iterable`, up to the opening brace: the name, the iterable, and the tokens from
the brace on. -/
def iteration? (tokens : List Token) : Option (List Char × String × List Token) :=
  match tokens with
  | name :: keyword :: rest =>
    match name.lexeme with
    | .word letters =>
      if isIdentifier letters && keyword.lexeme == .word "in".toList then
        match Token.takeNested Token.nestBrackets .openBrace 0 rest with
        | (first :: run, after) => some (letters, String.ofList (Token.span (first :: run)), after)
        | ([], _) => none
      else none
    | _ => none
  | _ => none

/-- Reads `name in iterable { … }`. -/
def forLoop (block : BlockReader) (line : Nat) (tokens : List Token) :
    Except Fault (Parsed Statement) :=
  match iteration? tokens with
  | none => malformed .forLoop line
  | some (name, iterable, rest) => do
    let (body, rest) ← braced block .forLoop line rest
    .ok (.forEach (String.ofList name) iterable body, rest)

/-- The agent at the front of an inline task, which may be left out, and the tokens after it.  A
word that names no agent is refused. -/
def leadingAgent? : List Token → Option (Agent × List Token)
  | [] => some (.general, [])
  | t :: rest =>
    match t.lexeme with
    | .word letters => (Agent.ofKeyword? (String.ofList letters)).map fun a => (a, rest)
    | _ => some (.general, t :: rest)

/-- Reads `agent "description" { … }`; the agent may be left out. -/
def inlineTask (block : BlockReader) (line : Nat) (tokens : List Token) :
    Except Fault (Parsed Statement) :=
  match leadingAgent? tokens with
  | some (agent, first :: rest) =>
    match Token.literal? [first] with
    | some (c :: cs) => do
      let (body, rest) ← braced block .task line rest
      .ok (.task (Task.inline (String.ofList (c :: cs)) agent body), rest)
    | _ => malformed .task line
  | _ => malformed .task line

/-- The tasks of a block that holds nothing else. -/
def onlyTasks? : List Statement → Option (List Task)
  | [] => some []
  | .task t :: rest => (onlyTasks? rest).map (t :: ·)
  | _ :: _ => none

/-- Reads the tasks of a parallel block, after its opening brace. -/
def parallel (block : BlockReader) (line : Nat) (tokens : List Token) :
    Except Fault (Parsed Statement) := do
  let (body, rest) ← block line tokens
  match onlyTasks? body with
  | some tasks => .ok (.parallel tasks, rest)
  | none => .error ⟨.onlyTasks, line⟩

/-! ### Statements and blocks -/

/-- The end of a statement: a line break, which is taken, or a closing brace, which is not. -/
def endOfStatement (tokens : List Token) : Except Fault (List Token) :=
  match tokens with
  | [] => .ok []
  | t :: rest =>
    if t.isBreak then .ok rest
    else if t.is .closeBrace then .ok (t :: rest)
    else .error ⟨.trailingInput, t.line⟩

/-- Reads a statement whose first word stands on the given line; the tokens are those after that
word. -/
def statementAfter (block : BlockReader) (word : List Char) (line : Nat) (rest : List Token) :
    Except Fault (Parsed Statement) :=
  match Keyword.ofWord? word, Token.next? rest with
  | some .ask, some (.symbol .openParen) => ask line rest
  | some .confirm, some (.symbol .openParen) => confirm line rest
  | some .createFile, some (.symbol .openParen) => createFile line rest
  | some .conditional, some (.symbol .openParen) => conditional block line rest
  | some .whileLoop, some (.symbol .openParen) => whileLoop block line rest
  | some .forLoop, some (.word _) => forLoop block line rest
  | some .task, some (.symbol .assign) => assignment word line rest.tail
  | some .task, some (.symbol .openParen) => taskFile line rest
  | some .task, _ => inlineTask block line rest
  | some .parallel, some (.symbol .openBrace) => parallel block line rest.tail
  | some .stop, none => .ok (.stop, rest)
  | some .stop, some .lineBreak => .ok (.stop, rest)
  | some .stop, some (.symbol .closeBrace) => .ok (.stop, rest)
  | some .waitForResponse, some (.symbol .openParen) => waitForResponse line rest
  | _, some (.symbol .assign) => assignment word line rest.tail
  | _, some (.symbol .openParen) => call word line rest
  | _, _ => .error ⟨.noStatement, line⟩

/-- Reads a statement and its end. -/
def statement (block : BlockReader) (first : Token) (rest : List Token) :
    Except Fault (Parsed Statement) :=
  match first.lexeme with
  | .word letters => do
    let (s, rest) ← statementAfter block letters first.line rest
    let rest ← endOfStatement rest
    .ok (s, rest)
  | _ => .error ⟨.noStatement, first.line⟩

/-- Reads statements up to the closing brace of a block, which is taken.  The first argument bounds
the number of statements that are read. -/
def block : Nat → BlockReader
  | 0, opened, _ => .error ⟨.unclosedBlock, opened⟩
  | bound + 1, opened, tokens =>
    match Token.skipBreaks tokens with
    | [] => .error ⟨.unclosedBlock, opened⟩
    | first :: rest =>
      if first.is .closeBrace then .ok ([], rest)
      else do
        let (s, rest) ← statement (block bound) first rest
        let (more, rest) ← block bound opened rest
        .ok (s :: more, rest)

/-! ### Whole files -/

/-- Pairs up braces, given the lines of those that are open, the innermost first. -/
def pairBraces : List Nat → List Token → Except Fault Unit
  | [], [] => .ok ()
  | opened :: _, [] => .error ⟨.unclosedBlock, opened⟩
  | opened, t :: rest =>
    if t.is .openBrace then pairBraces (t.line :: opened) rest
    else if t.is .closeBrace then
      match opened with
      | [] => .error ⟨.strayClose, t.line⟩
      | _ :: outer => pairBraces outer rest
    else pairBraces opened rest

/-- The name in a command declaration, and the tokens after its opening brace. -/
def header? : List Token → Option (List Char × List Token)
  | keyword :: name :: rest =>
    match keyword.lexeme, name.lexeme with
    | .word first, .word letters =>
      if first = "command".toList && isIdentifier letters then
        (Token.after? .openBrace rest).map fun inner => (letters, inner)
      else none
    | _, _ => none
  | _ => none

/-- Refuses anything but line breaks after the body of a command. -/
def endOfFile (tokens : List Token) : Except Fault Unit :=
  match Token.skipBreaks tokens with
  | [] => .ok ()
  | t :: _ =>
    if t.is .closeBrace then .error ⟨.strayClose, t.line⟩
    else .error ⟨.contentAfterBody, t.line⟩

/-- Reads a command from the tokens of a file. -/
def command (tokens : List Token) : Except Fault Command :=
  match Token.skipBreaks tokens with
  | [] => .error ⟨.emptyFile, 1⟩
  | first :: rest =>
    match header? (first :: rest) with
    | none => .error ⟨.noHeader, first.line⟩
    | some (name, inner) => do
      pairBraces [] tokens
      let (body, rest) ← block (tokens.length + 1) first.line inner
      endOfFile rest
      .ok ⟨String.ofList name, body⟩

end Parser

/-- A fault of a source text with the line that it is about. -/
def Fault.quote (source : List Char) (f : Fault) : Defect :=
  ⟨f, String.ofList (Text.trimmedLine source f.line)⟩

/-- Reads a command file. -/
def Command.parse (source : String) : Except Defect Command :=
  let text := source.toList
  let read := do
    let scanned ← (scan text).mapError (Fault.mk .unclosedString)
    Parser.command scanned.tokens
  read.mapError (Fault.quote text)

end Playbook
