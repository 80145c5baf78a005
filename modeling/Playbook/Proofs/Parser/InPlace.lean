import Playbook.Command.Parser
import Playbook.Proofs.Token.Offsets

/-!
# Reading a command in place

`Command.parse` hands on what is left of a list of tokens.  A reader may also leave the list as it
is, keep a position in it, tell an argument by the two positions between which it stands, and cut
texts out of the source by counts of bytes.  `Command.parseInPlace` does so.

Such a reader can go wrong in ways that the other cannot: a position may lie behind the end, two
positions or two counts may be in the wrong order, a count may fall inside a character, a number of
open brackets may fall below zero, and a loop whose position does not move does not end.  Each of
these is tested where it could happen, and makes the outcome `none`.
-/

namespace Playbook

/-- The outcome of a step in place: none if it leaves the bounds of what it works on, and otherwise
a fault of the file or a result. -/
abbrev Checked := ExceptT Fault Option

theorem liftM_some_bind {α β : Type} (a : α) (f : α → Checked β) :
    ((liftM (some a) : Checked α) >>= f) = f a := rfl

/-- A number of open brackets without the one that is closed; there must be one. -/
def close? : Nat → Option Nat
  | 0 => none
  | depth + 1 => some depth

/-- The number of open parentheses after a lexeme, where a closing one must have a partner. -/
def nestParens? (depth : Nat) : Lexeme → Option Nat
  | .symbol .openParen => some (depth + 1)
  | .symbol .closeParen => close? depth
  | _ => some depth

/-- A source and its tokens, with their places in it. -/
structure Tape where
  source : String
  tokens : List Located
  deriving DecidableEq, Repr

namespace Tape

/-- Tokens at their places behind each other, from the start of the source on. -/
def ofTokens (source : String) (tokens : List Token) : Tape := ⟨source, locate 0 tokens⟩

variable (tape : Tape)

/-! ### Looking at tokens -/

/-- The lexeme at a position.  There is none behind the last token. -/
def peek (p : Nat) : Option Lexeme := tape.tokens[p]?.map fun t => t.lexeme

/-- The line of the token at a position; behind the last token, the line of that. -/
def lineAt (p : Nat) : Nat :=
  match tape.tokens[p]? with
  | some t => t.line
  | none => (tape.tokens.getLast?.map fun t => t.line).getD 1

theorem lt_length_of_peek {p : Nat} {l : Lexeme} (h : tape.peek p = some l) :
    p < tape.tokens.length := by
  obtain ⟨t, ht, -⟩ := Option.map_eq_some_iff.1 h
  exact (List.getElem?_eq_some_iff.1 ht).1

/-- The first position from the given one on without a line break. -/
def skipBreaks (p : Nat) : Nat :=
  if _h : tape.peek p = some .lineBreak then skipBreaks (p + 1) else p
termination_by tape.tokens.length - p
decreasing_by
  have := tape.lt_length_of_peek _h
  omega

/-- The first position from the given one on where the line ends or where the given sign stands at
depth zero. -/
def scanTo (nest : Nat → Lexeme → Option Nat) (stop : Symbol) (depth p : Nat) : Option Nat :=
  match _h : tape.peek p with
  | none => some p
  | some l =>
    if l = .lineBreak ∨ (depth = 0 ∧ l = .symbol stop) then some p
    else do
      let depth ← nest depth l
      scanTo nest stop depth (p + 1)
termination_by tape.tokens.length - p
decreasing_by
  have := tape.lt_length_of_peek _h
  omega

/-- The tokens between two positions, which must be in order and must not lie behind the end. -/
def between? (start stop : Nat) : Option (List Located) :=
  if start ≤ stop ∧ stop ≤ tape.tokens.length then
    some ((tape.tokens.take stop).drop start)
  else none

/-! ### Texts and values -/

/-- The text of the tokens between two positions, trimmed. -/
def raw (start stop : Nat) : Option String :=
  if stop ≤ start then some ""
  else do
    let first ← tape.tokens[start]?
    let last ← tape.tokens[stop - 1]?
    let text ← Text.slice? tape.source first.start last.stop
    some (String.ofList (Text.trim text.toList))

/-- The tokens of an argument, which is told by its two positions. -/
def argument (range : Nat × Nat) : Option (List Token) :=
  (tape.between? range.1 range.2).map (List.map Located.toToken)

/-- The phrase that an argument is. -/
def phraseAt (range : Nat × Nat) : Option Phrase := do
  match Token.literal? (← tape.argument range) with
  | some content => some (.literal (String.ofList content))
  | none => some (.reference (← tape.raw range.1 range.2))

/-- Whether the square bracket that was opened first is closed at the first of the two positions.
The other one is that of the next token, before which the given number of them are open. -/
def closesAt (close depth p : Nat) : List Located → Option Bool
  | [] => some false
  | t :: rest =>
    if t.is .openBracket then closesAt close (depth + 1) (p + 1) rest
    else if t.is .closeBracket then do
      let depth ← close? depth
      if depth = 0 then some (p == close) else closesAt close depth (p + 1) rest
    else closesAt close depth (p + 1) rest

/-- The first and the last of the tokens between two positions, if these are a square bracket and
the one that closes it. -/
def bracketed (start stop : Nat) (run : List Located) : Option (Option (Located × Located)) :=
  match run.head?, run.getLast? with
  | some first, some last =>
    if first.is .openBracket ∧ last.is .closeBracket then do
      if ← closesAt (stop - 1) 0 start run then some (some (first, last)) else some none
    else some none
  | _, _ => some none

/-- The value of the tokens between two positions. -/
def valueAt (start stop : Nat) : Option Value := do
  let run ← tape.between? start stop
  match Token.literal? (run.map Located.toToken) with
  | some content => some (.str (String.ofList content))
  | none =>
    match (Token.word? (run.map Located.toToken)).bind truth? with
    | some b => some (.bool b)
    | none =>
      match ← bracketed start stop run with
      | some (first, last) => do
        let interior ← Text.slice? tape.source first.stop last.start
        some (.array (arrayItems interior.toList))
      | none => some (.expr (← tape.raw start stop))

/-! ### Arguments and conditions -/

/-- Goes on with an argument list at a position, given the arguments so far, the number of open
brackets and the position at which the argument started: the positions of all arguments, and that
behind the list.  There is no list if the line ends first or if an argument is empty. -/
def argumentsFrom (args : List (Nat × Nat)) (depth start p : Nat) :
    Option (Option (List (Nat × Nat) × Nat)) :=
  match _h : tape.peek p with
  | none => some none
  | some l =>
    if l = .lineBreak then some none
    else if l = .symbol .openParen ∨ l = .symbol .openBracket then
      argumentsFrom args (depth + 1) start (p + 1)
    else if 0 < depth ∧ (l = .symbol .closeParen ∨ l = .symbol .closeBracket) then do
      let depth ← close? depth
      argumentsFrom args depth start (p + 1)
    else if l = .symbol .closeParen then
      if start < p then some (some (args ++ [(start, p)], p + 1))
      else if args.isEmpty then some (some (args, p + 1))
      else some none
    else if depth = 0 ∧ l = .symbol .comma then
      if p = start then some none
      else argumentsFrom (args ++ [(start, p)]) depth (p + 1) (p + 1)
    else argumentsFrom args depth start (p + 1)
termination_by tape.tokens.length - p
decreasing_by
  all_goals
    have := tape.lt_length_of_peek _h
    omega

/-- Fails with the complaint about a form of statement. -/
def malformed {α : Type} (form : Form) (line : Nat) : Checked α := throw ⟨.malformed form, line⟩

/-- Reads an argument list: the positions of the arguments, and that behind the list. -/
def argumentsAt (form : Form) (line p : Nat) : Checked (List (Nat × Nat) × Nat) :=
  if tape.peek p = some (.symbol .openParen) then do
    match ← tape.argumentsFrom [] 0 (p + 1) (p + 1) with
    | some found => pure found
    | none => malformed form line
  else malformed form line

/-- Reads a condition in parentheses, which must not be empty. -/
def conditionAt (form : Form) (line p : Nat) : Checked (String × Nat) :=
  if tape.peek p = some (.symbol .openParen) then do
    let q ← tape.scanTo nestParens? .closeParen 0 (p + 1)
    if tape.peek q = some (.symbol .closeParen) then
      let condition ← tape.raw (p + 1) q
      if condition = "" then malformed form line else pure (condition, q + 1)
    else malformed form line
  else malformed form line

/-! ### Statements without a block

Each reader starts at the position behind the first word of its statement, as those on lists do. -/

/-- Reads a statement with a phrase as its only argument. -/
def onePhraseAt (form : Form) (build : Phrase → Statement) (line p : Nat) :
    Checked (Statement × Nat) := do
  let (args, q) ← tape.argumentsAt form line p
  match args with
  | [phrase] => pure (build (← tape.phraseAt phrase), q)
  | _ => malformed form line

def createFileAt (line p : Nat) : Checked (Statement × Nat) := do
  let (args, q) ← tape.argumentsAt .createFile line p
  match args with
  | [filename, content] =>
    match Token.literal? (← tape.argument filename) with
    | some name => pure (.createFile (String.ofList name) (← tape.phraseAt content), q)
    | none => malformed .createFile line
  | _ => malformed .createFile line

def waitForResponseAt (line p : Nat) : Checked (Statement × Nat) := do
  let (args, q) ← tape.argumentsAt .waitForResponse line p
  if args.isEmpty then pure (.waitForResponse, q) else malformed .waitForResponse line

def callAt (name : List Char) (line p : Nat) : Checked (Statement × Nat) :=
  if isIdentifier name then do
    let (args, q) ← tape.argumentsAt .call line p
    let texts ← (args.mapM fun range => tape.raw range.1 range.2 : Option (List String))
    pure (.call (String.ofList name) texts, q)
  else malformed .call line

/-- Reads the right-hand side of an assignment, from the position behind its sign. -/
def assignmentAt (name : List Char) (line p : Nat) : Checked (Statement × Nat) :=
  if isIdentifier name then do
    let q ← tape.scanTo (fun depth l => some (Token.nestBrackets depth l)) .closeBrace 0 p
    if q = p then malformed .assignment line
    else pure (.assign (String.ofList name) (← tape.valueAt p q), q)
  else malformed .assignment line

def taskFileAt (line p : Nat) : Checked (Statement × Nat) := do
  let (args, q) ← tape.argumentsAt .taskFile line p
  let build (path : Nat × Nat) (agent : Checked Agent) : Checked (Statement × Nat) := do
    match Token.literal? (← tape.argument path) with
    | some (c :: cs) => pure (.task (Task.fromFile (String.ofList (c :: cs)) (← agent)), q)
    | _ => malformed .taskFile line
  match args with
  | [path] => build path (pure .general)
  | [path, agent] =>
    build path do
      match Parser.agent? (← tape.argument agent) with
      | some a => pure a
      | none => malformed .taskFile line
  | _ => malformed .taskFile line

/-! ### Statements with a block -/

/-- A reader for the statements of a block, from the line on which it was opened and the position
behind its opening brace. -/
abbrev BlockReaderAt := Nat → Nat → Checked (List Statement × Nat)

variable (block : BlockReaderAt)

def bracedAt (form : Form) (line p : Nat) : Checked (List Statement × Nat) :=
  if tape.peek p = some (.symbol .openBrace) then block line (p + 1) else malformed form line

/-- Without an `else`, the position goes back to the end of the first block. -/
def conditionalAt (line p : Nat) : Checked (Statement × Nat) := do
  let (condition, q) ← tape.conditionAt .conditional line p
  let (body, behind) ← tape.bracedAt block .conditional line q
  let q := tape.skipBreaks behind
  if tape.peek q = some (.word "else".toList) ∧
      tape.peek (q + 1) = some (.symbol .openBrace) then
    let (otherwise, q) ← block (tape.lineAt q) (q + 2)
    pure (.ifElse condition body otherwise, q)
  else pure (.ifThen condition body, behind)

def whileLoopAt (line p : Nat) : Checked (Statement × Nat) := do
  let (condition, q) ← tape.conditionAt .whileLoop line p
  let (body, q) ← tape.bracedAt block .whileLoop line q
  pure (.whileLoop condition body, q)

def forLoopAt (line p : Nat) : Checked (Statement × Nat) :=
  match tape.peek p with
  | some (.word name) =>
    if isIdentifier name ∧ tape.peek (p + 1) = some (.word "in".toList) then do
      let q ← tape.scanTo (fun depth l => some (Token.nestBrackets depth l)) .openBrace 0 (p + 2)
      if tape.peek q = some (.symbol .openBrace) then
        let iterable ← tape.raw (p + 2) q
        if iterable = "" then malformed .forLoop line
        else
          let (body, q) ← tape.bracedAt block .forLoop line q
          pure (.forEach (String.ofList name) iterable body, q)
      else malformed .forLoop line
    else malformed .forLoop line
  | _ => malformed .forLoop line

/-- The agent of an inline task, and the position behind it. -/
def leadingAgentAt (line p : Nat) : Checked (Agent × Nat) :=
  match tape.peek p with
  | some (.word letters) =>
    match Agent.ofKeyword? (String.ofList letters) with
    | some agent => pure (agent, p + 1)
    | none => malformed .task line
  | _ => pure (.general, p)

def inlineTaskAt (line p : Nat) : Checked (Statement × Nat) := do
  let (agent, q) ← tape.leadingAgentAt line p
  match tape.peek q with
  | some (.quoted _ (c :: cs)) =>
    let (body, q) ← tape.bracedAt block .task line (q + 1)
    pure (.task (Task.inline (String.ofList (c :: cs)) agent body), q)
  | _ => malformed .task line

def parallelAt (line p : Nat) : Checked (Statement × Nat) := do
  let (body, q) ← block line p
  match Parser.onlyTasks? body with
  | some tasks => pure (.parallel tasks, q)
  | none => throw ⟨.onlyTasks, line⟩

/-! ### Statements and blocks -/

def endOfStatementAt (p : Nat) : Checked Nat :=
  match tape.peek p with
  | none => pure p
  | some l =>
    if l = .lineBreak then pure (p + 1)
    else if l = .symbol .closeBrace then pure p
    else throw ⟨.trailingInput, tape.lineAt p⟩

/-- Reads a statement whose first word stands on the given line, from the position behind it. -/
def statementAfterAt (word : List Char) (line p : Nat) : Checked (Statement × Nat) :=
  match Keyword.ofWord? word, tape.peek p with
  | some .ask, some (.symbol .openParen) => tape.onePhraseAt .ask .ask line p
  | some .confirm, some (.symbol .openParen) =>
    tape.onePhraseAt .confirm (fun message => .confirm message.text) line p
  | some .createFile, some (.symbol .openParen) => tape.createFileAt line p
  | some .conditional, some (.symbol .openParen) => tape.conditionalAt block line p
  | some .whileLoop, some (.symbol .openParen) => tape.whileLoopAt block line p
  | some .forLoop, some (.word _) => tape.forLoopAt block line p
  | some .task, some (.symbol .assign) => tape.assignmentAt word line (p + 1)
  | some .task, some (.symbol .openParen) => tape.taskFileAt line p
  | some .task, _ => tape.inlineTaskAt block line p
  | some .parallel, some (.symbol .openBrace) => parallelAt block line (p + 1)
  | some .stop, none => pure (.stop, p)
  | some .stop, some .lineBreak => pure (.stop, p)
  | some .stop, some (.symbol .closeBrace) => pure (.stop, p)
  | some .waitForResponse, some (.symbol .openParen) => tape.waitForResponseAt line p
  | _, some (.symbol .assign) => tape.assignmentAt word line (p + 1)
  | _, some (.symbol .openParen) => tape.callAt word line p
  | _, _ => throw ⟨.noStatement, line⟩

/-- Reads a statement and its end. -/
def statementAt (p : Nat) : Checked (Statement × Nat) :=
  match tape.peek p with
  | some (.word letters) => do
    let (s, q) ← tape.statementAfterAt block letters (tape.lineAt p) (p + 1)
    let q ← tape.endOfStatementAt q
    pure (s, q)
  | _ => throw ⟨.noStatement, tape.lineAt p⟩

/-- The position behind a statement, which must be a later one and must not lie behind the end. -/
def later? (p q : Nat) : Option Nat :=
  if p < q ∧ q ≤ tape.tokens.length then some q else none

/-- Reads statements up to the closing brace of a block.  The first argument bounds the number of
rounds, and it must not be used up. -/
def blockAt : Nat → BlockReaderAt
  | 0, _, _ => ExceptT.mk none
  | bound + 1, opened, p =>
    let p := tape.skipBreaks p
    match tape.peek p with
    | none => throw ⟨.unclosedBlock, opened⟩
    | some l =>
      if l = .symbol .closeBrace then pure ([], p + 1)
      else do
        let (s, q) ← tape.statementAt (blockAt bound) p
        let q ← tape.later? p q
        let (more, q) ← blockAt bound opened q
        pure (s :: more, q)

/-! ### Whole files -/

/-- The name in a command declaration at a position. -/
def headerAt (p : Nat) : Option (List Char) :=
  match tape.peek (p + 1) with
  | some (.word name) =>
    if tape.peek p = some (.word "command".toList) ∧ isIdentifier name ∧
        tape.peek (p + 2) = some (.symbol .openBrace) then
      some name
    else none
  | _ => none

def endOfFileAt (p : Nat) : Checked Unit :=
  let p := tape.skipBreaks p
  match tape.peek p with
  | none => pure ()
  | some l =>
    if l = .symbol .closeBrace then throw ⟨.strayClose, tape.lineAt p⟩
    else throw ⟨.contentAfterBody, tape.lineAt p⟩

/-- Reads a command from the start of a file. -/
def command : Checked Command :=
  let p := tape.skipBreaks 0
  if tape.tokens.length ≤ p then throw ⟨.emptyFile, 1⟩
  else
    match tape.headerAt p with
    | none => throw ⟨.noHeader, tape.lineAt p⟩
    | some name => do
      MonadExcept.ofExcept (Parser.pairBraces [] (tape.tokens.map Located.toToken))
      let (body, q) ← tape.blockAt (tape.tokens.length + 1) (tape.lineAt p) (p + 3)
      tape.endOfFileAt q
      pure ⟨String.ofList name, body⟩

end Tape

/-- Reads a command file in place. -/
def Command.parseInPlace (source : String) : Option (Except Defect Command) :=
  match scan source.toList with
  | .error line => some (.error (Fault.quote source.toList ⟨.unclosedString, line⟩))
  | .ok scanned =>
    (Tape.ofTokens source scanned.tokens).command.run.map fun read =>
      read.mapError (Fault.quote source.toList)

end Playbook
