import Playbook.Command.Parser
import Playbook.Proofs.Command
import Playbook.Proofs.Outcome

/-!
# The forms of statements

`Parser.Reads` lists the forms that a statement may have after its first word, with everything that
the reader of each form asks for; `statementAfter_eq_ok_iff` says that these are what is read.  The
readers of blocks and of whole files are taken apart in the same way.
-/

namespace Playbook

theorem Keyword.spelling_of_ofWord? {letters : List Char} {k : Keyword}
    (h : Keyword.ofWord? letters = some k) : k.spelling.toList = letters := by
  simpa using List.find?_some h

/-- Whether a keyword before a parenthesis opens a statement of its own, and not a call. -/
def Keyword.takesParenthesis : Keyword → Bool
  | .ask | .confirm | .createFile | .conditional | .whileLoop | .task | .waitForResponse => true
  | .forLoop | .parallel | .stop => false

namespace Token

theorem after?_eq_some_iff {s : Symbol} {tokens rest : List Token} :
    after? s tokens = some rest ↔ next? tokens = some (.symbol s) ∧ tokens.tail = rest := by
  cases tokens with
  | nil => simp [after?, next?]
  | cons t more => simp [after?, next?, is]

theorem next?_of_arguments? {tokens rest : List Token} {args : List (List Token)}
    (h : arguments? tokens = some (args, rest)) : next? tokens = some (.symbol .openParen) := by
  obtain ⟨inner, hinner, -⟩ := Option.bind_eq_some_iff.1 h
  exact (after?_eq_some_iff.1 hinner).1

theorem not_isBreak_of_literal? {t : Token} {content : List Char}
    (h : literal? [t] = some content) : t.isBreak = false := by
  rw [isBreak, beq_eq_false_iff_ne]
  intro hbreak
  rw [literal?, hbreak] at h
  cases h

end Token

namespace Parser

theorem next?_of_condition? {tokens rest : List Token} {condition : String}
    (h : condition? tokens = some (condition, rest)) :
    Token.next? tokens = some (.symbol .openParen) := by
  obtain ⟨inner, hinner, -⟩ := Option.bind_eq_some_iff.1 h
  exact (Token.after?_eq_some_iff.1 hinner).1

theorem iteration?_eq_some_iff {tokens after : List Token} {name : List Char} {iterable : String} :
    iteration? tokens = some (name, iterable, after) ↔
      ∃ first keyword rest run, tokens = first :: keyword :: rest ∧ first.lexeme = .word name ∧
        isIdentifier name = true ∧ keyword.lexeme = .word "in".toList ∧
        Token.takeNested Token.nestBrackets .openBrace 0 rest = (run, after) ∧ run ≠ [] ∧
        iterable = String.ofList (Token.span run) := by
  constructor
  · intro h
    unfold iteration? at h
    split at h
    · next first keyword rest =>
      split at h
      · next letters hfirst =>
        split at h
        · next hkeyword =>
          rw [Bool.and_eq_true, beq_iff_eq] at hkeyword
          split at h
          · next t run _ hrun =>
            cases h
            exact ⟨first, keyword, rest, t :: run, rfl, hfirst, hkeyword.1, hkeyword.2, hrun,
              List.cons_ne_nil t run, rfl⟩
          · cases h
        · cases h
      · cases h
    · cases h
  · rintro ⟨first, keyword, rest, run, rfl, hfirst, hname, hkeyword, hrun, hne, rfl⟩
    obtain ⟨t, run, rfl⟩ := List.exists_cons_of_ne_nil hne
    simp [iteration?, hfirst, hname, hkeyword, hrun]

theorem next?_of_iteration? {tokens rest : List Token} {name : List Char} {iterable : String}
    (h : iteration? tokens = some (name, iterable, rest)) :
    ∃ letters, Token.next? tokens = some (.word letters) := by
  obtain ⟨first, keyword, _, _, rfl, hfirst, -⟩ := iteration?_eq_some_iff.1 h
  exact ⟨name, congrArg some hfirst⟩

theorem header?_eq_some_iff {tokens inner : List Token} {name : List Char} :
    header? tokens = some (name, inner) ↔
      ∃ keyword named rest, tokens = keyword :: named :: rest ∧
        keyword.lexeme = .word "command".toList ∧ named.lexeme = .word name ∧
        isIdentifier name = true ∧ Token.after? .openBrace rest = some inner := by
  constructor
  · intro h
    unfold header? at h
    split at h
    · next keyword named rest =>
      split at h
      · next first letters hkeyword hnamed =>
        split at h
        · next hname =>
          rw [Bool.and_eq_true, decide_eq_true_eq] at hname
          obtain ⟨rfl, hname⟩ := hname
          obtain ⟨inner', hinner, he⟩ := Option.map_eq_some_iff.1 h
          cases he
          exact ⟨keyword, named, rest, rfl, hkeyword, hnamed, hname, hinner⟩
        · cases h
      · cases h
    · cases h
  · rintro ⟨keyword, named, rest, rfl, hkeyword, hnamed, hname, hinner⟩
    simp [header?, hkeyword, hnamed, hname, hinner]

/-- The forms of a statement, by its first word and the tokens after it, with the tokens that are
left after the statement.  Blocks are read by the given reader. -/
inductive Reads (block : BlockReader) (line : Nat) (word : List Char) (tokens : List Token) :
    Statement → List Token → Prop
  | ask {question rest : List Token} (hw : Keyword.ofWord? word = some .ask)
      (h : Token.arguments? tokens = some ([question], rest)) :
      Reads block line word tokens (.ask (Phrase.ofTokens question)) rest
  | confirm {message rest : List Token} (hw : Keyword.ofWord? word = some .confirm)
      (h : Token.arguments? tokens = some ([message], rest)) :
      Reads block line word tokens (.confirm (Phrase.ofTokens message).text) rest
  | createFile {filename content rest : List Token} {name : List Char}
      (hw : Keyword.ofWord? word = some .createFile)
      (h : Token.arguments? tokens = some ([filename, content], rest))
      (hname : Token.literal? filename = some name) :
      Reads block line word tokens
        (.createFile (String.ofList name) (Phrase.ofTokens content)) rest
  | assign {value run rest : List Token} (hword : isIdentifier word = true)
      (h : Token.after? .assign tokens = some value)
      (hrun : Token.takeNested Token.nestBrackets .closeBrace 0 value = (run, rest))
      (hne : run ≠ []) :
      Reads block line word tokens (.assign (String.ofList word) (Value.ofTokens run)) rest
  | call {args : List (List Token)} {rest : List Token}
      (hw : ∀ k, Keyword.ofWord? word = some k → k.takesParenthesis = false)
      (hword : isIdentifier word = true) (h : Token.arguments? tokens = some (args, rest)) :
      Reads block line word tokens
        (.call (String.ofList word) (args.map fun a => String.ofList (Token.span a))) rest
  | ifThen {condition : String} {after rest : List Token} {body : List Statement}
      (hw : Keyword.ofWord? word = some .conditional)
      (h : condition? tokens = some (condition, after))
      (hbody : braced block .conditional line after = .ok (body, rest))
      (helse : elseBlock? rest = none) :
      Reads block line word tokens (.ifThen condition body) rest
  | ifElse {condition : String} {after between inner rest : List Token} {elseLine : Nat}
      {body otherwise : List Statement} (hw : Keyword.ofWord? word = some .conditional)
      (h : condition? tokens = some (condition, after))
      (hbody : braced block .conditional line after = .ok (body, between))
      (helse : elseBlock? between = some (elseLine, inner))
      (hotherwise : block elseLine inner = .ok (otherwise, rest)) :
      Reads block line word tokens (.ifElse condition body otherwise) rest
  | whileLoop {condition : String} {after rest : List Token} {body : List Statement}
      (hw : Keyword.ofWord? word = some .whileLoop)
      (h : condition? tokens = some (condition, after))
      (hbody : braced block .whileLoop line after = .ok (body, rest)) :
      Reads block line word tokens (.whileLoop condition body) rest
  | forEach {name : List Char} {iterable : String} {after rest : List Token}
      {body : List Statement} (hw : Keyword.ofWord? word = some .forLoop)
      (h : iteration? tokens = some (name, iterable, after))
      (hbody : braced block .forLoop line after = .ok (body, rest)) :
      Reads block line word tokens (.forEach (String.ofList name) iterable body) rest
  | stop (hw : Keyword.ofWord? word = some .stop)
      (h : Token.next? tokens ∈ [none, some .lineBreak, some (.symbol .closeBrace)]) :
      Reads block line word tokens .stop tokens
  | waitForResponse {rest : List Token} (hw : Keyword.ofWord? word = some .waitForResponse)
      (h : Token.arguments? tokens = some ([], rest)) :
      Reads block line word tokens .waitForResponse rest
  | taskFile {path rest : List Token} {c : Char} {cs : List Char}
      (hw : Keyword.ofWord? word = some .task)
      (h : Token.arguments? tokens = some ([path], rest))
      (hpath : Token.literal? path = some (c :: cs)) :
      Reads block line word tokens
        (.task (Task.fromFile (String.ofList (c :: cs)) .general)) rest
  | taskFileFor {path name rest : List Token} {c : Char} {cs : List Char} {agent : Agent}
      (hw : Keyword.ofWord? word = some .task)
      (h : Token.arguments? tokens = some ([path, name], rest))
      (hpath : Token.literal? path = some (c :: cs)) (hagent : agent? name = some agent) :
      Reads block line word tokens (.task (Task.fromFile (String.ofList (c :: cs)) agent)) rest
  | inlineTask {agent : Agent} {first : Token} {after rest : List Token} {c : Char}
      {cs : List Char} {body : List Statement} (hw : Keyword.ofWord? word = some .task)
      (h : leadingAgent? tokens = some (agent, first :: after))
      (hdescription : Token.literal? [first] = some (c :: cs))
      (hbody : braced block .task line after = .ok (body, rest)) :
      Reads block line word tokens
        (.task (Task.inline (String.ofList (c :: cs)) agent body)) rest
  | parallel {inner rest : List Token} {body : List Statement} {tasks : List Task}
      (hw : Keyword.ofWord? word = some .parallel)
      (h : Token.after? .openBrace tokens = some inner)
      (hbody : block line inner = .ok (body, rest)) (htasks : onlyTasks? body = some tasks) :
      Reads block line word tokens (.parallel tasks) rest

variable {block : BlockReader} {line : Nat} {word : List Char} {tokens rest : List Token}
  {s : Statement}

theorem reads_of_assignment (h : Token.next? tokens = some (.symbol .assign))
    (hs : assignment word line tokens.tail = .ok (s, rest)) :
    Reads block line word tokens s rest := by
  unfold assignment malformed at hs
  split at hs
  · rename_i hword
    dsimp only at hs
    split at hs
    · cases hs
    · rename_i hne
      cases hs
      exact .assign hword (Token.after?_eq_some_iff.2 ⟨h, rfl⟩) rfl (by simpa using hne)
  · cases hs

theorem reads_of_call (hw : ∀ k, Keyword.ofWord? word = some k → k.takesParenthesis = false)
    (hs : call word line tokens = .ok (s, rest)) : Reads block line word tokens s rest := by
  unfold call malformed at hs
  split at hs
  · rename_i hword
    split at hs
    · rename_i h
      cases hs
      exact .call hw hword h
    · cases hs
  · cases hs

theorem reads_of_taskFile (hw : Keyword.ofWord? word = some .task)
    (hs : taskFile line tokens = .ok (s, rest)) : Reads block line word tokens s rest := by
  unfold taskFile malformed at hs
  split at hs
  · rename_i h
    dsimp only at hs
    split at hs
    · rename_i hpath hagent
      cases hs
      cases hagent
      exact .taskFile hw h hpath
    · cases hs
  · rename_i h
    dsimp only at hs
    split at hs
    · rename_i hpath hagent
      cases hs
      exact .taskFileFor hw h hpath hagent
    · cases hs
  · cases hs

theorem reads_of_conditional (hw : Keyword.ofWord? word = some .conditional)
    (hs : conditional block line tokens = .ok (s, rest)) : Reads block line word tokens s rest := by
  unfold conditional malformed at hs
  split at hs
  · cases hs
  · rename_i condition after h
    obtain ⟨⟨body, between⟩, hbody, hs⟩ := Outcome.bind_eq_ok_iff.1 hs
    dsimp only at hs
    split at hs
    · rename_i elseLine inner helse
      obtain ⟨⟨otherwise, left⟩, hotherwise, hs⟩ := Outcome.bind_eq_ok_iff.1 hs
      cases hs
      exact .ifElse hw h hbody helse hotherwise
    · rename_i helse
      cases hs
      exact .ifThen hw h hbody helse

theorem reads_of_whileLoop (hw : Keyword.ofWord? word = some .whileLoop)
    (hs : whileLoop block line tokens = .ok (s, rest)) : Reads block line word tokens s rest := by
  unfold whileLoop malformed at hs
  split at hs
  · cases hs
  · rename_i condition after h
    obtain ⟨⟨body, left⟩, hbody, hs⟩ := Outcome.bind_eq_ok_iff.1 hs
    cases hs
    exact .whileLoop hw h hbody

theorem reads_of_forLoop (hw : Keyword.ofWord? word = some .forLoop)
    (hs : forLoop block line tokens = .ok (s, rest)) : Reads block line word tokens s rest := by
  unfold forLoop malformed at hs
  split at hs
  · cases hs
  · rename_i name iterable after h
    obtain ⟨⟨body, left⟩, hbody, hs⟩ := Outcome.bind_eq_ok_iff.1 hs
    cases hs
    exact .forEach hw h hbody

theorem reads_of_inlineTask (hw : Keyword.ofWord? word = some .task)
    (hs : inlineTask block line tokens = .ok (s, rest)) : Reads block line word tokens s rest := by
  unfold inlineTask malformed at hs
  split at hs
  · split at hs
    · rename_i agent first after h _ c cs hdescription
      obtain ⟨⟨body, left⟩, hbody, hs⟩ := Outcome.bind_eq_ok_iff.1 hs
      cases hs
      exact .inlineTask hw h hdescription hbody
    · cases hs
  · cases hs

theorem reads_of_parallel (hw : Keyword.ofWord? word = some .parallel)
    (h : Token.next? tokens = some (.symbol .openBrace))
    (hs : parallel block line tokens.tail = .ok (s, rest)) :
    Reads block line word tokens s rest := by
  obtain ⟨⟨body, left⟩, hbody, hs⟩ := Outcome.bind_eq_ok_iff.1 hs
  dsimp only at hs
  split at hs
  · rename_i tasks htasks
    cases hs
    exact .parallel hw (Token.after?_eq_some_iff.2 ⟨h, rfl⟩) hbody htasks
  · cases hs

/-- Whatever is read as a statement has one of the forms. -/
theorem reads_of_statementAfter (hs : statementAfter block word line tokens = .ok (s, rest)) :
    Reads block line word tokens s rest := by
  unfold statementAfter at hs
  split at hs
  · rename_i hw _
    unfold ask malformed at hs
    split at hs
    · rename_i h
      cases hs
      exact .ask hw h
    · cases hs
  · rename_i hw _
    unfold confirm malformed at hs
    split at hs
    · rename_i h
      cases hs
      exact .confirm hw h
    · cases hs
  · rename_i hw _
    unfold createFile malformed at hs
    split at hs
    · rename_i h
      split at hs
      · rename_i hname
        cases hs
        exact .createFile hw h hname
      · cases hs
    · cases hs
  · rename_i hw _
    exact reads_of_conditional hw hs
  · rename_i hw _
    exact reads_of_whileLoop hw hs
  · rename_i hw _
    exact reads_of_forLoop hw hs
  · rename_i h
    exact reads_of_assignment h hs
  · rename_i hw _
    exact reads_of_taskFile hw hs
  · rename_i hw _ _
    exact reads_of_inlineTask hw hs
  · rename_i hw h
    exact reads_of_parallel hw h hs
  · rename_i hw h
    cases hs
    exact .stop hw (by simp [h])
  · rename_i hw h
    cases hs
    exact .stop hw (by simp [h])
  · rename_i hw h
    cases hs
    exact .stop hw (by simp [h])
  · rename_i hw _
    unfold waitForResponse malformed at hs
    split at hs
    · rename_i h
      cases hs
      exact .waitForResponse hw h
    · cases hs
  · rename_i h _
    exact reads_of_assignment h hs
  · -- the keywords that take a parenthesis have been dealt with above
    refine reads_of_call (fun k hk => ?_) hs
    cases k <;> first | rfl | simp_all
  · cases hs

theorem statementAfter_of_assign (h : Token.next? tokens = some (.symbol .assign)) :
    statementAfter block word line tokens = assignment word line tokens.tail := by
  unfold statementAfter
  rw [h]
  cases Keyword.ofWord? word with
  | none => rfl
  | some k => cases k <;> rfl

theorem statementAfter_of_call
    (hw : ∀ k, Keyword.ofWord? word = some k → k.takesParenthesis = false)
    (h : Token.next? tokens = some (.symbol .openParen)) :
    statementAfter block word line tokens = call word line tokens := by
  unfold statementAfter
  rw [h]
  cases hk : Keyword.ofWord? word with
  | none => rfl
  | some k =>
    have hk' := hw k hk
    cases k <;> first | rfl | cases hk'

theorem statementAfter_of_inlineTask (hw : Keyword.ofWord? word = some .task) {agent : Agent}
    {first : Token} {after : List Token} {description : List Char}
    (h : leadingAgent? tokens = some (agent, first :: after))
    (hd : Token.literal? [first] = some description) :
    statementAfter block word line tokens = inlineTask block line tokens := by
  unfold statementAfter
  rw [hw]
  cases tokens with
  | nil => rfl
  | cons t more =>
    obtain ⟨⟨gap, lexeme⟩, number⟩ := t
    cases lexeme with
    | symbol s =>
      -- a sign would have to be the description
      obtain ⟨-, rfl, -⟩ : _ ∧ _ ∧ _ := by simpa [leadingAgent?] using h
      cases hd
    | _ => rfl

/-- Every form is read as the statement that it is. -/
theorem Reads.statementAfter (h : Reads block line word tokens s rest) :
    statementAfter block word line tokens = .ok (s, rest) := by
  cases h with
  | ask hw h =>
    have hnext := Token.next?_of_arguments? h
    simp [Parser.statementAfter, hw, hnext, Parser.ask, h]
  | confirm hw h =>
    have hnext := Token.next?_of_arguments? h
    simp [Parser.statementAfter, hw, hnext, Parser.confirm, h]
  | createFile hw h hname =>
    have hnext := Token.next?_of_arguments? h
    simp [Parser.statementAfter, hw, hnext, Parser.createFile, h, hname]
  | assign hword h hrun hne =>
    obtain ⟨hnext, rfl⟩ := Token.after?_eq_some_iff.1 h
    simp [statementAfter_of_assign hnext, Parser.assignment, hword, hrun, hne]
  | call hw hword h =>
    have hnext := Token.next?_of_arguments? h
    simp [statementAfter_of_call hw hnext, Parser.call, hword, h]
  | ifThen hw h hbody helse =>
    have hnext := next?_of_condition? h
    simp [Parser.statementAfter, hw, hnext, Parser.conditional, h, hbody, helse, bind, Except.bind]
  | ifElse hw h hbody helse hotherwise =>
    have hnext := next?_of_condition? h
    simp [Parser.statementAfter, hw, hnext, Parser.conditional, h, hbody, helse, hotherwise, bind,
      Except.bind]
  | whileLoop hw h hbody =>
    have hnext := next?_of_condition? h
    simp [Parser.statementAfter, hw, hnext, Parser.whileLoop, h, hbody, bind, Except.bind]
  | forEach hw h hbody =>
    obtain ⟨letters, hnext⟩ := next?_of_iteration? h
    simp [Parser.statementAfter, hw, hnext, Parser.forLoop, h, hbody, bind, Except.bind]
  | stop hw h =>
    simp only [List.mem_cons, List.not_mem_nil, or_false] at h
    rcases h with h | h | h <;> simp [Parser.statementAfter, hw, h]
  | waitForResponse hw h =>
    have hnext := Token.next?_of_arguments? h
    simp [Parser.statementAfter, hw, hnext, Parser.waitForResponse, h]
  | taskFile hw h hpath =>
    have hnext := Token.next?_of_arguments? h
    simp [Parser.statementAfter, hw, hnext, Parser.taskFile, h, hpath]
  | taskFileFor hw h hpath hagent =>
    have hnext := Token.next?_of_arguments? h
    simp [Parser.statementAfter, hw, hnext, Parser.taskFile, h, hpath, hagent]
  | inlineTask hw h hdescription hbody =>
    simp [statementAfter_of_inlineTask hw h hdescription, Parser.inlineTask, h, hdescription,
      hbody, bind, Except.bind]
  | parallel hw h hbody htasks =>
    obtain ⟨hnext, htail⟩ := Token.after?_eq_some_iff.1 h
    simp [Parser.statementAfter, hw, hnext, htail, Parser.parallel, hbody, htasks, bind,
      Except.bind]

theorem statementAfter_eq_ok_iff :
    statementAfter block word line tokens = .ok (s, rest) ↔
      Reads block line word tokens s rest :=
  ⟨reads_of_statementAfter, Reads.statementAfter⟩

/-! ### Statements, blocks and files -/

theorem statement_eq_ok_iff {first : Token} :
    statement block first tokens = .ok (s, rest) ↔
      ∃ letters after, first.lexeme = .word letters ∧
        Reads block first.line letters tokens s after ∧ endOfStatement after = .ok rest := by
  unfold statement
  split
  · rename_i letters hfirst
    simp only [Outcome.bind_eq_ok_iff, ← statementAfter_eq_ok_iff]
    constructor
    · rintro ⟨⟨s', after⟩, hs, left, hleft, he⟩
      cases he
      exact ⟨letters, after, hfirst, hs, hleft⟩
    · rintro ⟨letters', after, hletters, hs, hleft⟩
      obtain rfl : letters = letters' := by simpa [hfirst] using hletters
      exact ⟨(s, after), hs, rest, hleft, rfl⟩
  · rename_i hfirst
    constructor
    · rintro h
      cases h
    · rintro ⟨letters, -, hletters, -⟩
      exact absurd hletters (hfirst letters)

theorem onlyTasks?_eq_some_iff {body : List Statement} {tasks : List Task} :
    onlyTasks? body = some tasks ↔ body = tasks.map .task := by
  induction body generalizing tasks with
  | nil => cases tasks <;> simp [onlyTasks?]
  | cons s body ih =>
    cases s with
    | task t =>
      rw [onlyTasks?, Option.map_eq_some_iff]
      cases tasks with
      | nil => simp
      | cons u tasks => simp [ih, and_comm]
    | _ => cases tasks <;> simp [onlyTasks?]

theorem block_of_braced {form : Form} {body : List Statement}
    (h : braced block form line tokens = .ok (body, rest)) :
    ∃ inner, Token.after? .openBrace tokens = some inner ∧ block line inner = .ok (body, rest) := by
  unfold braced malformed at h
  split at h
  · rename_i inner hinner
    exact ⟨inner, hinner, h⟩
  · cases h

/-- A block ends at once, or it starts with a statement and goes on as a block. -/
theorem block_succ_cases {bound opened : Nat} {body : List Statement}
    (h : Parser.block (bound + 1) opened tokens = .ok (body, rest)) :
    ∃ first more, Token.skipBreaks tokens = first :: more ∧
      ((first.is .closeBrace = true ∧ body = [] ∧ rest = more) ∨
        ∃ s later after, statement (Parser.block bound) first more = .ok (s, after) ∧
          Parser.block bound opened after = .ok (later, rest) ∧ body = s :: later) := by
  rw [Parser.block] at h
  split at h
  · cases h
  · rename_i first more hskip
    split at h
    · rename_i hclose
      cases h
      exact ⟨first, _, hskip, .inl ⟨hclose, rfl, rfl⟩⟩
    · obtain ⟨⟨s, after⟩, hs, h⟩ := Outcome.bind_eq_ok_iff.1 h
      obtain ⟨⟨later, left⟩, hlater, h⟩ := Outcome.bind_eq_ok_iff.1 h
      cases h
      exact ⟨first, more, hskip, .inr ⟨s, later, after, hs, hlater, rfl⟩⟩

theorem pairBraces_cons (opened : List Nat) (t : Token) (rest : List Token) :
    pairBraces opened (t :: rest) =
      if t.is .openBrace then pairBraces (t.line :: opened) rest
      else if t.is .closeBrace then
        match opened with
        | [] => .error ⟨.strayClose, t.line⟩
        | _ :: outer => pairBraces outer rest
      else pairBraces opened rest := by
  cases opened <;> rfl

theorem command_eq_ok_iff {c : Command} :
    command tokens = .ok c ↔
      ∃ first more name inner body after, Token.skipBreaks tokens = first :: more ∧
        header? (first :: more) = some (name, inner) ∧ pairBraces [] tokens = .ok () ∧
        Parser.block (tokens.length + 1) first.line inner = .ok (body, after) ∧
        endOfFile after = .ok () ∧ c = ⟨String.ofList name, body⟩ := by
  unfold command
  split
  · rename_i h
    simp [h]
  · rename_i first more h
    rw [h]
    split
    · rename_i hheader
      constructor
      · intro hc
        cases hc
      · rintro ⟨_, _, _, _, _, _, he, hsome, -⟩
        cases he
        rw [hheader] at hsome
        cases hsome
    · rename_i name inner hheader
      simp only [Outcome.bind_eq_ok_iff]
      constructor
      · rintro ⟨⟨⟩, hbraces, ⟨body, after⟩, hblock, ⟨⟩, hend, hc⟩
        cases hc
        exact ⟨first, more, name, inner, body, after, rfl, hheader, hbraces, hblock, hend, rfl⟩
      · rintro ⟨_, _, _, _, body, after, he, hsome, hbraces, hblock, hend, rfl⟩
        cases he
        rw [hheader] at hsome
        cases hsome
        exact ⟨(), hbraces, (body, after), hblock, (), hend, rfl⟩

end Parser

theorem Command.parse_eq_ok_iff {source : String} {c : Command} :
    Command.parse source = .ok c ↔
      ∃ scanned, scan source.toList = .ok scanned ∧ Parser.command scanned.tokens = .ok c := by
  show (Except.mapError _ _) = _ ↔ _
  rw [Outcome.mapError_eq_ok_iff, Outcome.bind_eq_ok_iff]
  simp only [Outcome.mapError_eq_ok_iff]

end Playbook
