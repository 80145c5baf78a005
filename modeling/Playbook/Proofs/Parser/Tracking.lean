import Playbook.Proofs.Parser.Positions

/-!
# Reading in place is safe

A reader in place *tracks* one on lists if it fails with the same fault, or has the same result and
stops where the other leaves off, and never goes back behind the place where it started.  Each
reader for a form of statement tracks its partner, provided that the readers of blocks do.  A
statement takes at least its first word, so the bound on the rounds of a block is never used up, and
a whole file is read as it is on lists (`Command.parseInPlace_eq_parse`).

As the checks of a reader in place make its outcome `none`, it passes all of them.
-/

namespace Playbook

namespace Parser

open Token

variable {α β : Type} {tokens rest : List Token} {source : String} {low p line : Nat}

/-- A reader in place does what one on lists does: it fails with the same fault, or it has the same
result and its position, which is not below the given one, is where the tokens are left. -/
def Tracks (tokens : List Token) (low : Nat) (x : Checked (α × Nat)) :
    Except Fault (Parsed α) → Prop
  | .error f => x = throw f
  | .ok (a, rest) => ∃ q, x = pure (a, q) ∧ Left tokens q rest ∧ low ≤ q

theorem Tracks.bind {x : Checked (α × Nat)} {y : Except Fault (Parsed α)}
    {f : α × Nat → Checked (β × Nat)} {g : Parsed α → Except Fault (Parsed β)}
    (h : Tracks tokens low x y)
    (hf : ∀ a q rest, Left tokens q rest → low ≤ q → Tracks tokens low (f (a, q)) (g (a, rest))) :
    Tracks tokens low (x >>= f) (y >>= g) := by
  cases y with
  | error e =>
    obtain rfl : x = throw e := h
    rfl
  | ok result =>
    obtain ⟨q, rfl, hleft, hle⟩ := h
    rw [pure_bind]
    exact hf _ q _ hleft hle

/-! ### Statements without a block -/

theorem tracks_onePhrase (form : Form) (build : Phrase → Statement) (hlie : LieIn tokens source)
    (h : Left tokens p rest) :
    Tracks tokens p ((Tape.ofTokens source tokens).onePhraseAt form build line p)
      (match arguments? rest with
        | some ([phrase], rest) => .ok (build (Phrase.ofTokens phrase), rest)
        | _ => malformed form line) := by
  rcases h.argumentsAt_cases source with
    ⟨hnone, hat⟩ | ⟨args, after, ranges, q, hsome, hat, hranges, hleft, hle⟩
  · rw [hnone, Tape.onePhraseAt, hat]
    rfl
  · rw [hsome, Tape.onePhraseAt, hat, pure_bind]
    rcases hranges with _ | ⟨⟨hwithin, hbetween⟩, _ | _⟩
    · rfl
    · refine ⟨q, ?_, hleft, hle⟩
      dsimp only
      rw [hbetween.phraseAt_eq hlie hwithin]
      rfl
    · rfl

theorem tracks_createFile (hlie : LieIn tokens source) (h : Left tokens p rest) :
    Tracks tokens p ((Tape.ofTokens source tokens).createFileAt line p)
      (createFile line rest) := by
  rcases h.argumentsAt_cases source with
    ⟨hnone, hat⟩ | ⟨args, after, ranges, q, hsome, hat, hranges, hleft, hle⟩
  · rw [createFile, hnone, Tape.createFileAt, hat]
    rfl
  · rw [createFile, hsome, Tape.createFileAt, hat, pure_bind]
    rcases hranges with _ | ⟨⟨-, hname⟩, _ | ⟨⟨hwithin, htext⟩, _ | _⟩⟩
    · rfl
    · rfl
    · dsimp only
      rw [hname.argument_eq, htext.phraseAt_eq hlie hwithin, liftM_some_bind]
      generalize literal? _ = filename
      cases filename with
      | none => rfl
      | some letters => exact ⟨q, rfl, hleft, hle⟩
    · rfl

theorem tracks_waitForResponse (h : Left tokens p rest) :
    Tracks tokens p ((Tape.ofTokens source tokens).waitForResponseAt line p)
      (waitForResponse line rest) := by
  rcases h.argumentsAt_cases source with
    ⟨hnone, hat⟩ | ⟨args, after, ranges, q, hsome, hat, hranges, hleft, hle⟩
  · rw [waitForResponse, hnone, Tape.waitForResponseAt, hat]
    rfl
  · rw [waitForResponse, hsome, Tape.waitForResponseAt, hat, pure_bind]
    rcases hranges with _ | _
    · exact ⟨q, rfl, hleft, hle⟩
    · rfl

theorem mapM_raw {ranges : List (Nat × Nat)} {args : List (List Token)}
    (hlie : LieIn tokens source)
    (h : List.Forall₂ (fun range run => Within tokens run ∧ Between tokens range.1 range.2 run)
      ranges args) :
    ranges.mapM (fun range => (Tape.ofTokens source tokens).raw range.1 range.2) =
      some (args.map fun run => String.ofList (span run)) := by
  induction h with
  | nil => rfl
  | cons hrun _ ih =>
    rw [List.mapM_cons, hrun.2.raw_eq hlie hrun.1, ih]
    rfl

theorem tracks_call {name : List Char} (hlie : LieIn tokens source) (h : Left tokens p rest) :
    Tracks tokens p ((Tape.ofTokens source tokens).callAt name line p) (call name line rest) := by
  rw [call, Tape.callAt]
  split
  · rcases h.argumentsAt_cases source with
      ⟨hnone, hat⟩ | ⟨args, after, ranges, q, hsome, hat, hranges, hleft, hle⟩
    · rw [hnone, hat]
      rfl
    · rw [hsome, hat, pure_bind]
      refine ⟨q, ?_, hleft, hle⟩
      dsimp only
      rw [mapM_raw hlie hranges]
      rfl
  · rfl

theorem tracks_assignment (hlie : LieIn tokens source) (h : Left tokens p rest)
    (name : List Char) (line : Nat) :
    Tracks tokens p ((Tape.ofTokens source tokens).assignmentAt name line p)
      (assignment name line rest) := by
  rw [assignment, Tape.assignmentAt]
  split
  · cases hrun : takeNested nestBrackets .closeBrace 0 rest with
    | mk run after =>
      obtain ⟨hafter, hbetween, hwithin⟩ := h.of_takeNested hrun
      have hscan : (Tape.ofTokens source tokens).scanTo
          (fun depth l => some (nestBrackets depth l)) .closeBrace 0 p = some (p + run.length) :=
        h.scanTo_eq (fun _ _ _ => rfl) hrun
      rw [hscan, liftM_some_bind]
      dsimp only
      by_cases hne : run = []
      · rw [if_pos (by simp [hne]), if_pos (by simp [hne])]
        rfl
      · rw [if_neg (by simpa using hne), if_neg (by simpa using hne),
          hbetween.valueAt_eq hlie (hwithin hne)]
        exact ⟨p + run.length, rfl, hafter, Nat.le_add_right ..⟩
  · rfl

theorem tracks_taskFile (h : Left tokens p rest) :
    Tracks tokens p ((Tape.ofTokens source tokens).taskFileAt line p) (taskFile line rest) := by
  rcases h.argumentsAt_cases source with
    ⟨hnone, hat⟩ | ⟨args, after, ranges, q, hsome, hat, hranges, hleft, hle⟩
  · rw [taskFile, hnone, Tape.taskFileAt, hat]
    rfl
  · rw [taskFile, hsome, Tape.taskFileAt, hat, pure_bind]
    rcases hranges with _ | ⟨⟨-, hpath⟩, _ | ⟨⟨-, hagent⟩, _ | _⟩⟩
    · rfl
    · dsimp only
      rw [hpath.argument_eq, liftM_some_bind]
      generalize literal? _ = path
      rcases path with _ | _ | ⟨c, cs⟩
      · rfl
      · rfl
      · exact ⟨q, rfl, hleft, hle⟩
    · dsimp only
      rw [hpath.argument_eq, liftM_some_bind, hagent.argument_eq, liftM_some_bind]
      generalize literal? _ = path
      generalize agent? _ = agent
      rcases path with _ | _ | ⟨c, cs⟩
      · rfl
      · rfl
      · cases agent with
        | none => rfl
        | some agent => exact ⟨q, rfl, hleft, hle⟩
    · rfl

/-! ### Statements with a block -/

/-- A reader of blocks in place does what one on lists does, from the given position on. -/
def BlockTracks (tokens : List Token) (low : Nat) (blockAt : Tape.BlockReaderAt)
    (block : BlockReader) : Prop :=
  ∀ opened p rest, Left tokens p rest → low ≤ p →
    Tracks tokens p (blockAt opened p) (block opened rest)

variable {blockAt : Tape.BlockReaderAt} {block : BlockReader}

theorem Tracks.mono {x : Checked (α × Nat)} {y : Except Fault (Parsed α)}
    (h : Tracks tokens p x y) (hle : low ≤ p) : Tracks tokens low x y := by
  cases y with
  | error e => exact h
  | ok result =>
    obtain ⟨q, hx, hleft, hq⟩ := h
    exact ⟨q, hx, hleft, hle.trans hq⟩

theorem tracks_braced {form : Form} (hblock : BlockTracks tokens low blockAt block)
    (h : Left tokens p rest) (hle : low ≤ p) :
    Tracks tokens p ((Tape.ofTokens source tokens).bracedAt blockAt form line p)
      (braced block form line rest) := by
  rcases h.after?_cases source .openBrace with ⟨hafter, hpeek⟩ | ⟨inner, hafter, hpeek, hinner⟩
  · rw [Tape.bracedAt, if_neg hpeek, braced, hafter]
    rfl
  · rw [Tape.bracedAt, if_pos hpeek, braced, hafter]
    exact (hblock line _ _ hinner (by omega)).mono (by omega)

theorem tracks_whileLoop (hlie : LieIn tokens source)
    (hblock : BlockTracks tokens low blockAt block) (h : Left tokens p rest) (hle : low ≤ p) :
    Tracks tokens p ((Tape.ofTokens source tokens).whileLoopAt blockAt line p)
      (whileLoop block line rest) := by
  rcases h.conditionAt_cases hlie with
    ⟨hnone, hat⟩ | ⟨condition, after, q, hsome, hat, hleft, hq⟩
  · rw [whileLoop, hnone, Tape.whileLoopAt, hat]
    rfl
  · rw [whileLoop, hsome, Tape.whileLoopAt, hat, pure_bind]
    refine ((tracks_braced hblock hleft (by omega)).mono hq).bind fun body r rest hrest hr => ?_
    exact ⟨r, rfl, hrest, hr⟩

theorem elseBlock?_cases (h : Left tokens p rest) (source : String) :
    let tape := Tape.ofTokens source tokens
    let q := tape.skipBreaks p
    (elseBlock? rest = none ∧ ¬(tape.peek q = some (.word "else".toList) ∧
      tape.peek (q + 1) = some (.symbol .openBrace))) ∨
    ∃ inner, elseBlock? rest = some (tape.lineAt q, inner) ∧
      (tape.peek q = some (.word "else".toList) ∧
        tape.peek (q + 1) = some (.symbol .openBrace)) ∧ Left tokens (q + 2) inner := by
  intro tape q
  have hq : Left tokens q (skipBreaks rest) := (h.skipBreaks source).1
  rw [show tape.peek q = next? (skipBreaks rest) from hq.peek, elseBlock?]
  cases hskip : skipBreaks rest with
  | nil => exact .inl ⟨rfl, by simp [next?]⟩
  | cons t more =>
    rw [hskip] at hq
    by_cases ht : t.lexeme = .word "else".toList
    · rcases hq.next.after?_cases source .openBrace with
        ⟨hafter, hpeek⟩ | ⟨inner, hafter, hpeek, hinner⟩
      · exact .inl ⟨by simp [ht, hafter], fun hword => hpeek hword.2⟩
      · have hline : tape.lineAt q = t.line := hq.lineAt
        refine .inr ⟨inner, by simp [ht, hafter, hline], ⟨congrArg some ht, hpeek⟩, hinner⟩
    · refine .inl ⟨by simp only [ht, if_false], fun hword => ht ?_⟩
      exact Option.some.inj hword.1

theorem tracks_conditional (hlie : LieIn tokens source)
    (hblock : BlockTracks tokens low blockAt block) (h : Left tokens p rest) (hle : low ≤ p) :
    Tracks tokens p ((Tape.ofTokens source tokens).conditionalAt blockAt line p)
      (conditional block line rest) := by
  rcases h.conditionAt_cases hlie with
    ⟨hnone, hat⟩ | ⟨condition, after, q, hsome, hat, hleft, hq⟩
  · rw [conditional, hnone, Tape.conditionalAt, hat]
    rfl
  · rw [conditional, hsome, Tape.conditionalAt, hat, pure_bind]
    refine ((tracks_braced hblock hleft (by omega)).mono hq).bind fun body r rest hrest hr => ?_
    have hskip := (hrest.skipBreaks source).2
    dsimp only
    rcases elseBlock?_cases hrest source with
      ⟨helse, hword⟩ | ⟨inner, helse, hword, hinner⟩
    · rw [if_neg hword, helse]
      exact ⟨r, rfl, hrest, hr⟩
    · rw [if_pos hword, helse]
      refine ((hblock _ _ _ hinner (by omega)).mono (by omega)).bind
        fun otherwise u rest hu hpu => ?_
      exact ⟨u, rfl, hu, hpu⟩

theorem tracks_parallel (hblock : BlockTracks tokens low blockAt block) (h : Left tokens p rest)
    (hle : low ≤ p) :
    Tracks tokens p (Tape.parallelAt blockAt line p) (parallel block line rest) := by
  refine (hblock line p rest h hle).bind fun body q rest hrest hq => ?_
  dsimp only
  cases onlyTasks? body with
  | none => rfl
  | some tasks => exact ⟨q, rfl, hrest, hq⟩

theorem leadingAgentAt_cases (h : Left tokens p rest) (source : String) :
    (leadingAgent? rest = none ∧ ∀ line,
      (Tape.ofTokens source tokens).leadingAgentAt line p = Tape.malformed .task line) ∨
    ∃ agent after q, leadingAgent? rest = some (agent, after) ∧
      (∀ line, (Tape.ofTokens source tokens).leadingAgentAt line p = pure (agent, q)) ∧
      Left tokens q after ∧ p ≤ q := by
  unfold Tape.leadingAgentAt
  rw [h.peek]
  cases rest with
  | nil => exact .inr ⟨.general, [], p, rfl, fun _ => rfl, h, Nat.le_refl p⟩
  | cons t more =>
    rw [next?, leadingAgent?]
    cases t.lexeme with
    | word letters =>
      dsimp only
      cases Agent.ofKeyword? (String.ofList letters) with
      | none => exact .inl ⟨rfl, fun _ => rfl⟩
      | some agent => exact .inr ⟨agent, more, p + 1, rfl, fun _ => rfl, h.next, Nat.le_succ p⟩
    | _ => exact .inr ⟨.general, t :: more, p, rfl, fun _ => rfl, h, Nat.le_refl p⟩

theorem tracks_inlineTask (hblock : BlockTracks tokens low blockAt block) (h : Left tokens p rest)
    (hle : low ≤ p) :
    Tracks tokens p ((Tape.ofTokens source tokens).inlineTaskAt blockAt line p)
      (inlineTask block line rest) := by
  rcases leadingAgentAt_cases h source with
    ⟨hnone, hat⟩ | ⟨agent, after, q, hsome, hat, hleft, hq⟩
  · rw [inlineTask, hnone, Tape.inlineTaskAt, hat]
    rfl
  · rw [inlineTask, hsome, Tape.inlineTaskAt, hat, pure_bind]
    dsimp only
    rw [hleft.peek]
    cases after with
    | nil => rfl
    | cons first more =>
      dsimp only [next?, literal?]
      cases first.lexeme with
      | quoted mark content =>
        cases content with
        | nil => rfl
        | cons c cs =>
          refine ((tracks_braced hblock hleft.next (by omega)).mono (by omega)).bind
            fun body r rest hr hpr => ?_
          exact ⟨r, rfl, hr, hpr⟩
      | _ => rfl

/-- Behind `name in`, the loop over positions goes to the brace. -/
theorem tracks_forLoop_of_head (hlie : LieIn tokens source)
    (hblock : BlockTracks tokens low blockAt block) {first keyword : Token} {name : List Char}
    (h : Left tokens p (first :: keyword :: rest)) (hle : low ≤ p)
    (hfirst : first.lexeme = .word name) (hname : isIdentifier name = true)
    (hkeyword : keyword.lexeme = .word "in".toList) :
    Tracks tokens p ((Tape.ofTokens source tokens).forLoopAt blockAt line p)
      (forLoop block line (first :: keyword :: rest)) := by
  have hinner : Left tokens (p + 2) rest := h.next.next
  cases hrun : takeNested nestBrackets .openBrace 0 rest with
  | mk run after =>
    obtain ⟨hafter, hbetween, hwithin⟩ := hinner.of_takeNested hrun
    have hscan : (Tape.ofTokens source tokens).scanTo
        (fun depth l => some (nestBrackets depth l)) .openBrace 0 (p + 2) =
          some (p + 2 + run.length) :=
      hinner.scanTo_eq (fun _ _ _ => rfl) hrun
    have hiteration : iteration? (first :: keyword :: rest) =
        if run.isEmpty then none else some (name, String.ofList (span run), after) := by
      have hwords : (isIdentifier name && keyword.lexeme == .word "in".toList) = true := by
        simp [hname, hkeyword]
      rw [iteration?, hfirst]
      dsimp only
      rw [if_pos hwords, hrun]
      cases run <;> rfl
    rw [Tape.forLoopAt, h.peek, h.next.peek, forLoop, hiteration, next?, next?, hfirst, hkeyword]
    dsimp only
    rw [if_pos ⟨hname, rfl⟩, hscan, liftM_some_bind]
    by_cases hne : run = []
    · -- both refuse to go over nothing, whether or not the brace is there
      subst hne
      rw [List.length_nil, Nat.add_zero, raw_self, liftM_some_bind, if_pos rfl, ite_self]
      rfl
    · have hsome : ¬run.isEmpty = true := by simpa using hne
      rw [if_neg hsome]
      dsimp only
      rcases hafter.after?_cases source .openBrace with
        ⟨hopen, hpeek⟩ | ⟨inner, hopen, hpeek, -⟩
      · rw [if_neg hpeek, braced, hopen]
        rfl
      · rw [if_pos hpeek, hbetween.raw_eq hlie (hwithin hne), liftM_some_bind,
          if_neg (hlie.ofList_span_ne (hwithin hne))]
        refine ((tracks_braced hblock hafter (by omega)).mono (by omega)).bind
          fun body r rest hr hpr => ?_
        exact ⟨r, rfl, hr, hpr⟩

theorem tracks_forLoop (hlie : LieIn tokens source) (hblock : BlockTracks tokens low blockAt block)
    (h : Left tokens p rest) (hle : low ≤ p) :
    Tracks tokens p ((Tape.ofTokens source tokens).forLoopAt blockAt line p)
      (forLoop block line rest) := by
  by_cases hhead : ∃ first keyword inner name, rest = first :: keyword :: inner ∧
      first.lexeme = .word name ∧ isIdentifier name = true ∧ keyword.lexeme = .word "in".toList
  · obtain ⟨first, keyword, inner, name, rfl, hfirst, hname, hkeyword⟩ := hhead
    exact tracks_forLoop_of_head hlie hblock h hle hfirst hname hkeyword
  · have hiteration : iteration? rest = none := by
      rw [Option.eq_none_iff_forall_ne_some]
      rintro ⟨name, iterable, after⟩ hsome
      obtain ⟨first, keyword, inner, _, rfl, hfirst, hname, hkeyword, -⟩ :=
        iteration?_eq_some_iff.1 hsome
      exact hhead ⟨first, keyword, inner, name, rfl, hfirst, hname, hkeyword⟩
    rw [forLoop, hiteration, Tape.forLoopAt]
    split
    · rename_i name hfirst
      rw [if_neg]
      · rfl
      · rintro ⟨hname, hkeyword⟩
        obtain ⟨first, more, rfl, hfirst, hmore⟩ := h.exists_of_peek hfirst
        obtain ⟨keyword, inner, rfl, hkeyword, -⟩ := hmore.exists_of_peek hkeyword
        exact hhead ⟨first, keyword, inner, name, rfl, hfirst, hname, hkeyword⟩
    · rfl

/-! ### Statements and blocks -/

theorem tracks_statementAfter {word : List Char} (hlie : LieIn tokens source)
    (hblock : BlockTracks tokens low blockAt block) (h : Left tokens p rest) (hle : low ≤ p) :
    Tracks tokens p ((Tape.ofTokens source tokens).statementAfterAt blockAt word line p)
      (statementAfter block word line rest) := by
  have htail : ∀ {l}, next? rest = some l → Left tokens (p + 1) rest.tail := by
    intro l hl
    cases rest with
    | nil => cases hl
    | cons t more => exact h.next
  -- the same case of the reader in place is found by what the case of the other one excludes
  unfold statementAfter
  split <;> simp only [Tape.statementAfterAt, h.peek, *]
  · exact tracks_onePhrase .ask .ask hlie h
  · exact tracks_onePhrase .confirm (fun message => .confirm message.text) hlie h
  · exact tracks_createFile hlie h
  · exact tracks_conditional hlie hblock h hle
  · exact tracks_whileLoop hlie hblock h hle
  · exact tracks_forLoop hlie hblock h hle
  · next hnext => exact (tracks_assignment hlie (htail hnext) word line).mono (Nat.le_succ p)
  · exact tracks_taskFile h
  · exact tracks_inlineTask hblock h hle
  · next hnext => exact (tracks_parallel hblock (htail hnext) (by omega)).mono (Nat.le_succ p)
  · exact ⟨p, rfl, h, Nat.le_refl p⟩
  · exact ⟨p, rfl, h, Nat.le_refl p⟩
  · exact ⟨p, rfl, h, Nat.le_refl p⟩
  · exact tracks_waitForResponse h
  · next hnext _ => exact (tracks_assignment hlie (htail hnext) word line).mono (Nat.le_succ p)
  · exact tracks_call hlie h
  · rfl

theorem tracks_endOfStatement (h : Left tokens p rest) (s : Statement) :
    Tracks tokens p ((Tape.ofTokens source tokens).endOfStatementAt p >>= fun q => pure (s, q))
      (endOfStatement rest >>= fun rest => .ok (s, rest)) := by
  rw [Tape.endOfStatementAt, h.peek]
  cases rest with
  | nil => exact ⟨p, rfl, h, Nat.le_refl p⟩
  | cons t more =>
    rw [next?, endOfStatement]
    by_cases hbreak : t.lexeme = .lineBreak
    · have hb : t.isBreak = true := beq_iff_eq.2 hbreak
      simp only [hbreak, hb, if_true]
      exact ⟨p + 1, rfl, h.next, Nat.le_succ p⟩
    · have hb : t.isBreak = false := beq_eq_false_iff_ne.2 hbreak
      by_cases hclose : t.lexeme = .symbol .closeBrace
      · simp only [hclose, hb, is, reduceCtorEq, if_false, if_true, beq_self_eq_true,
          Bool.false_eq_true]
        exact ⟨p, rfl, h, Nat.le_refl p⟩
      · rw [h.lineAt]
        simp only [hbreak, hclose, hb, is, beq_iff_eq, if_false, Bool.false_eq_true]
        rfl

theorem tracks_statement (hlie : LieIn tokens source)
    (hblock : BlockTracks tokens low blockAt block) {first : Token}
    (h : Left tokens p (first :: rest)) (hle : low ≤ p + 1) :
    Tracks tokens (p + 1) ((Tape.ofTokens source tokens).statementAt blockAt p)
      (statement block first rest) := by
  rw [Tape.statementAt, h.peek, h.lineAt, statement, next?]
  cases first.lexeme with
  | word letters =>
    dsimp only
    refine (tracks_statementAfter hlie hblock h.next hle).bind fun s q rest hq hle => ?_
    exact (tracks_endOfStatement hq s).mono hle
  | _ => rfl

/-- The bound is larger than the number of tokens that are left, and so it is not used up. -/
theorem tracks_block (hlie : LieIn tokens source) (bound opened : Nat)
    (h : Left tokens p rest) (hbound : tokens.length < bound + p) :
    Tracks tokens p ((Tape.ofTokens source tokens).blockAt bound opened p)
      (Parser.block bound opened rest) := by
  induction bound generalizing opened p rest with
  | zero =>
    have := h.le_length
    omega
  | succ bound ih =>
    obtain ⟨hskip, hle⟩ := h.skipBreaks source
    rw [Tape.blockAt, Parser.block]
    dsimp only
    rw [hskip.peek]
    cases hrest : skipBreaks rest with
    | nil => rfl
    | cons first more =>
      rw [hrest] at hskip
      rw [next?]
      by_cases hclose : first.lexeme = .symbol .closeBrace
      · simp only [hclose, is, if_true, beq_self_eq_true]
        exact ⟨_, rfl, hskip.next, by omega⟩
      · simp only [hclose, is, beq_iff_eq, if_false]
        have hblock : BlockTracks tokens ((Tape.ofTokens source tokens).skipBreaks p + 1)
            ((Tape.ofTokens source tokens).blockAt bound) (Parser.block bound) := by
          intro opened q inner hq hlow
          exact ih opened hq (by omega)
        refine Tracks.mono ?_ (Nat.le_succ_of_le hle)
        refine (tracks_statement hlie hblock hskip (Nat.le_refl _)).bind fun s q rest hq hlow => ?_
        have hlater : (Tape.ofTokens source tokens).later? _ q = some q :=
          if_pos ⟨hlow, by simpa [Tape.ofTokens] using hq.le_length⟩
        dsimp only
        rw [hlater, liftM_some_bind]
        refine ((ih opened hq (by omega)).mono hlow).bind fun later r rest hr hlow => ?_
        exact ⟨r, rfl, hr, hlow⟩

/-! ### Whole files -/

theorem headerAt_cases (h : Left tokens p rest) (source : String) :
    (header? rest = none ∧ (Tape.ofTokens source tokens).headerAt p = none) ∨
    ∃ name inner, header? rest = some (name, inner) ∧
      (Tape.ofTokens source tokens).headerAt p = some name ∧ Left tokens (p + 3) inner := by
  cases hheader : header? rest with
  | some found =>
    obtain ⟨name, inner⟩ := found
    obtain ⟨keyword, named, more, rfl, hkeyword, hnamed, hname, hopen⟩ :=
      header?_eq_some_iff.1 hheader
    rcases h.next.next.after?_cases source .openBrace with
      ⟨hnone, -⟩ | ⟨inner', hsome, hpeek, hinner⟩
    · rw [hopen] at hnone
      cases hnone
    · obtain rfl : inner = inner' := Option.some.inj (hopen.symm.trans hsome)
      refine .inr ⟨name, inner, rfl, ?_, hinner⟩
      rw [Tape.headerAt, h.next.peek, next?, hnamed, h.peek, next?, hkeyword]
      exact if_pos ⟨rfl, hname, hpeek⟩
  | none =>
    refine .inl ⟨rfl, ?_⟩
    rw [Option.eq_none_iff_forall_ne_some]
    intro name hname
    unfold Tape.headerAt at hname
    split at hname
    · rename_i letters hnamed
      split at hname
      · rename_i hdeclared
        obtain ⟨hkeyword, hletters, hopen⟩ := hdeclared
        obtain ⟨keyword, more, rfl, hkeyword, hmore⟩ := h.exists_of_peek hkeyword
        obtain ⟨named, more, rfl, hnamed, hmore⟩ := hmore.exists_of_peek hnamed
        obtain ⟨brace, inner, rfl, hbrace, -⟩ := hmore.exists_of_peek hopen
        have hsome : header? (keyword :: named :: brace :: inner) = some (letters, inner) := by
          refine header?_eq_some_iff.2 ⟨keyword, named, _, rfl, hkeyword, hnamed, hletters, ?_⟩
          simp [after?, is, hbrace]
        rw [hheader] at hsome
        cases hsome
      · cases hname
    · cases hname

theorem endOfFileAt_eq (h : Left tokens p rest) :
    (Tape.ofTokens source tokens).endOfFileAt p = ExceptT.mk (some (endOfFile rest)) := by
  obtain ⟨hskip, -⟩ := h.skipBreaks source
  rw [Tape.endOfFileAt, endOfFile, hskip.peek]
  cases hrest : skipBreaks rest with
  | nil => rfl
  | cons t more =>
    rw [hrest] at hskip
    rw [hskip.lineAt, next?]
    by_cases hclose : t.lexeme = .symbol .closeBrace
    · simp only [hclose, is, if_true, beq_self_eq_true]
      rfl
    · simp only [hclose, is, beq_iff_eq, if_false]
      rfl

theorem run_command (hlie : LieIn tokens source) :
    (Tape.ofTokens source tokens).command.run = some (command tokens) := by
  obtain ⟨hskip, -⟩ := (Left.zero tokens).skipBreaks source
  have hlength : (Tape.ofTokens source tokens).tokens.length = tokens.length := length_locate ..
  have htokens : (Tape.ofTokens source tokens).tokens.map Located.toToken = tokens :=
    map_toToken_locate ..
  rw [Tape.command, command, hlength, htokens]
  dsimp only
  cases hrest : skipBreaks tokens with
  | nil =>
    rw [hrest] at hskip
    have hend : tokens.length ≤ (Tape.ofTokens source tokens).skipBreaks 0 :=
      Nat.le_of_eq hskip.length_eq
    rw [if_pos hend]
    rfl
  | cons first more =>
    rw [hrest] at hskip
    rw [if_neg (by have := hskip.next.le_length; omega), hskip.lineAt]
    dsimp only
    rcases headerAt_cases hskip source with ⟨hnone, hat⟩ | ⟨name, inner, hsome, hat, hinner⟩
    · rw [hnone, hat]
      rfl
    · rw [hsome, hat]
      dsimp only
      cases pairBraces [] tokens with
      | error f => rfl
      | ok =>
        have hbody := tracks_block hlie (tokens.length + 1) first.line hinner (by omega)
        cases hblock : Parser.block (tokens.length + 1) first.line inner with
        | error f =>
          rw [hblock, Tracks] at hbody
          rw [hbody]
          rfl
        | ok result =>
          rw [hblock] at hbody
          obtain ⟨q, hq, hleft, -⟩ := hbody
          rw [hq]
          show ((Tape.ofTokens source tokens).endOfFileAt q >>= _).run =
            some (endOfFile result.2 >>= _)
          rw [endOfFileAt_eq hleft]
          cases endOfFile result.2 <;> rfl

end Parser

/-- Reading in place never leaves the bounds of what it works on, every statement moves the position
on, and the outcome is that of reading on lists. -/
theorem Command.parseInPlace_eq_parse (source : String) :
    Command.parseInPlace source = some (Command.parse source) := by
  simp only [parseInPlace, parse]
  cases hscan : scan source.toList with
  | error line => rfl
  | ok scanned =>
    dsimp only
    rw [Parser.run_command (Token.lieIn_of_scan hscan)]
    rfl

end Playbook
