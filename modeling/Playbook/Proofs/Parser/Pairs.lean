import Playbook.Proofs.Parser.Braces

/-!
# Braces that pair up

After the braces of a file have been paired up, two readers may still complain about them: a block
that reaches the end of the file, and what follows the body of the command.  Some texts are kept as
they are written, and readers that do not count braces say where these end.  If such a text takes a
brace and leaves its partner, then braces that pair up are reported (`bareBraces`).

Where the braces of every such text pair up (`KeepsPairs`), a statement takes braces that pair up,
by the induction on the bound a block takes those up to its own end, and a block that does not end
leaves one open.  So nothing is reported (`Command.parse_of_keepsPairs`).
-/

namespace Playbook

namespace Token

/-- The run that a statement keeps as it is written, by its first word and the tokens after that:
the right-hand side of an assignment, a condition, what a loop runs through, or the arguments. -/
def keptRun? (word : List Char) (tokens : List Token) : Option (List Token) :=
  match Keyword.ofWord? word, next? tokens with
  | _, some (.symbol .assign) => some (takeNested nestBrackets .closeBrace 0 tokens.tail).1
  | some .conditional, some (.symbol .openParen) =>
    (runBefore? nestParens .closeParen tokens.tail).map Prod.fst
  | some .whileLoop, some (.symbol .openParen) =>
    (runBefore? nestParens .closeParen tokens.tail).map Prod.fst
  | _, some (.symbol .openParen) =>
    (runBefore? nestBrackets .closeParen tokens.tail).map Prod.fst
  | some .forLoop, some (.word _) => some (takeNested nestBrackets .openBrace 0 (tokens.drop 2)).1
  | _, _ => none

/-- Tokens of a file behind a line break or an opening brace, where a statement may start. -/
def IsPlace (all tokens : List Token) : Prop :=
  ∃ before t, all = before ++ t :: tokens ∧ (t.isBreak = true ∨ t.is .openBrace = true)

/-- The braces of every run that a statement keeps as it is written pair up. -/
def KeepsPairs (all : List Token) : Prop :=
  ∀ ⦃first tokens word run⦄, IsPlace all (first :: tokens) → first.lexeme = .word word →
    keptRun? word tokens = some run → Paired run

/-- Whether the braces of the text that a statement behind the first token keeps pair up, if a
statement may start there. -/
def keepsPairsBehind : List Token → Bool
  | t :: first :: tokens =>
    match first.lexeme with
    | .word word =>
      !(t.isBreak || t.is .openBrace) || (keptRun? word tokens).all fun run => decide (Paired run)
    | _ => true
  | _ => true

theorem keepsPairs_iff {all : List Token} :
    KeepsPairs all ↔ ∀ back ∈ all.tails, keepsPairsBehind back = true := by
  simp only [List.mem_tails]
  constructor
  · rintro h back ⟨before, rfl⟩
    unfold keepsPairsBehind
    split
    · rename_i t first tokens
      split
      · rename_i word hword
        cases hplace : t.isBreak || t.is .openBrace with
        | false => rfl
        | true =>
          rw [Bool.not_true, Bool.false_or, Option.all_eq_true]
          intro run hrun
          rw [Bool.or_eq_true] at hplace
          exact decide_eq_true (h ⟨before, t, rfl, hplace⟩ hword hrun)
      · rfl
    · rfl
  · rintro h first tokens word run ⟨before, t, rfl, hplace⟩ hword hrun
    have hbehind := h (t :: first :: tokens) (List.suffix_append before _)
    rw [keepsPairsBehind, hword] at hbehind
    dsimp only at hbehind
    rw [(Bool.or_eq_true _ _).mpr hplace, hrun] at hbehind
    simpa using hbehind

instance (all : List Token) : Decidable (KeepsPairs all) :=
  decidable_of_iff _ keepsPairs_iff.symm

/-! ### Tokens that are taken -/

/-- The tokens that are taken from the front until the given ones are left have braces that pair
up. -/
def Passes (tokens rest : List Token) : Prop := ∃ taken, tokens = taken ++ rest ∧ Paired taken

namespace Passes

variable {t : Token} {tokens middle rest : List Token}

theorem refl (tokens : List Token) : Passes tokens tokens := ⟨[], rfl, .nil⟩

theorem trans (h : Passes tokens middle) (hrest : Passes middle rest) : Passes tokens rest := by
  obtain ⟨taken, rfl, htaken⟩ := h
  obtain ⟨more, rfl, hmore⟩ := hrest
  exact ⟨taken ++ more, by rw [List.append_assoc], htaken.append hmore⟩

theorem of_run {run : List Token} (h : run ++ rest = tokens) (hrun : Paired run) :
    Passes tokens rest :=
  ⟨run, h.symm, hrun⟩

/-- A token that is no brace. -/
theorem cons (hopen : t.is .openBrace = false) (hclose : t.is .closeBrace = false)
    (rest : List Token) : Passes (t :: rest) rest :=
  ⟨[t], rfl, .of_forall (List.forall_mem_singleton.2 ⟨hopen, hclose⟩)⟩

theorem of_isBreak (h : t.isBreak = true) (rest : List Token) : Passes (t :: rest) rest := by
  rw [isBreak, beq_iff_eq] at h
  exact cons (by rw [is, h]; rfl) (by rw [is, h]; rfl) rest

theorem of_word {letters : List Char} (h : t.lexeme = .word letters) (rest : List Token) :
    Passes (t :: rest) rest :=
  cons (by rw [is, h]; rfl) (by rw [is, h]; rfl) rest

theorem of_is {s : Symbol} (h : t.is s = true) (hopen : s ≠ .openBrace) (hclose : s ≠ .closeBrace)
    (rest : List Token) : Passes (t :: rest) rest := by
  rw [is, beq_iff_eq] at h
  exact cons (by rw [is, h]; simpa using hopen) (by rw [is, h]; simpa using hclose) rest

theorem of_after? {s : Symbol} (h : after? s tokens = some rest) (hopen : s ≠ .openBrace)
    (hclose : s ≠ .closeBrace) : Passes tokens rest := by
  cases tokens with
  | nil => cases h
  | cons t more =>
    rw [after?] at h
    split at h
    · rename_i ht
      cases h
      exact of_is ht hopen hclose _
    · cases h

theorem skipBreaks (tokens : List Token) : Passes tokens (skipBreaks tokens) := by
  induction tokens with
  | nil => exact refl []
  | cons t tokens ih =>
    cases ht : t.isBreak with
    | true =>
      rw [Token.skipBreaks, List.dropWhile_cons_of_pos ht]
      exact (of_isBreak ht tokens).trans ih
    | false =>
      rw [Token.skipBreaks, List.dropWhile_cons_of_neg (by simp [ht])]
      exact refl _

/-- A block with its braces. -/
theorem block {close : Token} (hopen : after? .openBrace tokens = some middle)
    (h : Passes middle (close :: rest)) (hclose : close.is .closeBrace = true) :
    Passes tokens rest := by
  cases tokens with
  | nil => cases hopen
  | cons t more =>
    rw [after?] at hopen
    split at hopen
    · rename_i ht
      cases hopen
      obtain ⟨taken, rfl, htaken⟩ := h
      exact ⟨t :: (taken ++ [close]), by simp, htaken.block ht hclose⟩
    · cases hopen

/-- A run between parentheses. -/
theorem enclosed {nest : Nat → Lexeme → Nat} {inner run : List Token}
    (hinner : after? .openParen tokens = some inner)
    (h : runBefore? nest .closeParen inner = some (run, rest)) (hrun : Paired run) :
    Passes tokens rest := by
  obtain ⟨close, htake, hclose⟩ := exists_of_runBefore? h
  have hopen : Passes tokens inner := of_after? hinner nofun nofun
  have hinside : Passes inner (close :: rest) := of_run (append_of_takeNested htake).1 hrun
  exact (hopen.trans hinside).trans (of_is hclose nofun nofun rest)

theorem isSuffix (h : Passes tokens rest) : rest <:+ tokens := by
  obtain ⟨taken, rfl, -⟩ := h
  exact List.suffix_append taken rest

theorem closes_lt_iff (h : Passes tokens rest) :
    closes tokens < opens tokens ↔ closes rest < opens rest := by
  obtain ⟨taken, rfl, htaken⟩ := h
  rw [opens_append, closes_append, htaken.eq]
  omega

theorem closes_le_iff (h : Passes tokens rest) :
    closes tokens ≤ opens tokens ↔ closes rest ≤ opens rest := by
  obtain ⟨taken, rfl, htaken⟩ := h
  rw [opens_append, closes_append, htaken.eq]
  omega

end Passes

theorem closes_lt_of_after? {tokens rest : List Token} (h : after? .openBrace tokens = some rest)
    (hrest : closes rest ≤ opens rest) : closes tokens < opens tokens := by
  cases tokens with
  | nil => cases h
  | cons t more =>
    rw [after?] at h
    split at h
    · rename_i ht
      cases h
      rw [opens_of_openBrace ht, closes_of_openBrace ht]
      omega
    · cases h

/-! ### Places -/

variable {all tokens rest : List Token}

theorem IsPlace.isSuffix (h : IsPlace all tokens) : tokens <:+ all := by
  obtain ⟨before, t, rfl, -⟩ := h
  exact ⟨before ++ [t], by simp⟩

theorem isPlace_of_suffix {t : Token} (h : t :: tokens <:+ all)
    (ht : t.isBreak = true ∨ t.is .openBrace = true) : IsPlace all tokens := by
  obtain ⟨before, rfl⟩ := h
  exact ⟨before, t, rfl, ht⟩

theorem isPlace_of_after? (hall : tokens <:+ all) (h : after? .openBrace tokens = some rest) :
    IsPlace all rest := by
  cases tokens with
  | nil => cases h
  | cons t more =>
    rw [after?] at h
    split at h
    · rename_i ht
      cases h
      exact isPlace_of_suffix hall (.inr ht)
    · cases h

theorem IsPlace.skipBreaks (h : IsPlace all tokens) : IsPlace all (skipBreaks tokens) := by
  induction tokens with
  | nil => exact h
  | cons t tokens ih =>
    cases ht : t.isBreak with
    | true =>
      rw [Token.skipBreaks, List.dropWhile_cons_of_pos ht]
      exact ih (isPlace_of_suffix h.isSuffix (.inl ht))
    | false =>
      rw [Token.skipBreaks, List.dropWhile_cons_of_neg (by simp [ht])]
      exact h

/-- Tokens with which a block goes on: a statement may start, or the block or the file ends. -/
def Resumes (all tokens : List Token) : Prop :=
  IsPlace all tokens ∨ ∀ t ∈ tokens.head?, t.is .closeBrace = true

theorem Resumes.cases {first : Token} (h : Resumes all tokens)
    (hskip : skipBreaks tokens = first :: rest) :
    first.is .closeBrace = true ∨ IsPlace all (first :: rest) := by
  rcases h with h | h
  · exact .inr (hskip ▸ h.skipBreaks)
  · cases tokens with
    | nil => cases hskip
    | cons t more =>
      have ht : t.is .closeBrace = true := h t rfl
      rw [skipBreaks, List.dropWhile_cons_of_neg (by simp [not_isBreak_of_is ht])] at hskip
      cases hskip
      exact .inl ht

/-! ### Texts that are kept -/

theorem exists_run_of_arguments? {args : List (List Token)}
    (h : arguments? tokens = some (args, rest)) :
    ∃ inner run, after? .openParen tokens = some inner ∧
      runBefore? nestBrackets .closeParen inner = some (run, rest) := by
  obtain ⟨inner, hinner, h⟩ := Option.bind_eq_some_iff.1 h
  obtain ⟨⟨run, after⟩, hrun, h⟩ := Option.bind_eq_some_iff.1 h
  dsimp only at h
  split at h
  · cases h
    exact ⟨inner, run, hinner, hrun⟩
  · split at h
    · cases h
    · cases h
      exact ⟨inner, run, hinner, hrun⟩

theorem exists_run_of_condition? {condition : String}
    (h : Parser.condition? tokens = some (condition, rest)) :
    ∃ inner run, after? .openParen tokens = some inner ∧
      runBefore? nestParens .closeParen inner = some (run, rest) := by
  obtain ⟨inner, hinner, h⟩ := Option.bind_eq_some_iff.1 h
  obtain ⟨⟨run, after⟩, hrun, h⟩ := Option.bind_eq_some_iff.1 h
  dsimp only at h
  split at h
  · cases h
  · cases h
    exact ⟨inner, run, hinner, hrun⟩

section Kept

variable {word : List Char} (hkept : ∀ run, keptRun? word tokens = some run → Paired run)

include hkept

theorem passes_of_arguments? {args : List (List Token)}
    (hw : ∀ k, Keyword.ofWord? word = some k → k ≠ .conditional ∧ k ≠ .whileLoop)
    (h : arguments? tokens = some (args, rest)) : Passes tokens rest := by
  obtain ⟨inner, run, hinner, hrun⟩ := exists_run_of_arguments? h
  obtain ⟨hnext, rfl⟩ := after?_eq_some_iff.1 hinner
  refine .enclosed hinner hrun (hkept run ?_)
  unfold keptRun?
  rw [hnext]
  cases hk : Keyword.ofWord? word with
  | none => simp [hrun]
  | some k =>
    obtain ⟨hif, hwhile⟩ := hw k hk
    cases k <;> first | contradiction | simp [hrun]

theorem passes_of_condition? {condition : String}
    (hw : Keyword.ofWord? word = some .conditional ∨ Keyword.ofWord? word = some .whileLoop)
    (h : Parser.condition? tokens = some (condition, rest)) : Passes tokens rest := by
  obtain ⟨inner, run, hinner, hrun⟩ := exists_run_of_condition? h
  obtain ⟨hnext, rfl⟩ := after?_eq_some_iff.1 hinner
  refine .enclosed hinner hrun (hkept run ?_)
  rcases hw with hw | hw <;> simp [keptRun?, hw, hnext, hrun]

theorem passes_of_iteration? {name : List Char} {iterable : String}
    (hw : Keyword.ofWord? word = some .forLoop)
    (h : Parser.iteration? tokens = some (name, iterable, rest)) : Passes tokens rest := by
  obtain ⟨first, keyword, more, run, rfl, hfirst, -, hkeyword, hrun, -⟩ :=
    Parser.iteration?_eq_some_iff.1 h
  have hpaired : Paired run := hkept run (by simp [keptRun?, hw, next?, hfirst, hrun])
  have hmore := (Passes.of_word hfirst _).trans (Passes.of_word hkeyword more)
  exact hmore.trans (.of_run (append_of_takeNested hrun).1 hpaired)

theorem passes_of_assign {value run : List Token} (h : after? .assign tokens = some value)
    (hrun : takeNested nestBrackets .closeBrace 0 value = (run, rest)) : Passes tokens rest := by
  obtain ⟨hnext, rfl⟩ := after?_eq_some_iff.1 h
  have hpaired : Paired run := by
    refine hkept run ?_
    unfold keptRun?
    rw [hnext]
    cases Keyword.ofWord? word <;> simp [hrun]
  exact (Passes.of_after? h nofun nofun).trans (.of_run (append_of_takeNested hrun).1 hpaired)

end Kept

theorem passes_of_literal? {t : Token} {content : List Char} (h : literal? [t] = some content)
    (rest : List Token) : Passes (t :: rest) rest := by
  rw [literal?] at h
  split at h
  · rename_i hquoted
    exact .cons (by rw [is, hquoted]; rfl) (by rw [is, hquoted]; rfl) rest
  · cases h

theorem passes_of_leadingAgent? {agent : Agent}
    (h : Parser.leadingAgent? tokens = some (agent, rest)) : Passes tokens rest := by
  unfold Parser.leadingAgent? at h
  split at h
  · cases h
    exact .refl []
  · split at h
    · rename_i hword
      obtain ⟨_, -, he⟩ := Option.map_eq_some_iff.1 h
      cases he
      exact .of_word hword _
    · cases h
      exact .refl _

theorem passes_of_elseBlock? {line : Nat} (h : Parser.elseBlock? tokens = some (line, rest)) :
    ∃ middle, Passes tokens middle ∧ after? .openBrace middle = some rest := by
  have hskip := Passes.skipBreaks tokens
  unfold Parser.elseBlock? at h
  split at h
  · rename_i word more hmore
    rw [hmore] at hskip
    split at h
    · rename_i hword
      obtain ⟨inner, hinner, he⟩ := Option.map_eq_some_iff.1 h
      cases he
      exact ⟨more, hskip.trans (.of_word hword more), hinner⟩
    · cases h
  · cases h

end Token

open Token

/-- A fault that blames a brace. -/
def Fault.BlamesBrace (f : Fault) : Prop := f.cause = .strayClose ∨ f.cause = .unclosedBlock

/-- The message of any other fault does not begin like theirs. -/
theorem Defect.blamesBrace_of_message {d : Defect}
    (h : "Unmatched braces".toList <+: d.message.toList) : d.toFault.BlamesBrace := by
  have hfront : ∀ front rest : String, d.message = front ++ rest →
      "Unmatched braces".toList <+: front.toList ∨
        front.toList <+: "Unmatched braces".toList := by
    intro front rest he
    rw [he, String.toList_append] at h
    exact List.prefix_or_prefix_of_prefix h (List.prefix_append front.toList rest.toList)
  obtain ⟨⟨cause, line⟩, quoted⟩ := d
  cases cause with
  | strayClose => exact .inl rfl
  | unclosedBlock => exact .inr rfl
  | malformed form =>
    have hmessage := hfront form.complaint (": " ++ quoted) String.append_assoc
    cases form <;> exact absurd hmessage (by decide +kernel)
  | emptyFile =>
    dsimp only [Defect.message] at h
    exact absurd h (by decide +kernel)
  | noHeader => exact absurd (hfront _ _ String.append_assoc) (by decide +kernel)
  | unclosedString | contentAfterBody | noStatement | trailingInput | onlyTasks =>
    exact absurd (hfront _ _ rfl) (by decide +kernel)

namespace Parser

variable {all tokens rest : List Token} {block : BlockReader} {line : Nat} {word : List Char}

/-! ### Statements -/

/-- A block takes braces that pair up, and then the one that closes it. -/
def PassesBlocks (all : List Token) (block : BlockReader) : Prop :=
  ∀ ⦃opened tokens body rest⦄, IsPlace all tokens → block opened tokens = .ok (body, rest) →
    ∃ close, Passes tokens (close :: rest) ∧ close.is .closeBrace = true

section Statements

variable (hblock : PassesBlocks all block)

include hblock

theorem passes_of_block (hall : tokens <:+ all) {opened : Nat} {inner : List Token}
    {body : List Statement} (hinner : after? .openBrace tokens = some inner)
    (h : block opened inner = .ok (body, rest)) : Passes tokens rest := by
  obtain ⟨close, hpasses, hclose⟩ := hblock (isPlace_of_after? hall hinner) h
  exact hpasses.block hinner hclose

theorem passes_of_braced (hall : tokens <:+ all) {form : Form} {body : List Statement}
    (h : braced block form line tokens = .ok (body, rest)) : Passes tokens rest := by
  obtain ⟨inner, hinner, hbody⟩ := block_of_braced h
  exact passes_of_block hblock hall hinner hbody

variable (hkept : ∀ run, keptRun? word tokens = some run → Paired run)

include hkept

/-- A statement takes braces that pair up, if its text does and its blocks do. -/
theorem Reads.passes (hall : tokens <:+ all) {s : Statement}
    (h : Reads block line word tokens s rest) : Passes tokens rest := by
  cases h with
  | ask hw h | confirm hw h | createFile hw h hname | waitForResponse hw h | taskFile hw h hpath
  | taskFileFor hw h hpath hagent =>
    exact passes_of_arguments? hkept (by simp [hw]) h
  | call hw hword h =>
    refine passes_of_arguments? hkept (fun k hk => ?_) h
    have := hw k hk
    constructor <;> rintro rfl <;> cases this
  | assign hword h hrun hne => exact passes_of_assign hkept h hrun
  | ifThen hw h hbody helse =>
    have hcondition := passes_of_condition? hkept (.inl hw) h
    exact hcondition.trans (passes_of_braced hblock (hcondition.isSuffix.trans hall) hbody)
  | ifElse hw h hbody helse hotherwise =>
    have hcondition := passes_of_condition? hkept (.inl hw) h
    have hbetween := hcondition.trans
      (passes_of_braced hblock (hcondition.isSuffix.trans hall) hbody)
    obtain ⟨middle, hmiddle, hinner⟩ := passes_of_elseBlock? helse
    have hmiddle := hbetween.trans hmiddle
    exact hmiddle.trans
      (passes_of_block hblock (hmiddle.isSuffix.trans hall) hinner hotherwise)
  | whileLoop hw h hbody =>
    have hcondition := passes_of_condition? hkept (.inr hw) h
    exact hcondition.trans (passes_of_braced hblock (hcondition.isSuffix.trans hall) hbody)
  | forEach hw h hbody =>
    have hiteration := passes_of_iteration? hkept hw h
    exact hiteration.trans (passes_of_braced hblock (hiteration.isSuffix.trans hall) hbody)
  | stop hw h => exact .refl tokens
  | inlineTask hw h hdescription hbody =>
    have hafter := (passes_of_leadingAgent? h).trans (passes_of_literal? hdescription _)
    exact hafter.trans (passes_of_braced hblock (hafter.isSuffix.trans hall) hbody)
  | parallel hw h hbody htasks => exact passes_of_block hblock hall h hbody

end Statements

/-! ### Faults of statements -/

/-- A fault of a block inside, in front of which braces pair up. -/
def FailsInside (block : BlockReader) (tokens : List Token) (f : Fault) : Prop :=
  ∃ middle inner opened, Passes tokens middle ∧ after? .openBrace middle = some inner ∧
    block opened inner = .error f

theorem FailsInside.of_passes {f : Fault} (h : FailsInside block rest f)
    (hpasses : Passes tokens rest) : FailsInside block tokens f := by
  obtain ⟨middle, inner, opened, hmiddle, hinner, h⟩ := h
  exact ⟨middle, inner, opened, hpasses.trans hmiddle, hinner, h⟩

section Faults

variable {f : Fault} (hf : f.BlamesBrace)

include hf

theorem malformed_ne {α : Type} {form : Form} :
    (malformed form line : Except Fault α) ≠ .error f := by
  intro h
  cases h
  rcases hf with hf | hf <;> cases hf

theorem call_ne : call word line tokens ≠ .error f := by
  intro h
  unfold call at h
  split at h
  · split at h
    · cases h
    · exact malformed_ne hf h
  · exact malformed_ne hf h

theorem assignment_ne : assignment word line tokens ≠ .error f := by
  intro h
  unfold assignment at h
  split at h
  · dsimp only at h
    split at h
    · exact malformed_ne hf h
    · cases h
  · exact malformed_ne hf h

theorem endOfStatement_ne : endOfStatement tokens ≠ .error f := by
  intro h
  unfold endOfStatement at h
  split at h
  · cases h
  · split at h
    · cases h
    · split at h
      · cases h
      · cases h
        rcases hf with hf | hf <;> cases hf

theorem createFile_ne : createFile line tokens ≠ .error f := by
  intro h
  unfold createFile at h
  split at h
  · split at h
    · cases h
    · exact malformed_ne hf h
  · exact malformed_ne hf h

theorem taskFile_ne : taskFile line tokens ≠ .error f := by
  intro h
  unfold taskFile at h
  dsimp only at h
  split at h
  · split at h
    · cases h
    · exact malformed_ne hf h
  · split at h
    · cases h
    · exact malformed_ne hf h
  · exact malformed_ne hf h

theorem failsInside_of_braced {form : Form} (h : braced block form line tokens = .error f) :
    FailsInside block tokens f := by
  unfold braced at h
  split at h
  · rename_i inner hinner
    exact ⟨tokens, inner, line, .refl tokens, hinner, h⟩
  · exact absurd h (malformed_ne hf)

theorem failsInside_of_inlineTask (h : inlineTask block line tokens = .error f) :
    FailsInside block tokens f := by
  unfold inlineTask at h
  split at h
  · rename_i agent first after hagent
    split at h
    · rename_i c cs hdescription
      rcases Outcome.bind_eq_error_iff.1 h with h | ⟨_, -, h⟩
      · refine (failsInside_of_braced hf h).of_passes ?_
        exact (passes_of_leadingAgent? hagent).trans (passes_of_literal? hdescription after)
      · cases h
    · exact absurd h (malformed_ne hf)
  · exact absurd h (malformed_ne hf)

theorem failsInside_of_parallel {inner : List Token}
    (hinner : after? .openBrace tokens = some inner)
    (h : parallel block line inner = .error f) : FailsInside block tokens f := by
  rcases Outcome.bind_eq_error_iff.1 h with h | ⟨_, -, h⟩
  · exact ⟨tokens, inner, line, .refl tokens, hinner, h⟩
  · dsimp only at h
    split at h
    · cases h
    · cases h
      rcases hf with hf | hf <;> cases hf

variable (hkept : ∀ run, keptRun? word tokens = some run → Paired run)

include hkept

theorem failsInside_of_whileLoop (hw : Keyword.ofWord? word = some .whileLoop)
    (h : whileLoop block line tokens = .error f) : FailsInside block tokens f := by
  unfold whileLoop at h
  split at h
  · exact absurd h (malformed_ne hf)
  · rename_i condition after hcondition
    rcases Outcome.bind_eq_error_iff.1 h with h | ⟨_, -, h⟩
    · exact (failsInside_of_braced hf h).of_passes (passes_of_condition? hkept (.inr hw) hcondition)
    · cases h

theorem failsInside_of_forLoop (hw : Keyword.ofWord? word = some .forLoop)
    (h : forLoop block line tokens = .error f) : FailsInside block tokens f := by
  unfold forLoop at h
  split at h
  · exact absurd h (malformed_ne hf)
  · rename_i name iterable after hiteration
    rcases Outcome.bind_eq_error_iff.1 h with h | ⟨_, -, h⟩
    · exact (failsInside_of_braced hf h).of_passes (passes_of_iteration? hkept hw hiteration)
    · cases h

variable (hblock : PassesBlocks all block) (hall : tokens <:+ all)

include hblock hall

theorem failsInside_of_conditional (hw : Keyword.ofWord? word = some .conditional)
    (h : conditional block line tokens = .error f) : FailsInside block tokens f := by
  unfold conditional at h
  split at h
  · exact absurd h (malformed_ne hf)
  · rename_i condition after hcondition
    have hafter := passes_of_condition? hkept (.inl hw) hcondition
    rcases Outcome.bind_eq_error_iff.1 h with h | ⟨⟨body, between⟩, hbody, h⟩
    · exact (failsInside_of_braced hf h).of_passes hafter
    · have hbetween := hafter.trans (passes_of_braced hblock (hafter.isSuffix.trans hall) hbody)
      dsimp only at h
      split at h
      · rename_i elseLine inner helse
        obtain ⟨middle, hmiddle, hinner⟩ := passes_of_elseBlock? helse
        rcases Outcome.bind_eq_error_iff.1 h with h | ⟨_, -, h⟩
        · exact ⟨middle, inner, elseLine, hbetween.trans hmiddle, hinner, h⟩
        · cases h
      · cases h

/-- A statement that blames a brace has a block that does. -/
theorem failsInside_of_statementAfter (h : statementAfter block word line tokens = .error f) :
    FailsInside block tokens f := by
  unfold statementAfter at h
  split at h
  · unfold ask at h
    split at h
    · cases h
    · exact absurd h (malformed_ne hf)
  · unfold confirm at h
    split at h
    · cases h
    · exact absurd h (malformed_ne hf)
  · exact absurd h (createFile_ne hf)
  · rename_i hw _
    exact failsInside_of_conditional hf hkept hblock hall hw h
  · rename_i hw _
    exact failsInside_of_whileLoop hf hkept hw h
  · rename_i hw _
    exact failsInside_of_forLoop hf hkept hw h
  · exact absurd h (assignment_ne hf)
  · exact absurd h (taskFile_ne hf)
  · exact failsInside_of_inlineTask hf h
  · rename_i hnext
    exact failsInside_of_parallel hf (after?_eq_some_iff.2 ⟨hnext, rfl⟩) h
  · cases h
  · cases h
  · cases h
  · unfold waitForResponse at h
    split at h
    · cases h
    · exact absurd h (malformed_ne hf)
  · exact absurd h (assignment_ne hf)
  · exact absurd h (call_ne hf)
  · cases h
    rcases hf with hf | hf <;> cases hf

end Faults

/-! ### Blocks -/

theorem resumes_of_endOfStatement (hall : tokens <:+ all) (h : endOfStatement tokens = .ok rest) :
    Passes tokens rest ∧ Resumes all rest := by
  unfold endOfStatement at h
  split at h
  · cases h
    exact ⟨.refl [], .inr (by simp)⟩
  · rename_i t more
    split at h
    · rename_i ht
      cases h
      exact ⟨.of_isBreak ht _, .inl (isPlace_of_suffix hall (.inl ht))⟩
    · split at h
      · rename_i ht
        cases h
        exact ⟨.refl _, .inr (by simpa using ht)⟩
      · cases h

theorem passes_of_statement (hkeeps : KeepsPairs all) (hblock : PassesBlocks all block)
    {first : Token} (hplace : IsPlace all (first :: tokens)) {s : Statement}
    (h : statement block first tokens = .ok (s, rest)) :
    Passes (first :: tokens) rest ∧ Resumes all rest := by
  obtain ⟨letters, after, hfirst, hreads, hend⟩ := statement_eq_ok_iff.1 h
  have htokens : tokens <:+ all := (List.suffix_cons first tokens).trans hplace.isSuffix
  have hafter := hreads.passes hblock (fun run => hkeeps hplace hfirst) htokens
  obtain ⟨hpasses, hresumes⟩ := resumes_of_endOfStatement (hafter.isSuffix.trans htokens) hend
  exact ⟨((Passes.of_word hfirst tokens).trans hafter).trans hpasses, hresumes⟩

/-- A block takes braces that pair up, and then its own end. -/
theorem passes_of_block_eq_ok (hkeeps : KeepsPairs all) {bound opened : Nat}
    {body : List Statement} (hresumes : Resumes all tokens)
    (h : Parser.block bound opened tokens = .ok (body, rest)) :
    ∃ close, Passes tokens (close :: rest) ∧ close.is .closeBrace = true := by
  induction bound generalizing opened tokens body rest with
  | zero => cases h
  | succ bound ih =>
    obtain ⟨first, more, hskip, h⟩ := block_succ_cases h
    have hfirst : Passes tokens (first :: more) := hskip ▸ .skipBreaks tokens
    rcases h with ⟨hclose, -, rfl⟩ | ⟨s, later, after, hs, hlater, -⟩
    · exact ⟨first, hfirst, hclose⟩
    · rcases hresumes.cases hskip with hclose | hplace
      · -- a statement does not start with a brace
        obtain ⟨letters, -, hword, -⟩ := statement_eq_ok_iff.1 hs
        rw [is, hword] at hclose
        cases hclose
      · have hblock : PassesBlocks all (Parser.block bound) :=
          fun _ _ _ _ hinner => ih (.inl hinner)
        obtain ⟨hpasses, hresumes⟩ := passes_of_statement hkeeps hblock hplace hs
        obtain ⟨close, hrest, hclose⟩ := ih hresumes hlater
        exact ⟨close, (hfirst.trans hpasses).trans hrest, hclose⟩

theorem passesBlocks_block (hkeeps : KeepsPairs all) (bound : Nat) :
    PassesBlocks all (Parser.block bound) :=
  fun _ _ _ _ hplace => passes_of_block_eq_ok hkeeps (.inl hplace)

theorem failsInside_of_statement (hkeeps : KeepsPairs all) (hblock : PassesBlocks all block)
    {first : Token} (hplace : IsPlace all (first :: tokens)) {f : Fault} (hf : f.BlamesBrace)
    (h : statement block first tokens = .error f) :
    ∃ letters, first.lexeme = .word letters ∧ FailsInside block tokens f := by
  have htokens : tokens <:+ all := (List.suffix_cons first tokens).trans hplace.isSuffix
  unfold statement at h
  split at h
  · rename_i letters hfirst
    rcases Outcome.bind_eq_error_iff.1 h with h | ⟨⟨s, after⟩, -, h⟩
    · refine ⟨letters, hfirst, ?_⟩
      exact failsInside_of_statementAfter hf (fun run => hkeeps hplace hfirst) hblock htokens h
    · rcases Outcome.bind_eq_error_iff.1 h with h | ⟨_, -, h⟩
      · exact absurd h (endOfStatement_ne hf)
      · cases h
  · cases h
    rcases hf with hf | hf <;> cases hf

/-- A block that blames a brace leaves one open: no more are closed than opened.  The bound exceeds
the number of tokens, so that it is not used up. -/
theorem closes_le_of_block_eq_error (hkeeps : KeepsPairs all) {bound opened : Nat} {f : Fault}
    (hf : f.BlamesBrace) (hresumes : Resumes all tokens) (hbound : tokens.length < bound)
    (h : Parser.block bound opened tokens = .error f) : closes tokens ≤ opens tokens := by
  induction bound generalizing opened tokens with
  | zero => exact absurd hbound (Nat.not_lt_zero _)
  | succ bound ih =>
    have hskip := Passes.skipBreaks tokens
    rw [Parser.block] at h
    split at h
    · rename_i hend
      rw [hend] at hskip
      exact hskip.closes_le_iff.2 le_rfl
    · rename_i first more hfirst
      have hcases := hresumes.cases hfirst
      rw [hfirst] at hskip
      split at h
      · cases h
      · rename_i hclose
        have hplace := hcases.resolve_left hclose
        have hblock := passesBlocks_block hkeeps bound
        have hlength := hskip.isSuffix.length_le
        rw [List.length_cons] at hlength
        refine hskip.closes_le_iff.2 ?_
        rcases Outcome.bind_eq_error_iff.1 h with h | ⟨⟨s, after⟩, hs, h⟩
        · obtain ⟨letters, hword, middle, inner, line, hmiddle, hinner, h⟩ :=
            failsInside_of_statement hkeeps hblock hplace hf h
          have hinside := ((suffix_of_after? hinner).trans hmiddle.isSuffix).length_le
          have hmiddle := (Passes.of_word hword more).trans hmiddle
          have hplace := isPlace_of_after? (hmiddle.isSuffix.trans hplace.isSuffix) hinner
          have hle := ih (.inl hplace) (by omega) h
          exact (hmiddle.closes_lt_iff.2 (closes_lt_of_after? hinner hle)).le
        · obtain ⟨hpasses, hresumes⟩ := passes_of_statement hkeeps hblock hplace hs
          have hsuffix := suffix_of_statement (leavesSuffix_block bound) hs
          have hafter := hsuffix.length_le
          rcases Outcome.bind_eq_error_iff.1 h with h | ⟨_, -, h⟩
          · exact hpasses.closes_le_iff.2 (ih hresumes (by omega) h)
          · cases h

/-! ### Files -/

theorem not_blamesBrace_of_endOfFile (hpaired : Paired tokens) (hrest : Passes tokens rest)
    {f : Fault} (h : endOfFile rest = .error f) : ¬f.BlamesBrace := by
  have hskip := hrest.trans (.skipBreaks rest)
  unfold endOfFile at h
  split at h
  · cases h
  · rename_i t more hmore
    rw [hmore] at hskip
    split at h
    · -- this brace would close more than what is open
      rename_i ht
      obtain ⟨taken, htokens, htaken⟩ := hskip
      have hle := hpaired.le (taken ++ [t]) ⟨more, by simp [htokens]⟩
      exact absurd (htaken.isFirstStray ht).lt (Nat.not_lt.2 hle)
    · cases h
      rintro (hf | hf) <;> cases hf

theorem not_blamesBrace_of_command (hkeeps : KeepsPairs tokens) (hpaired : Paired tokens)
    {f : Fault} (h : command tokens = .error f) : ¬f.BlamesBrace := by
  intro hf
  unfold command at h
  split at h
  · cases h
    rcases hf with hf | hf <;> cases hf
  · rename_i first more hskip
    split at h
    · cases h
      rcases hf with hf | hf <;> cases hf
    · rename_i name inner hheader
      obtain ⟨keyword, named, rest, he, hkeyword, hnamed, -, hinner⟩ :=
        header?_eq_some_iff.1 hheader
      have hrest : Passes tokens rest := by
        refine (Passes.skipBreaks tokens).trans ?_
        rw [hskip, he]
        exact (Passes.of_word hkeyword _).trans (Passes.of_word hnamed rest)
      have hplace := isPlace_of_after? hrest.isSuffix hinner
      rw [pairBraces_eq_ok_iff.2 hpaired] at h
      rcases Outcome.bind_eq_error_iff.1 h with h | ⟨_, -, h⟩
      · cases h
      rcases Outcome.bind_eq_error_iff.1 h with h | ⟨⟨body, after⟩, hbody, h⟩
      · -- the brace of the command would be left open
        have hlength := hplace.isSuffix.length_le
        have hle := closes_le_of_block_eq_error hkeeps hf (.inl hplace) (by omega) h
        have hlt := hrest.closes_lt_iff.2 (closes_lt_of_after? hinner hle)
        have := hpaired.eq
        omega
      · rcases Outcome.bind_eq_error_iff.1 h with h | ⟨_, -, h⟩
        · have hafter := hrest.trans (passes_of_block (passesBlocks_block hkeeps _)
            hrest.isSuffix hinner hbody)
          exact not_blamesBrace_of_endOfFile hpaired hafter h hf
        · cases h

end Parser

/-- In a file that scans and starts with the declaration of a command, braces that pair up are not
reported as unmatched if those of every text that a statement keeps as it is written pair up. -/
theorem Command.parse_of_keepsPairs {source : String} {s : Scan} (hs : scan source.toList = .ok s)
    (hpaired : Paired s.tokens) (hkeeps : KeepsPairs s.tokens) {d : Defect}
    (h : Command.parse source = .error d) :
    ¬"Unmatched braces".toList <+: d.message.toList := by
  intro hmessage
  obtain ⟨f, rfl, ⟨n, hn, rfl⟩ | ⟨scanned, hscan, hf⟩⟩ := Command.parse_eq_error_cases h
  · rw [hs] at hn
    cases hn
  · rw [hs] at hscan
    cases hscan
    exact Parser.not_blamesBrace_of_command hkeeps hpaired hf
      (Defect.blamesBrace_of_message hmessage)

/-- Braces in a value, in a condition and around blocks, and a call that does not end. -/
def enclosedBraces : String :=
  "command c \x7b\n x = (\x7b\x7d)\n if (f(\x7b y \x7d)) \x7b x = 1 \x7d\n ask(\n\x7d"

theorem Command.parse_of_keepsPairs_enclosedBraces :
    ∃ s d, scan enclosedBraces.toList = .ok s ∧ Paired s.tokens ∧ KeepsPairs s.tokens ∧
      Command.parse enclosedBraces = .error d ∧
      ¬"Unmatched braces".toList <+: d.message.toList := by
  have hs : scan enclosedBraces.toList = .ok (scanned enclosedBraces) := by
    with_unfolding_all rfl
  have hpaired : Paired (scanned enclosedBraces).tokens := by decide +kernel
  have hkeeps : KeepsPairs (scanned enclosedBraces).tokens := by decide +kernel
  have h : Command.parse enclosedBraces = .error ⟨⟨.malformed .ask, 4⟩, "ask("⟩ := by
    with_unfolding_all rfl
  exact ⟨_, _, hs, hpaired, hkeeps, h, Command.parse_of_keepsPairs hs hpaired hkeeps h⟩

/-- A value of two braces, of which the assignment takes one. -/
def bareBraces : String := "command c \x7b\n  x = \x7b\x7d\n\x7d"

/-- Braces that pair up are reported if an assignment takes one of them and not its partner. -/
theorem bareBraces_reported :
    ∃ s d, scan bareBraces.toList = .ok s ∧ BeginCommand s.tokens ∧ Paired s.tokens ∧
      Command.parse bareBraces = .error d ∧ d.line = 3 ∧
      "Unmatched braces".toList <+: d.message.toList := by
  have hs : scan bareBraces.toList = .ok (scanned bareBraces) := by with_unfolding_all rfl
  have hbegin : BeginCommand (scanned bareBraces).tokens :=
    Parser.beginCommand_iff.2 ⟨_, _, by with_unfolding_all rfl⟩
  have h : Command.parse bareBraces = .error ⟨⟨.strayClose, 3⟩, "\x7d"⟩ := by
    with_unfolding_all rfl
  exact ⟨_, _, hs, hbegin, by decide +kernel, h, rfl, by decide +kernel⟩

end Playbook
