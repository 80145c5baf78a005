import Mathlib.Data.List.Basic
import Playbook.Token.Nesting

/-!
# Properly nested runs

A run is properly nested when each of its brackets is closed by its partner in order and it holds no
brace, no line break and no comma outside brackets.  Such a run is passed over as a whole, whatever
the reader counts and waits for: the end of an argument, of a condition, or of a line.
-/

namespace Playbook

/-- The signs that close the brackets which are open after a lexeme, given those before it, the
innermost first.  There is no result for a lexeme that must not stand there. -/
def enclose? (pending : List Symbol) : Lexeme → Option (List Symbol)
  | .symbol .openParen => some (.closeParen :: pending)
  | .symbol .openBracket => some (.closeBracket :: pending)
  | .symbol .closeParen => if pending.head? = some .closeParen then some pending.tail else none
  | .symbol .closeBracket => if pending.head? = some .closeBracket then some pending.tail else none
  | .symbol .comma => if pending.isEmpty then none else some pending
  | .symbol .openBrace | .symbol .closeBrace | .lineBreak => none
  | .symbol .assign | .word _ | .quoted _ _ | .operator _ => some pending

/-- Whether lexemes are properly nested, given the signs that close the open brackets. -/
def nests (pending : List Symbol) : List Lexeme → Bool
  | [] => pending.isEmpty
  | l :: rest =>
    match enclose? pending l with
    | some pending => nests pending rest
    | none => false

/-- Whether a lexeme is neither bracket, brace nor line break. -/
def Lexeme.isInert : Lexeme → Bool
  | .word _ | .quoted _ _ | .operator _ | .symbol .assign | .symbol .comma => true
  | _ => false

theorem nests_cons {pending : List Symbol} {l : Lexeme} {rest : List Lexeme}
    (h : nests pending (l :: rest) = true) :
    ∃ pending', enclose? pending l = some pending' ∧ nests pending' rest = true := by
  rw [nests] at h
  split at h
  · rename_i pending' hl
    exact ⟨pending', hl, h⟩
  · cases h

/-- What holds of every lexeme that may stand somewhere holds of all lexemes of a nested run. -/
theorem forall_mem_of_nests {P : Lexeme → Prop}
    (hP : ∀ {pending l pending'}, enclose? pending l = some pending' → P l)
    {pending : List Symbol} {lexemes : List Lexeme} (h : nests pending lexemes = true) :
    ∀ l ∈ lexemes, P l := by
  induction lexemes generalizing pending with
  | nil => simp
  | cons l lexemes ih =>
    obtain ⟨pending', hl, hrest⟩ := nests_cons h
    exact List.forall_mem_cons.2 ⟨hP hl, ih hrest⟩

variable {pending pending' : List Symbol} {l : Lexeme}

/-- A lexeme opens a bracket, closes the innermost one, or leaves the brackets alone. -/
theorem enclose?_cases (h : enclose? pending l = some pending') :
    l = .symbol .openParen ∧ pending' = .closeParen :: pending ∨
      l = .symbol .openBracket ∧ pending' = .closeBracket :: pending ∨
      l = .symbol .closeParen ∧ pending = .closeParen :: pending' ∨
      l = .symbol .closeBracket ∧ pending = .closeBracket :: pending' ∨
      l.isInert = true ∧ pending = pending' ∧ (l = .symbol .comma → pending ≠ []) := by
  have hclose : ∀ s : Symbol, (if pending.head? = some s then some pending.tail else none) =
      some pending' → pending = s :: pending' := by
    intro s hs
    cases pending with
    | nil => cases hs
    | cons expected outer =>
      split at hs
      · rename_i hhead
        cases hs
        cases hhead
        rfl
      · cases hs
  unfold enclose? at h
  split at h
  · exact .inl ⟨rfl, (Option.some.inj h).symm⟩
  · exact .inr (.inl ⟨rfl, (Option.some.inj h).symm⟩)
  · exact .inr (.inr (.inl ⟨rfl, hclose .closeParen h⟩))
  · exact .inr (.inr (.inr (.inl ⟨rfl, hclose .closeBracket h⟩)))
  · split at h
    · cases h
    · rename_i hne
      exact .inr (.inr (.inr (.inr ⟨rfl, Option.some.inj h, fun _ => by simpa using hne⟩)))
  all_goals cases h
  all_goals exact .inr (.inr (.inr (.inr ⟨rfl, rfl, by simp⟩)))

theorem eq_cons_of_enclose?_closeParen
    (h : enclose? pending (.symbol .closeParen) = some pending') :
    pending = .closeParen :: pending' := by
  simpa [Lexeme.isInert] using enclose?_cases h

theorem ne_nil_of_enclose?_comma (h : enclose? pending (.symbol .comma) = some pending') :
    pending ≠ [] := by
  rintro rfl
  cases h

theorem enclose?_of_isInert (hne : pending ≠ []) (h : l.isInert = true) :
    enclose? pending l = some pending := by
  cases l with
  | symbol s =>
    cases s with
    | comma => simp [enclose?, hne]
    | assign => rfl
    | _ => cases h
  | lineBreak => cases h
  | _ => rfl

/-- A number that a reader keeps is determined by the brackets that are open. -/
structure Counts (nest : Nat → Lexeme → Nat) (count : List Symbol → Nat) : Prop where
  nil : count [] = 0
  step : ∀ {pending l pending'}, enclose? pending l = some pending' →
    nest (count pending) l = count pending'

/-- The readers of arguments and values count all brackets. -/
theorem counts_nestBrackets : Counts Token.nestBrackets List.length where
  nil := rfl
  step := by
    intro pending l pending' h
    rcases enclose?_cases h with ⟨rfl, rfl⟩ | ⟨rfl, rfl⟩ | ⟨rfl, rfl⟩ | ⟨rfl, rfl⟩ | ⟨hl, rfl, -⟩
    · rfl
    · rfl
    · rfl
    · rfl
    · unfold Lexeme.isInert at hl
      split at hl <;> first | rfl | cases hl

/-- The reader of conditions counts parentheses. -/
theorem counts_nestParens : Counts Token.nestParens (List.count .closeParen) where
  nil := rfl
  step := by
    intro pending l pending' h
    rcases enclose?_cases h with ⟨rfl, rfl⟩ | ⟨rfl, rfl⟩ | ⟨rfl, rfl⟩ | ⟨rfl, rfl⟩ | ⟨hl, rfl, -⟩
    · simp [Token.nestParens]
    · simp [Token.nestParens]
    · simp [Token.nestParens]
    · simp [Token.nestParens]
    · unfold Lexeme.isInert at hl
      split at hl <;> first | rfl | cases hl

namespace Token

/-- The lexemes of a run. -/
def lexemes (tokens : List Token) : List Lexeme := tokens.map fun t => t.lexeme

@[simp] theorem lexemes_nil : lexemes [] = [] := rfl

@[simp] theorem lexemes_cons (t : Token) (rest : List Token) :
    lexemes (t :: rest) = t.lexeme :: lexemes rest := rfl

/-! ### Passing over a nested run -/

/-- A sign is met inside a nested run only where the number that a reader keeps is not zero. -/
def EndsRuns (count : List Symbol → Nat) (stop : Symbol) : Prop :=
  ∀ {pending pending'}, enclose? pending (.symbol stop) = some pending' → count pending ≠ 0

theorem endsRuns_openBrace (count : List Symbol → Nat) : EndsRuns count .openBrace := by
  rintro _ _ h
  cases h

theorem endsRuns_closeBrace (count : List Symbol → Nat) : EndsRuns count .closeBrace := by
  rintro _ _ h
  cases h

theorem endsRuns_length_closeParen : EndsRuns List.length .closeParen := by
  intro pending pending' h
  simp [eq_cons_of_enclose?_closeParen h]

theorem endsRuns_count_closeParen : EndsRuns (List.count .closeParen) .closeParen := by
  intro pending pending' h
  simp [eq_cons_of_enclose?_closeParen h]

variable {nest : Nat → Lexeme → Nat} {count : List Symbol → Nat} {stop : Symbol} {run : List Token}

theorem takeNested_append (hc : Counts nest count) (hstop : EndsRuns count stop)
    (h : nests pending (lexemes run) = true) (rest : List Token) :
    takeNested nest stop (count pending) (run ++ rest) =
      (run ++ (takeNested nest stop 0 rest).1, (takeNested nest stop 0 rest).2) := by
  induction run generalizing pending with
  | nil =>
    obtain rfl : pending = [] := by simpa [nests] using h
    rw [hc.nil]
    rfl
  | cons t run ih =>
    rw [lexemes_cons] at h
    obtain ⟨pending', hl, hrun⟩ := nests_cons h
    have hbreak : t.isBreak = false := by
      rw [isBreak, beq_eq_false_iff_ne]
      intro hb
      rw [hb] at hl
      cases hl
    -- where the sign stands inside the run, some bracket that the reader counts is open
    have hends : (count pending == 0 && t.is stop) = false := by
      rw [Bool.and_eq_false_imp, beq_iff_eq, is, beq_eq_false_iff_ne]
      intro hzero hsign
      rw [hsign] at hl
      exact hstop hl hzero
    rw [List.cons_append, takeNested, hbreak, hends, hc.step hl, ih hrun]
    rfl

/-- A nested run is taken whole up to what ends it. -/
theorem takeNested_eq (hc : Counts nest count) (hstop : EndsRuns count stop)
    (h : nests [] (lexemes run) = true) {t : Token}
    (ht : t.isBreak = true ∨ t.is stop = true) (rest : List Token) :
    takeNested nest stop 0 (run ++ t :: rest) = (run, t :: rest) := by
  have hend : takeNested nest stop 0 (t :: rest) = ([], t :: rest) := by
    rw [takeNested]
    rcases ht with ht | ht <;> simp [ht]
  have happend := takeNested_append hc hstop h (t :: rest)
  rw [hc.nil, hend, List.append_nil] at happend
  exact happend

/-- A nested run in parentheses, and nothing else, is a condition. -/
theorem runBefore?_nestParens (h : nests [] (lexemes run) = true) {t : Token}
    (ht : t.is .closeParen = true) (rest : List Token) :
    runBefore? nestParens .closeParen (run ++ t :: rest) = some (run, rest) := by
  rw [runBefore?, takeNested_eq counts_nestParens endsRuns_count_closeParen h (.inr ht)]
  simp [ht]

/-! ### Arguments -/

/-- Runs one after the other, with a comma between neighbours. -/
def separate (comma : Token) : List (List Token) → List Token
  | [] => []
  | [run] => run
  | run :: rest => run ++ comma :: separate comma rest

theorem cutAtCommas_append (h : nests pending (lexemes run) = true) (rest : List Token) :
    cutAtCommas pending.length (run ++ rest) = (cutAtCommas 0 rest).modifyHead (run ++ ·) := by
  induction run generalizing pending with
  | nil =>
    obtain rfl : pending = [] := by simpa [nests] using h
    cases hc : cutAtCommas 0 rest <;> simp [hc]
  | cons t run ih =>
    rw [lexemes_cons] at h
    obtain ⟨pending', hl, hrun⟩ := nests_cons h
    have hcomma : (pending.length == 0 && t.is .comma) = false := by
      rw [Bool.and_eq_false_imp, beq_iff_eq, is, beq_eq_false_iff_ne]
      intro hzero hsign
      rw [hsign] at hl
      exact ne_nil_of_enclose?_comma hl (List.eq_nil_of_length_eq_zero hzero)
    rw [List.cons_append, cutAtCommas, hcomma, counts_nestBrackets.step hl, ih hrun]
    cases hc : cutAtCommas 0 rest <;> simp

theorem cutAtCommas_separate {comma : Token} (hcomma : comma.is .comma = true)
    {runs : List (List Token)} (hne : runs ≠ [])
    (h : ∀ run ∈ runs, nests [] (lexemes run) = true) :
    cutAtCommas 0 (separate comma runs) = runs := by
  induction runs with
  | nil => exact absurd rfl hne
  | cons run rest ih =>
    rw [List.forall_mem_cons] at h
    cases rest with
    | nil =>
      have hrun := cutAtCommas_append h.1 []
      rw [List.append_nil] at hrun
      simpa [separate, cutAtCommas] using hrun
    | cons next more =>
      have hrest : cutAtCommas 0 (comma :: separate comma (next :: more)) = [] :: next :: more := by
        rw [cutAtCommas, hcomma, ih (List.cons_ne_nil next more) h.2]
        rfl
      have hrun := cutAtCommas_append h.1 (comma :: separate comma (next :: more))
      rw [hrest] at hrun
      simpa [separate] using hrun

theorem takeNested_separate {comma : Token} (hcomma : comma.is .comma = true) {t : Token}
    (ht : t.is .closeParen = true) {runs : List (List Token)}
    (h : ∀ run ∈ runs, nests [] (lexemes run) = true) (rest : List Token) :
    takeNested nestBrackets .closeParen 0 (separate comma runs ++ t :: rest) =
      (separate comma runs, t :: rest) := by
  induction runs with
  | nil => exact takeNested_eq counts_nestBrackets endsRuns_length_closeParen rfl (.inr ht) rest
  | cons run more ih =>
    rw [List.forall_mem_cons] at h
    cases more with
    | nil => exact takeNested_eq counts_nestBrackets endsRuns_length_closeParen h.1 (.inr ht) rest
    | cons next more =>
      have hlexeme : comma.lexeme = .symbol .comma := beq_iff_eq.1 hcomma
      have hskip : takeNested nestBrackets .closeParen 0
          (comma :: (separate comma (next :: more) ++ t :: rest)) =
            (comma :: separate comma (next :: more), t :: rest) := by
        have hends : (comma.isBreak || (0 == 0 && comma.is .closeParen)) = false := by
          simp [isBreak, is, hlexeme]
        have hdepth : nestBrackets 0 comma.lexeme = 0 := by rw [hlexeme]; rfl
        rw [takeNested, hends, hdepth, ih h.2]
        rfl
      have hrun := takeNested_append counts_nestBrackets endsRuns_length_closeParen h.1
        (comma :: (separate comma (next :: more) ++ t :: rest))
      rw [hskip] at hrun
      simpa [separate] using hrun

/-- Nested runs between parentheses, separated by commas, are the arguments. -/
theorem arguments?_separate {first comma last : Token} (hfirst : first.is .openParen = true)
    (hcomma : comma.is .comma = true) (hlast : last.is .closeParen = true)
    {runs : List (List Token)} (hne : ∀ run ∈ runs, run ≠ [])
    (h : ∀ run ∈ runs, nests [] (lexemes run) = true) (rest : List Token) :
    arguments? (first :: (separate comma runs ++ last :: rest)) = some (runs, rest) := by
  have hafter : after? .openParen (first :: (separate comma runs ++ last :: rest)) =
      some (separate comma runs ++ last :: rest) := by
    simp [after?, hfirst]
  have hrun : runBefore? nestBrackets .closeParen (separate comma runs ++ last :: rest) =
      some (separate comma runs, rest) := by
    rw [runBefore?, takeNested_separate hcomma hlast h]
    simp [hlast]
  unfold arguments?
  simp only [hafter, hrun, bind, Option.bind_some]
  cases runs with
  | nil => rfl
  | cons run more =>
    have hsome : (separate comma (run :: more)).isEmpty = false := by
      have hnonempty := hne run (by simp)
      cases more <;> simp [separate, hnonempty]
    have hall : (run :: more).any List.isEmpty = false := by
      rw [List.any_eq_false]
      intro r hr
      simpa using hne r hr
    rw [hsome, cutAtCommas_separate hcomma (List.cons_ne_nil run more) h, hall]
    rfl

end Token

end Playbook
