import Playbook.Proofs.Parser.Positions

/-!
# What argument lists are

An argument list is told by the depth of brackets alone.  It ends at the first closing parenthesis
at depth zero, which must come before the line does, and its arguments are what stands between the
commas at depth zero in front of that.  None of them may be empty, except that there may be none at
all.

`ArgumentList` says this about the tokens, without a word on how they are read, and
`arguments?_eq_some_iff` that it is what is read.  In place, the arguments are told by ranges of
positions.  These follow each other with one comma between neighbours (`rangesFrom`), since the loop
starts each of them behind the comma that ends the one before (`Abut`).
-/

namespace Playbook.Token

variable {nest : Nat → Lexeme → Nat} {s : Symbol} {depth : Nat}
variable {tokens rest run piece after : List Token} {t : Token}

/-! ### Depth -/

/-- The number of brackets that are open behind a run, if the given number of them is open in front
of it. -/
def depthAfter (nest : Nat → Lexeme → Nat) (depth : Nat) (run : List Token) : Nat :=
  run.foldl (fun depth t => nest depth t.lexeme) depth

@[simp] theorem depthAfter_nil : depthAfter nest depth [] = depth := rfl

@[simp] theorem depthAfter_cons :
    depthAfter nest depth (t :: run) = depthAfter nest (nest depth t.lexeme) run := rfl

/-- Nowhere in a run does the given sign stand at depth zero. -/
def Avoids (nest : Nat → Lexeme → Nat) (s : Symbol) (depth : Nat) (run : List Token) : Prop :=
  ∀ front t back, run = front ++ t :: back → depthAfter nest depth front = 0 → t.is s = false

theorem avoids_nil : Avoids nest s depth [] := by
  intro front t back h
  simp at h

theorem avoids_cons :
    Avoids nest s depth (t :: run) ↔
      (depth = 0 → t.is s = false) ∧ Avoids nest s (nest depth t.lexeme) run := by
  constructor
  · intro h
    refine ⟨h [] t run rfl, fun front u back hrun => ?_⟩
    exact h (t :: front) u back (congrArg (t :: ·) hrun)
  · rintro ⟨hhead, htail⟩ front u back hrun
    cases front with
    | nil =>
      cases hrun
      exact hhead
    | cons v front =>
      cases hrun
      exact htail front u back rfl

/-- A run ends at a token: this is the first one with the given sign at depth zero. -/
structure Ends (nest : Nat → Lexeme → Nat) (s : Symbol) (depth : Nat) (run : List Token)
    (t : Token) : Prop where
  is : t.is s = true
  depth_eq : depthAfter nest depth run = 0
  avoids : Avoids nest s depth run

theorem ends_cons {u : Token} :
    Ends nest s depth (u :: run) t ↔
      (depth = 0 → u.is s = false) ∧ Ends nest s (nest depth u.lexeme) run t := by
  constructor
  · intro h
    obtain ⟨hhead, htail⟩ := avoids_cons.1 h.avoids
    exact ⟨hhead, h.is, h.depth_eq, htail⟩
  · rintro ⟨hhead, h⟩
    exact ⟨h.is, h.depth_eq, avoids_cons.2 ⟨hhead, h.avoids⟩⟩

/-- Either a sign stands at depth zero, and then there is a first place where it does, or not. -/
theorem avoids_or_exists_ends (nest : Nat → Lexeme → Nat) (s : Symbol) (depth : Nat)
    (tokens : List Token) :
    Avoids nest s depth tokens ∨
      ∃ run t rest, tokens = run ++ t :: rest ∧ Ends nest s depth run t := by
  induction tokens generalizing depth with
  | nil => exact .inl avoids_nil
  | cons u tokens ih =>
    by_cases hu : depth = 0 ∧ u.is s = true
    · exact .inr ⟨[], u, tokens, rfl, hu.2, hu.1, avoids_nil⟩
    · have hhead : depth = 0 → u.is s = false := by simpa using hu
      rcases ih (nest depth u.lexeme) with h | ⟨run, t, rest, rfl, h⟩
      · exact .inl (avoids_cons.2 ⟨hhead, h⟩)
      · exact .inr ⟨u :: run, t, rest, rfl, ends_cons.2 ⟨hhead, h⟩⟩

/-! ### The end of a run -/

theorem takeNested_append_of_ends (h : Ends nest s depth run t)
    (hrun : ∀ u ∈ run, u.isBreak = false) (rest : List Token) :
    takeNested nest s depth (run ++ t :: rest) = (run, t :: rest) := by
  induction run generalizing depth with
  | nil =>
    obtain rfl : depth = 0 := h.depth_eq
    simp [takeNested, h.is]
  | cons u run ih =>
    obtain ⟨hhead, h⟩ := ends_cons.1 h
    rw [List.forall_mem_cons] at hrun
    have hgo : (u.isBreak || (depth == 0 && u.is s)) = false := by
      simpa [hrun.1] using hhead
    rw [List.cons_append, takeNested, hgo, ih h hrun.2]
    rfl

theorem ends_of_takeNested (ht : t.is s = true)
    (h : takeNested nest s depth tokens = (run, t :: rest)) : Ends nest s depth run t := by
  have hbreak : t.isBreak = false := by
    rw [isBreak, beq_iff_eq.1 ht]
    rfl
  induction tokens generalizing depth run with
  | nil => cases h
  | cons u tokens ih =>
    rw [takeNested] at h
    split at h
    · rename_i hends
      cases h
      have hdepth : depth = 0 := by simpa [hbreak, ht] using hends
      exact ⟨ht, hdepth, avoids_nil⟩
    · rename_i hgo
      have hhead : depth = 0 → u.is s = false := by
        rw [Bool.or_eq_true, not_or] at hgo
        simpa using hgo.2
      cases hmore : takeNested nest s (nest depth u.lexeme) tokens with
      | mk more left =>
        rw [hmore] at h
        cases h
        exact ends_cons.2 ⟨hhead, ih hmore⟩

/-- A run that is read ends at its sign, and no line breaks before that. -/
theorem runBefore?_eq_some_iff :
    runBefore? nest s tokens = some (run, rest) ↔
      (∃ t, tokens = run ++ t :: rest ∧ Ends nest s 0 run t) ∧ ∀ u ∈ run, u.isBreak = false := by
  constructor
  · intro h
    obtain ⟨t, htake, ht⟩ := exists_of_runBefore? h
    obtain ⟨happend, hrun⟩ := append_of_takeNested htake
    exact ⟨⟨t, happend.symm, ends_of_takeNested ht htake⟩, hrun⟩
  · rintro ⟨⟨t, rfl, h⟩, hrun⟩
    rw [runBefore?, takeNested_append_of_ends h hrun]
    simp [h.is]

/-! ### Pieces between commas -/

/-- A run is cut into pieces at its commas at depth zero. -/
inductive Cut : List Token → List (List Token) → Prop
  | whole {piece : List Token} (h : Avoids nestBrackets .comma 0 piece) : Cut piece [piece]
  | cons {piece rest : List Token} {t : Token} {pieces : List (List Token)}
      (h : Ends nestBrackets .comma 0 piece t) (hrest : Cut rest pieces) :
      Cut (piece ++ t :: rest) (piece :: pieces)

theorem cutAtCommas_of_avoids (h : Avoids nestBrackets .comma depth run) :
    cutAtCommas depth run = [run] := by
  induction run generalizing depth with
  | nil => rfl
  | cons u run ih =>
    obtain ⟨hhead, h⟩ := avoids_cons.1 h
    have hgo : (depth == 0 && u.is .comma) = false := by simpa using hhead
    rw [cutAtCommas, hgo, ih h]
    rfl

theorem cutAtCommas_append_of_ends (h : Ends nestBrackets .comma depth piece t)
    (rest : List Token) :
    cutAtCommas depth (piece ++ t :: rest) = piece :: cutAtCommas 0 rest := by
  induction piece generalizing depth with
  | nil =>
    obtain rfl : depth = 0 := h.depth_eq
    simp [cutAtCommas, h.is]
  | cons u piece ih =>
    obtain ⟨hhead, h⟩ := ends_cons.1 h
    have hgo : (depth == 0 && u.is .comma) = false := by simpa using hhead
    rw [List.cons_append, cutAtCommas, hgo, ih h]
    rfl

theorem cut_cutAtCommas (run : List Token) : Cut run (cutAtCommas 0 run) := by
  induction hn : run.length using Nat.strongRecOn generalizing run with
  | ind n ih =>
    rcases avoids_or_exists_ends nestBrackets .comma 0 run with h | ⟨piece, t, rest, rfl, h⟩
    · rw [cutAtCommas_of_avoids h]
      exact .whole h
    · rw [cutAtCommas_append_of_ends h]
      refine .cons h (ih rest.length ?_ rest rfl)
      rw [← hn, List.length_append, List.length_cons]
      omega

theorem cut_iff {pieces : List (List Token)} : Cut run pieces ↔ cutAtCommas 0 run = pieces := by
  constructor
  · intro h
    induction h with
    | whole h => exact cutAtCommas_of_avoids h
    | cons h _ ih => rw [cutAtCommas_append_of_ends h, ih]
  · rintro rfl
    exact cut_cutAtCommas run

/-! ### Argument lists -/

/-- Behind an opening parenthesis, a run of tokens stands up to the parenthesis that closes it, on
one line, and is cut into arguments.  The tokens after the list are the last ones. -/
structure ArgumentList (inner run : List Token) (args : List (List Token)) (rest : List Token) :
    Prop where
  exists_close : ∃ t, inner = run ++ t :: rest ∧ Ends nestBrackets .closeParen 0 run t
  not_isBreak : ∀ u ∈ run, u.isBreak = false
  args : run = [] ∧ args = [] ∨ run ≠ [] ∧ Cut run args ∧ ∀ arg ∈ args, arg ≠ []

theorem arguments?_cons {first : Token} {inner : List Token} (hfirst : first.is .openParen = true) :
    arguments? (first :: inner) =
      (runBefore? nestBrackets .closeParen inner).bind fun (run, rest) =>
        if run = [] then some ([], rest)
        else if [] ∈ cutAtCommas 0 run then none
        else some (cutAtCommas 0 run, rest) := by
  have hafter : after? .openParen (first :: inner) = some inner := by simp [after?, hfirst]
  have hempty (pieces : List (List Token)) : pieces.any List.isEmpty = decide ([] ∈ pieces) := by
    rw [Bool.eq_iff_iff, List.any_eq_true, decide_eq_true_eq]
    simp
  unfold arguments?
  simp only [hafter, hempty, bind, Option.bind_some, List.isEmpty_iff, decide_eq_true_eq]

/-- Argument lists, and nothing else, are read. -/
theorem arguments?_eq_some_iff {first : Token} {inner : List Token} {args : List (List Token)}
    (hfirst : first.is .openParen = true) :
    arguments? (first :: inner) = some (args, rest) ↔ ∃ run, ArgumentList inner run args rest := by
  rw [arguments?_cons hfirst, Option.bind_eq_some_iff, Prod.exists]
  refine exists_congr fun run => ?_
  constructor
  · rintro ⟨rest', hrun, h⟩
    obtain ⟨hclose, hbreak⟩ := runBefore?_eq_some_iff.1 hrun
    dsimp only at h
    split at h
    · rename_i hnil
      cases h
      exact ⟨hclose, hbreak, .inl ⟨hnil, rfl⟩⟩
    · rename_i hne
      split at h
      · cases h
      · rename_i hfilled
        cases h
        refine ⟨hclose, hbreak, .inr ⟨hne, cut_cutAtCommas run, fun arg harg hnil => ?_⟩⟩
        exact hfilled (hnil ▸ harg)
  · intro h
    refine ⟨rest, runBefore?_eq_some_iff.2 ⟨h.exists_close, h.not_isBreak⟩, ?_⟩
    rcases h.args with ⟨rfl, rfl⟩ | ⟨hne, hcut, hfilled⟩
    · rfl
    · obtain rfl := cut_iff.1 hcut
      dsimp only
      rw [if_neg hne, if_neg fun hnil => hfilled [] hnil rfl]

/-! ### In place -/

/-- The ranges of positions of runs that follow each other with one token between neighbours. -/
def rangesFrom (start : Nat) : List (List Token) → List (Nat × Nat)
  | [] => []
  | run :: more => (start, start + run.length) :: rangesFrom (start + run.length + 1) more

/-- Ranges of positions abut, one token apart, from one position up to another. -/
def Abut (low : Nat) (ranges : List (Nat × Nat)) (high : Nat) : Prop :=
  match ranges with
  | [] => low = high
  | range :: more => range.1 = low ∧ Abut (range.2 + 1) more high

theorem Abut.snoc {low start p : Nat} {ranges : List (Nat × Nat)} (h : Abut low ranges start) :
    Abut low (ranges ++ [(start, p)]) (p + 1) := by
  induction ranges generalizing low with
  | nil =>
    obtain rfl : low = start := h
    exact ⟨rfl, rfl⟩
  | cons range ranges ih => exact ⟨h.1, ih h.2⟩

theorem Abut.eq_rangesFrom {low high : Nat} {ranges : List (Nat × Nat)}
    {args : List (List Token)} (h : Abut low ranges high)
    (hargs : List.Forall₂ (fun range run => Between tokens range.1 range.2 run) ranges args) :
    ranges = rangesFrom low args := by
  induction hargs generalizing low with
  | nil => rfl
  | @cons range run ranges args hrun _ ih =>
    obtain ⟨start, stop⟩ := range
    obtain ⟨rfl, h⟩ := h
    obtain ⟨_, -, hstop⟩ := hrun
    dsimp only at h hstop ⊢
    rw [rangesFrom, ← hstop, ih h]

/-- The loop over positions starts every argument behind the comma before it. -/
theorem exists_abut_of_argumentsFrom {tape : Tape} {ranges : List (Nat × Nat)}
    {low start p : Nat} {found : List (Nat × Nat) × Nat} (habut : Abut low ranges start)
    (h : tape.argumentsFrom ranges depth start p = some (some found)) :
    ∃ high, Abut low found.1 high := by
  fun_induction Tape.argumentsFrom tape ranges depth start p with
  | case1 | case2 | case7 | case8 => cases h
  | case3 _ _ _ _ _ _ _ _ ih | case10 _ _ _ _ _ _ _ _ _ _ _ ih => exact ih habut h
  | case4 _ _ _ _ _ _ _ _ _ ih =>
    obtain ⟨depth, -, h⟩ := Option.bind_eq_some_iff.1 h
    exact ih depth habut h
  | case5 =>
    cases h
    exact ⟨_, habut.snoc⟩
  | case6 =>
    cases h
    exact ⟨_, habut⟩
  | case9 _ _ _ _ _ _ _ _ _ _ _ _ ih => exact ih habut.snoc h

variable {first : Token} {inner : List Token} {source : String} {p : Nat}

theorem argumentsFrom_of_argumentsAt {tape : Tape} {form : Form} {line : Nat}
    {found : List (Nat × Nat) × Nat} (h : tape.argumentsAt form line p = pure found) :
    tape.argumentsFrom [] 0 (p + 1) (p + 1) = some (some found) := by
  unfold Tape.argumentsAt at h
  split at h
  · cases hfrom : tape.argumentsFrom [] 0 (p + 1) (p + 1) with
    | none =>
      rw [hfrom] at h
      cases h
    | some result =>
      rw [hfrom, liftM_some_bind] at h
      cases result with
      | none => cases h
      | some found' =>
        cases h
        rfl
  · cases h

/-- At an opening parenthesis an argument list is read exactly if there is one.  Then the ranges are
those of its arguments, and the position is that behind the parenthesis which closes it. -/
theorem Left.reads_exactly_argumentLists (h : Left tokens p (first :: inner))
    (hfirst : first.is .openParen = true) (source : String) (form : Form) (line : Nat) :
    (∀ run args rest, ArgumentList inner run args rest →
      arguments? (first :: inner) = some (args, rest) ∧
        (Tape.ofTokens source tokens).argumentsAt form line p =
          pure (rangesFrom (p + 1) args, p + 1 + run.length + 1)) ∧
    ((∀ run args rest, ¬ArgumentList inner run args rest) →
      arguments? (first :: inner) = none ∧
        (Tape.ofTokens source tokens).argumentsAt form line p = Tape.malformed form line) := by
  rcases h.argumentsAt_cases source with
    ⟨hnone, hfails⟩ | ⟨args', rest', ranges, q, hsome, hread, hbetween, hq, -⟩
  · refine ⟨fun run args rest hlist => ?_, fun _ => ⟨hnone, hfails form line⟩⟩
    rw [(arguments?_eq_some_iff hfirst).2 ⟨run, hlist⟩] at hnone
    cases hnone
  · constructor
    · intro run args rest hlist
      have hlists := (arguments?_eq_some_iff hfirst).2 ⟨run, hlist⟩
      rw [hsome] at hlists
      cases hlists
      have hranges : ranges = rangesFrom (p + 1) args' := by
        obtain ⟨high, habut⟩ := exists_abut_of_argumentsFrom (show Abut (p + 1) [] (p + 1) from rfl)
          (argumentsFrom_of_argumentsAt (hread form line))
        exact habut.eq_rangesFrom (hbetween.imp fun _ _ h => h.2)
      have hlength : q = p + 1 + run.length + 1 := by
        obtain ⟨t, rfl, -⟩ := hlist.exists_close
        have hp := h.length_eq
        have hq := hq.length_eq
        simp only [List.length_cons, List.length_append] at hp
        omega
      exact ⟨hsome, by rw [hread, hranges, hlength]⟩
    · intro hno
      obtain ⟨run, hlist⟩ := (arguments?_eq_some_iff hfirst).1 hsome
      exact absurd hlist (hno run args' rest')

/-- A call with brackets in an argument and a square bracket without partner in another one. -/
def nestedCall : List Token :=
  [.word "f".toList, .symbol .openParen, .symbol .openParen, .word "a".toList, .symbol .comma,
    .word "b".toList, .symbol .closeParen, .symbol .comma, .word "c".toList, .symbol .closeBracket,
    .symbol .closeParen, .lineBreak].map fun l => ⟨⟨[], l⟩, 1⟩

theorem reads_exactly_argumentLists_nestedCall :
    arguments? (nestedCall.drop 1) =
        some ([(nestedCall.drop 2).take 5, (nestedCall.drop 8).take 2], nestedCall.drop 11) ∧
      (Tape.ofTokens "f((a,b),c])\n" nestedCall).argumentsAt .call 1 1 =
        pure ([(2, 7), (8, 10)], 11) := by
  have hlist : ArgumentList (nestedCall.drop 2) ((nestedCall.drop 2).take 8)
      [(nestedCall.drop 2).take 5, (nestedCall.drop 8).take 2] (nestedCall.drop 11) := by
    have hrun : runBefore? nestBrackets .closeParen (nestedCall.drop 2) =
        some ((nestedCall.drop 2).take 8, nestedCall.drop 11) := rfl
    obtain ⟨hclose, hbreak⟩ := runBefore?_eq_some_iff.1 hrun
    exact ⟨hclose, hbreak, .inr ⟨by decide, cut_iff.2 rfl, by decide⟩⟩
  have hleft : Left nestedCall 1 (nestedCall.drop 1) := ⟨nestedCall.take 1, rfl, rfl⟩
  exact (hleft.reads_exactly_argumentLists rfl "f((a,b),c])\n" .call 1).1 _ _ _ hlist

end Playbook.Token
