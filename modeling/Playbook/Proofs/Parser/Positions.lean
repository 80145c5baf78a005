import Playbook.Proofs.Parser.Extent
import Playbook.Proofs.Parser.InPlace
import Playbook.Proofs.Token.Arguments

/-!
# Positions in a list of tokens

`Left tokens p rest` ties a position to what a reader on lists has before it, and `Between` the two
positions of an argument to its tokens.  With these, the loops in place find what the recursions on
lists find: a run ends where it does, arguments and conditions are the same, and the texts and
values that are cut out of the source are those of the tokens.  None of the loops leaves the bounds
of what it works on.
-/

namespace Playbook.Token

variable {tokens rest run after : List Token} {t : Token} {source : String} {p start stop : Nat}

/-! ### Positions -/

/-- From a position on, the given tokens are left. -/
def Left (tokens : List Token) (p : Nat) (rest : List Token) : Prop :=
  ∃ front, tokens = front ++ rest ∧ front.length = p

namespace Left

theorem zero (tokens : List Token) : Left tokens 0 tokens := ⟨[], rfl, rfl⟩

theorem length_eq (h : Left tokens p rest) : tokens.length = p + rest.length := by
  obtain ⟨front, rfl, rfl⟩ := h
  exact List.length_append

theorem le_length (h : Left tokens p rest) : p ≤ tokens.length := by
  rw [h.length_eq]
  exact Nat.le_add_right ..

theorem suffix (h : Left tokens p rest) : rest <:+ tokens := by
  obtain ⟨front, rfl, -⟩ := h
  exact List.suffix_append front rest

theorem append (h : Left tokens p (run ++ rest)) : Left tokens (p + run.length) rest := by
  obtain ⟨front, rfl, rfl⟩ := h
  exact ⟨front ++ run, by simp, by simp⟩

theorem next (h : Left tokens p (t :: rest)) : Left tokens (p + 1) rest :=
  append (show Left tokens p ([t] ++ rest) from h)

theorem peek (h : Left tokens p rest) : (Tape.ofTokens source tokens).peek p = next? rest := by
  obtain ⟨front, rfl, rfl⟩ := h
  cases rest with
  | nil => simp [Tape.peek, Tape.ofTokens, next?]
  | cons t rest =>
    simp only [Tape.peek, Tape.ofTokens, getElem?_locate]
    rfl

theorem exists_of_peek (h : Left tokens p rest) {l : Lexeme}
    (hpeek : (Tape.ofTokens source tokens).peek p = some l) :
    ∃ t more, rest = t :: more ∧ t.lexeme = l ∧ Left tokens (p + 1) more := by
  rw [h.peek] at hpeek
  cases rest with
  | nil => cases hpeek
  | cons t more => exact ⟨t, more, rfl, Option.some.inj hpeek, h.next⟩

theorem after?_cases (h : Left tokens p rest) (source : String) (s : Symbol) :
    (after? s rest = none ∧ (Tape.ofTokens source tokens).peek p ≠ some (.symbol s)) ∨
    ∃ inner, after? s rest = some inner ∧
      (Tape.ofTokens source tokens).peek p = some (.symbol s) ∧ Left tokens (p + 1) inner := by
  rw [h.peek]
  cases rest with
  | nil => exact .inl ⟨rfl, nofun⟩
  | cons t inner =>
    by_cases ht : t.lexeme = .symbol s
    · exact .inr ⟨inner, by simp [after?, is, ht], congrArg some ht, h.next⟩
    · exact .inl ⟨by simp [after?, is, ht], by simpa [next?] using ht⟩

theorem lineAt (h : Left tokens p (t :: rest)) :
    (Tape.ofTokens source tokens).lineAt p = t.line := by
  obtain ⟨front, rfl, rfl⟩ := h
  simp only [Tape.lineAt, Tape.ofTokens, getElem?_locate]
  rfl

theorem skipBreaks (h : Left tokens p rest) (source : String) :
    Left tokens ((Tape.ofTokens source tokens).skipBreaks p) (Token.skipBreaks rest) ∧
      p ≤ (Tape.ofTokens source tokens).skipBreaks p := by
  induction rest generalizing p with
  | nil =>
    rw [Tape.skipBreaks, dif_neg (by simp [h.peek, next?])]
    exact ⟨h, Nat.le_refl p⟩
  | cons t rest ih =>
    rw [Tape.skipBreaks, Token.skipBreaks, List.dropWhile_cons, h.peek, next?]
    by_cases hb : t.lexeme = .lineBreak
    · obtain ⟨hleft, hle⟩ := ih h.next
      simp only [isBreak, hb, dif_pos, beq_self_eq_true, if_true]
      exact ⟨hleft, by omega⟩
    · simp only [isBreak, Option.some.injEq, hb, dif_neg, beq_iff_eq, if_false, not_false_eq_true]
      exact ⟨h, Nat.le_refl p⟩

end Left

theorem LieIn.isFirm_of_within (h : LieIn tokens source) (hrun : Within tokens run) :
    Text.IsFirm (span run) := by
  refine isFirm_span hrun.ne_nil fun t ht => ?_
  exact h.isRead t (hrun.part.subset ht) (hrun.not_isBreak t ht)

theorem LieIn.ofList_span_ne (h : LieIn tokens source) (hrun : Within tokens run) :
    String.ofList (span run) ≠ "" := by
  simpa using (h.isFirm_of_within hrun).ne_nil

theorem raw_self (tape : Tape) (p : Nat) : tape.raw p p = some "" := if_pos (Nat.le_refl p)

/-- The tokens between two positions. -/
def Between (tokens : List Token) (start stop : Nat) (run : List Token) : Prop :=
  ∃ after, Left tokens start (run ++ after) ∧ stop = start + run.length

namespace Between

theorem exists_append (h : Between tokens start stop run) :
    ∃ before after, tokens = before ++ run ++ after ∧ before.length = start ∧
      (before ++ run).length = stop := by
  obtain ⟨after, ⟨before, rfl, rfl⟩, rfl⟩ := h
  exact ⟨before, after, by simp, rfl, by simp⟩

theorem between?_eq (h : Between tokens start stop run) (source : String) :
    ∃ before after, tokens = before ++ run ++ after ∧ before.length = start ∧
      (Tape.ofTokens source tokens).between? start stop =
        some (locate (Text.size (written before)) run) := by
  obtain ⟨before, after, rfl, rfl, rfl⟩ := h.exists_append
  refine ⟨before, after, rfl, rfl, ?_⟩
  rw [Tape.between?, if_pos (by simp [Tape.ofTokens])]
  have hstop : (before ++ run).length = (locate 0 (before ++ run)).length := by simp
  have hstart : before.length = (locate 0 before).length := by simp
  simp only [Tape.ofTokens]
  rw [locate_append 0 (before ++ run), hstop, List.take_left, locate_append 0 before, hstart,
    List.drop_left, Nat.zero_add]

theorem argument_eq {range : Nat × Nat} (h : Between tokens range.1 range.2 run) :
    (Tape.ofTokens source tokens).argument range = some run := by
  obtain ⟨before, after, -, -, hbetween⟩ := h.between?_eq source
  rw [Tape.argument, hbetween, Option.map_some, map_toToken_locate]

/-- The text between two positions is that of the run. -/
theorem raw_eq (h : Between tokens start stop run) (hlie : LieIn tokens source)
    (hrun : Within tokens run) :
    (Tape.ofTokens source tokens).raw start stop = some (String.ofList (span run)) := by
  have hfirm := hlie.isFirm_of_within hrun
  have hlength := List.length_pos_iff.2 hrun.ne_nil
  obtain ⟨before, after, htokens, rfl, rfl⟩ := h.exists_append
  obtain ⟨first, last, hfirst, hlast, hslice⟩ := hlie.slice?_span htokens hrun.ne_nil
  have hlt : ¬(before ++ run).length ≤ before.length := by
    rw [List.length_append]
    omega
  rw [Tape.raw, if_neg hlt]
  simp only [Tape.ofTokens, hfirst, hlast, hslice, bind, Option.bind_some, String.toList_ofList,
    hfirm.trim_eq]

theorem phraseAt_eq {range : Nat × Nat} (h : Between tokens range.1 range.2 run)
    (hlie : LieIn tokens source) (hrun : Within tokens run) :
    (Tape.ofTokens source tokens).phraseAt range = some (Phrase.ofTokens run) := by
  rw [Tape.phraseAt, h.argument_eq, Phrase.ofTokens]
  simp only [bind, Option.bind_some, h.raw_eq hlie hrun]
  cases literal? run <;> rfl

end Between

/-! ### Arrays -/

/-- With one more bracket open, the loop that counts them does what the recursion does. -/
theorem closesAt_eq {offset depth close : Nat} (h : p + rest.length = close + 1) :
    Tape.closesAt close (depth + 1) p (locate offset rest) = some (closesAtEnd depth rest) := by
  induction rest generalizing offset depth p with
  | nil => rfl
  | cons t rest ih =>
    rw [List.length_cons] at h
    have hnext : p + 1 + rest.length = close + 1 := by omega
    rw [locate, Tape.closesAt]
    unfold closesAtEnd
    change (if t.is .openBracket = true then _ else if t.is .closeBracket = true then _ else _) = _
    split
    · exact ih hnext
    · split
      · cases depth with
        | zero =>
          have hlast : p = close ↔ rest = [] := by
            rw [← List.length_eq_zero_iff]
            omega
          simp only [close?, bind, Option.bind_some, if_true, Option.some.injEq]
          rw [Bool.eq_iff_iff, beq_iff_eq, hlast, List.isEmpty_iff]
        | succ depth =>
          simp only [close?, bind, Option.bind_some, Nat.succ_ne_zero, if_false]
          exact ih hnext
      · exact ih hnext

theorem exists_of_closesAtEnd {depth : Nat} (h : closesAtEnd depth rest = true) :
    ∃ inner last, rest = inner ++ [last] ∧ last.is .closeBracket = true := by
  fun_induction closesAtEnd depth rest with
  | case1 => cases h
  | case2 depth t rest _ ih | case4 t rest _ _ depth ih | case5 depth t rest _ _ ih =>
    obtain ⟨inner, last, rfl, hlast⟩ := ih h
    exact ⟨t :: inner, last, rfl, hlast⟩
  | case3 t rest _ hclose =>
    obtain rfl := List.isEmpty_iff.1 h
    exact ⟨[], t, rfl, hclose⟩

theorem closesAt_cons (offset : Nat) (ht : t.is .openBracket = true)
    (hstop : stop = start + (t :: rest).length) :
    Tape.closesAt (stop - 1) 0 start (locate offset (t :: rest)) =
      some (closesAtEnd 0 rest) := by
  rw [List.length_cons] at hstop
  rw [locate, Tape.closesAt]
  change (if t.is .openBracket = true then _ else _) = _
  rw [if_pos ht]
  exact closesAt_eq (by omega)

theorem arrayInterior?_cons :
    arrayInterior? (t :: rest) =
      if t.is .openBracket = true ∧ closesAtEnd 0 rest = true then some (written rest).dropLast
      else none := by
  by_cases ht : t.is .openBracket = true <;> simp [arrayInterior?, after?, ht]

theorem bracketed_eq_none (offset : Nat) (hstop : stop = start + run.length)
    (h : arrayInterior? run = none) :
    Tape.bracketed start stop (locate offset run) = some none := by
  cases run with
  | nil => rfl
  | cons t rest =>
    unfold Tape.bracketed
    split
    · rename_i first last hfirst _
      split
      · rename_i hends
        obtain rfl : t.locatedAt offset = first := by simpa [locate] using hfirst
        have ht : t.is .openBracket = true := hends.1
        have hcloses : closesAtEnd 0 rest = false := by
          simpa [arrayInterior?_cons, ht] using h
        rw [closesAt_cons offset ht hstop, hcloses]
        rfl
      · rfl
    · rfl

/-- An array stands between its first token and its last one. -/
theorem bracketed_eq_some (offset : Nat) {interior : List Char}
    (hstop : stop = start + run.length) (h : arrayInterior? run = some interior) :
    ∃ first inner last, run = first :: inner ++ [last] ∧ interior = written inner ++ last.gap ∧
      Tape.bracketed start stop (locate offset run) =
        some (some (first.locatedAt offset,
          last.locatedAt (offset + Text.size (written (first :: inner))))) := by
  cases run with
  | nil => cases h
  | cons first rest =>
    rw [arrayInterior?_cons] at h
    split at h
    · rename_i hclosed
      obtain ⟨hfirst, hcloses⟩ := hclosed
      have hcount := closesAt_cons offset hfirst hstop
      obtain ⟨inner, last, rfl, hlast⟩ := exists_of_closesAtEnd hcloses
      have htext : last.lexeme = .symbol .closeBracket := beq_iff_eq.1 hlast
      refine ⟨first, inner, last, rfl, ?_, ?_⟩
      · simpa [htext, Lexeme.text, Symbol.char, ← List.append_assoc] using h.symm
      · have hhead : (locate offset (first :: (inner ++ [last]))).head? =
            some (first.locatedAt offset) := rfl
        have hend : (locate offset (first :: (inner ++ [last]))).getLast? =
            some (last.locatedAt (offset + Text.size (written (first :: inner)))) := by
          rw [← List.cons_append, locate_append]
          exact List.getLast?_concat
        have hends : (first.locatedAt offset).is .openBracket = true ∧
            (last.locatedAt (offset + Text.size (written (first :: inner)))).is .closeBracket =
              true := ⟨hfirst, hlast⟩
        rw [Tape.bracketed, hhead, hend]
        dsimp only
        rw [if_pos hends, hcount, hcloses]
        rfl
    · cases h

theorem Between.valueAt_eq (h : Between tokens start stop run) (hlie : LieIn tokens source)
    (hrun : Within tokens run) :
    (Tape.ofTokens source tokens).valueAt start stop = some (Value.ofTokens run) := by
  have hraw := h.raw_eq hlie hrun
  have hstop : stop = start + run.length := by
    obtain ⟨after, -, hstop⟩ := h
    exact hstop
  obtain ⟨before, after, htokens, rfl, hbetween⟩ := h.between?_eq source
  unfold Tape.valueAt Value.ofTokens
  simp only [hbetween, bind, Option.bind_some, map_toToken_locate]
  cases hliteral : literal? run with
  | some content => rfl
  | none =>
    cases htruth : (word? run).bind truth? with
    | some b => rfl
    | none =>
      cases harray : arrayInterior? run with
      | none => simp only [bracketed_eq_none _ hstop harray, Option.bind_some, hraw]
      | some interior =>
        obtain ⟨first, inner, last, rfl, rfl, hends⟩ :=
          bracketed_eq_some (Text.size (written before)) hstop harray
        have hslice := hlie.slice?_between htokens
        rw [written_append, Text.size_append] at hslice
        simp only [hends, Option.bind_some, Tape.ofTokens, hslice, String.toList_ofList]

/-! ### Runs and arguments -/

/-- The loop over positions stops behind the run that the recursion takes, if it counts brackets in
the same way wherever it does not stop. -/
theorem Left.scanTo_eq {sign : Symbol} {nest : Nat → Lexeme → Nat}
    {nest? : Nat → Lexeme → Option Nat}
    (hnest : ∀ depth l, ¬(depth = 0 ∧ l = .symbol sign) → nest? depth l = some (nest depth l))
    {depth : Nat} (h : Left tokens p rest) (hrun : takeNested nest sign depth rest = (run, after)) :
    (Tape.ofTokens source tokens).scanTo nest? sign depth p = some (p + run.length) := by
  induction rest generalizing depth p run with
  | nil =>
    cases hrun
    rw [Tape.scanTo]
    split
    · rfl
    · rename_i hpeek
      rw [h.peek] at hpeek
      cases hpeek
  | cons t rest ih =>
    rw [Tape.scanTo]
    split
    · rename_i hpeek
      rw [h.peek] at hpeek
      cases hpeek
    · rename_i l hpeek
      rw [h.peek] at hpeek
      obtain rfl : t.lexeme = l := by simpa [next?] using hpeek
      have hstop : (t.isBreak || (depth == 0 && t.is sign)) = true ↔
          t.lexeme = .lineBreak ∨ (depth = 0 ∧ t.lexeme = .symbol sign) := by
        simp [isBreak, is]
      rw [takeNested] at hrun
      by_cases hends : (t.isBreak || (depth == 0 && t.is sign)) = true
      · rw [if_pos hends] at hrun
        cases hrun
        rw [if_pos (hstop.1 hends)]
        rfl
      · rw [if_neg hends] at hrun
        rw [hstop, not_or] at hends
        cases hrun
        rw [if_neg (by rwa [not_or]), hnest depth t.lexeme hends.2]
        simp only [bind, Option.bind_some, List.length_cons]
        rw [ih h.next rfl]
        congr 1
        omega

/-- A run stands between the position where it starts and the one behind it. -/
theorem Left.of_takeNested {sign : Symbol} {nest : Nat → Lexeme → Nat} {depth : Nat}
    (h : Left tokens p rest) (hrun : takeNested nest sign depth rest = (run, after)) :
    Left tokens (p + run.length) after ∧ Between tokens p (p + run.length) run ∧
      (run ≠ [] → Within tokens run) := by
  obtain ⟨rfl, -⟩ := append_of_takeNested hrun
  refine ⟨h.append, ⟨after, h, rfl⟩, fun hne => ?_⟩
  exact (within_of_takeNested hne hrun).mono h.suffix.isInfix

theorem runBefore?_eq_map {sign : Symbol} {nest : Nat → Lexeme → Nat}
    (hrun : takeNested nest sign 0 rest = (run, after)) :
    runBefore? nest sign rest = (after? sign after).map (run, ·) := by
  rw [runBefore?, hrun]
  cases after with
  | nil => rfl
  | cons t after => cases ht : t.is sign <;> simp [after?, ht]

theorem nestParens?_eq {depth : Nat} {l : Lexeme} (h : ¬(depth = 0 ∧ l = .symbol .closeParen)) :
    nestParens? depth l = some (nestParens depth l) := by
  cases l with
  | symbol s =>
    cases s with
    | closeParen =>
      cases depth with
      | zero => exact absurd ⟨rfl, rfl⟩ h
      | succ depth => rfl
    | _ => rfl
  | _ => rfl

/-- A round of the loop over arguments: its brackets are counted as everywhere. -/
theorem argumentsFrom_of_peek {tape : Tape} {l : Lexeme} (h : tape.peek p = some l)
    (args : List (Nat × Nat)) (depth start : Nat) :
    tape.argumentsFrom args depth start p =
      if l = .lineBreak then some none
      else if depth = 0 ∧ l = .symbol .closeParen then
        if start < p then some (some (args ++ [(start, p)], p + 1))
        else if args.isEmpty then some (some (args, p + 1))
        else some none
      else if depth = 0 ∧ l = .symbol .comma then
        if p = start then some none
        else tape.argumentsFrom (args ++ [(start, p)]) depth (p + 1) (p + 1)
      else tape.argumentsFrom args (nestBrackets depth l) start (p + 1) := by
  rw [Tape.argumentsFrom]
  split
  · rename_i hpeek
    rw [h] at hpeek
    cases hpeek
  · rename_i l' hpeek
    obtain rfl : l = l' := by simpa [h] using hpeek
    cases l with
    | symbol s => cases s <;> cases depth <;> simp [close?, nestBrackets]
    | _ => simp [nestBrackets]

/-- Positions tell the given arguments and a later place, from which on the given tokens are
left. -/
structure Locates (tokens : List Token) (p : Nat) (found : List (Nat × Nat) × Nat)
    (args : List (List Token) × List Token) : Prop where
  between : List.Forall₂ (fun range run => Between tokens range.1 range.2 run) found.1 args.1
  left : Left tokens found.2 args.2
  le : p ≤ found.2

/-- The loop over positions tells the arguments that are collected. -/
theorem exists_argumentsFrom (source : String) {ranges : List (Nat × Nat)}
    {args : List (List Token)} {current : List Token} (depth : Nat) {low : Nat}
    (hargs : List.Forall₂ (fun range run => Between tokens range.1 range.2 run) ranges args)
    (h : Left tokens start (current ++ rest)) (hp : p = start + current.length) (hlow : low ≤ p) :
    ∃ found, (Tape.ofTokens source tokens).argumentsFrom ranges depth start p = some found ∧
      Option.Rel (Locates tokens low) found (collect args current depth rest) := by
  induction rest generalizing ranges args current depth start p with
  | nil =>
    have hpeek : (Tape.ofTokens source tokens).peek p = none := by
      rw [hp]
      exact h.append.peek
    refine ⟨none, ?_, .none⟩
    rw [Tape.argumentsFrom]
    split
    · rfl
    · rename_i hsome
      rw [hpeek] at hsome
      cases hsome
  | cons t rest ih =>
    have hleft : Left tokens p (t :: rest) := hp ▸ h.append
    have hcurrent : Between tokens start p current := ⟨t :: rest, h, hp⟩
    have hempty : current.isEmpty = decide (p = start) := by
      rw [Bool.eq_iff_iff, List.isEmpty_iff, ← List.length_eq_zero_iff, decide_eq_true_eq]
      omega
    have hsnoc : List.Forall₂ (fun range run => Between tokens range.1 range.2 run)
        (ranges ++ [(start, p)]) (args ++ [current]) :=
      List.rel_append hargs (.cons hcurrent .nil)
    have hnone : ranges.isEmpty = args.isEmpty := by cases hargs <;> rfl
    rw [argumentsFrom_of_peek hleft.peek, collect, hempty]
    split
    · exact ⟨none, rfl, .none⟩
    · split
      · -- the list ends here, and with it the last argument, which only an empty list may lack
        by_cases hstart : p = start
        · rw [if_neg (by omega), hnone, decide_eq_true hstart]
          cases args.isEmpty with
          | true => exact ⟨_, rfl, .some ⟨hargs, hleft.next, by omega⟩⟩
          | false => exact ⟨none, rfl, .none⟩
        · rw [if_pos (by omega), decide_eq_false hstart]
          exact ⟨_, rfl, .some ⟨hsnoc, hleft.next, by omega⟩⟩
      · split
        · by_cases hstart : p = start
          · rw [if_pos hstart, decide_eq_true hstart]
            exact ⟨none, rfl, .none⟩
          · rw [if_neg hstart, decide_eq_false hstart]
            exact ih depth hsnoc hleft.next rfl (by omega)
        · refine ih (nestBrackets depth t.lexeme) hargs ?_ ?_ (by omega)
          · simpa using h
          · simp [hp, Nat.add_assoc]

/-- An argument list is read in place as it is on lists. -/
theorem Left.argumentsAt_cases (h : Left tokens p rest) (source : String) :
    (arguments? rest = none ∧ ∀ form line,
      (Tape.ofTokens source tokens).argumentsAt form line p = Tape.malformed form line) ∨
    ∃ args after ranges q, arguments? rest = some (args, after) ∧
      (∀ form line, (Tape.ofTokens source tokens).argumentsAt form line p = pure (ranges, q)) ∧
      List.Forall₂ (fun range run => Within tokens run ∧ Between tokens range.1 range.2 run)
        ranges args ∧
      Left tokens q after ∧ p ≤ q := by
  rcases h.after?_cases source .openParen with ⟨hafter, hpeek⟩ | ⟨inner, hafter, hpeek, hinner⟩
  · refine .inl ⟨by simp [arguments?_eq_collect, hafter], fun form line => ?_⟩
    rw [Tape.argumentsAt, if_neg hpeek]
  · obtain ⟨found, hfrom, hrel⟩ := exists_argumentsFrom source 0 .nil
      (show Left tokens (p + 1) ([] ++ inner) from hinner) (Nat.add_zero (p + 1)).symm
      (Nat.le_succ p)
    have hcollect : arguments? rest = collect [] [] 0 inner := by
      rw [arguments?_eq_collect, hafter, Option.bind_some]
    rw [← hcollect] at hrel
    cases found with
    | none =>
      refine .inl ⟨Outcome.eq_none_of_rel hrel rfl, fun form line => ?_⟩
      rw [Tape.argumentsAt, if_pos hpeek, hfrom]
      rfl
    | some found =>
      obtain ⟨⟨args, after⟩, hargs, hfound⟩ := Outcome.exists_some_of_rel hrel rfl
      have hwithin : ∀ arg ∈ args, Within tokens arg :=
        fun arg harg => ((within_of_arguments? hargs).2 arg harg).mono h.suffix.isInfix
      have hranges := (List.forall₂_and_left args found.1).2 ⟨hwithin, hfound.between.flip⟩
      refine .inr ⟨args, after, found.1, found.2, hargs, fun form line => ?_, hranges.flip,
        hfound.left, hfound.le⟩
      rw [Tape.argumentsAt, if_pos hpeek, hfrom]
      rfl

/-- A condition is read in place as it is on lists. -/
theorem Left.conditionAt_cases (h : Left tokens p rest) (hlie : LieIn tokens source) :
    (Parser.condition? rest = none ∧ ∀ form line,
      (Tape.ofTokens source tokens).conditionAt form line p = Tape.malformed form line) ∨
    ∃ condition after q, Parser.condition? rest = some (condition, after) ∧
      (∀ form line,
        (Tape.ofTokens source tokens).conditionAt form line p = pure (condition, q)) ∧
      Left tokens q after ∧ p ≤ q := by
  rcases h.after?_cases source .openParen with ⟨hafter, hpeek⟩ | ⟨inner, hafter, hpeek, hinner⟩
  · refine .inl ⟨by simp [Parser.condition?, hafter], fun form line => ?_⟩
    rw [Tape.conditionAt, if_neg hpeek]
  · cases hrun : takeNested nestParens .closeParen 0 inner with
    | mk run after =>
      obtain ⟨hend, hbetween, hwithin⟩ := hinner.of_takeNested hrun
      have hscan : (Tape.ofTokens source tokens).scanTo nestParens? .closeParen 0 (p + 1) =
          some (p + 1 + run.length) :=
        hinner.scanTo_eq (fun _ _ => nestParens?_eq) hrun
      have hlist : Parser.condition? rest = (after? .closeParen after).bind fun rest =>
          if run.isEmpty then none else some (String.ofList (span run), rest) := by
        unfold Parser.condition?
        simp only [hafter, runBefore?_eq_map hrun, bind, Option.bind_some]
        cases after? .closeParen after <;> rfl
      rcases hend.after?_cases source .closeParen with
        ⟨hclose, hstop⟩ | ⟨behind, hclose, hstop, hbehind⟩
      · refine .inl ⟨by rw [hlist, hclose]; rfl, fun form line => ?_⟩
        rw [Tape.conditionAt, if_pos hpeek, hscan, liftM_some_bind, if_neg hstop]
      · by_cases hne : run = []
        · subst hne
          refine .inl ⟨by rw [hlist, hclose]; rfl, fun form line => ?_⟩
          rw [Tape.conditionAt, if_pos hpeek, hscan, liftM_some_bind, if_pos hstop,
            List.length_nil, Nat.add_zero, raw_self]
          rfl
        · refine .inr ⟨String.ofList (span run), behind, p + 1 + run.length + 1, ?_,
            fun form line => ?_, hbehind, by omega⟩
          · rw [hlist, hclose]
            simp [hne]
          · rw [Tape.conditionAt, if_pos hpeek, hscan, liftM_some_bind, if_pos hstop,
              hbetween.raw_eq hlie (hwithin hne), liftM_some_bind,
              if_neg (hlie.ofList_span_ne (hwithin hne))]

end Playbook.Token
