import Mathlib.Data.List.Forall2
import Mathlib.Data.List.TakeWhile
import Playbook.Proofs.Outcome
import Playbook.Token.Nesting

/-!
# Tokens in another layout

How a source is laid out decides on the numbers of its lines, on the layout in front of line breaks
and of the first token of a line, and on line breaks before the first and after the last token.
`Token.Relaid` relates two lists of tokens that differ in nothing else.  Arguments, conditions and
right-hand sides are runs behind another token of their line, so every reader of runs finds alike
runs in both lists, and what is left after them is related again.
-/

namespace Playbook

namespace Token

/-! ### What a token is -/

section Lexemes

variable {t u : Token} {s : Symbol}

theorem is_eq (h : t.lexeme = u.lexeme) (s : Symbol) : t.is s = u.is s := by
  rw [is, is, h]

theorem isBreak_eq (h : t.lexeme = u.lexeme) : t.isBreak = u.isBreak := by
  rw [isBreak, isBreak, h]

theorem not_isBreak_of_is (h : t.is s = true) : t.isBreak = false := by
  rw [is, beq_iff_eq] at h
  rw [isBreak, h]
  rfl

theorem not_isBreak_of_word {letters : List Char} (h : t.lexeme = .word letters) :
    t.isBreak = false := by
  rw [isBreak, h]
  rfl

theorem not_is_of_isBreak (h : t.isBreak = true) (s : Symbol) : t.is s = false := by
  rw [isBreak, beq_iff_eq] at h
  rw [is, h]
  rfl

end Lexemes

/-! ### Alike runs -/

/-- Two runs of tokens differ at most in the numbers of their lines. -/
def Alike : List Token → List Token → Prop := List.Forall₂ fun t u => t.toPiece = u.toPiece

variable {run other : List Token}

theorem Alike.isEmpty_eq (h : Alike run other) : run.isEmpty = other.isEmpty := by
  cases h <;> rfl

theorem Alike.written_eq (h : Alike run other) : written run = written other := by
  induction h with
  | nil => rfl
  | cons hpiece _ ih => rw [written_cons, written_cons, hpiece, ih]

theorem Alike.span_eq (h : Alike run other) : span run = span other := by
  cases h with
  | nil => rfl
  | cons hpiece h => rw [span_cons, span_cons, hpiece, written_eq h]

theorem Alike.literal?_eq (h : Alike run other) : literal? run = literal? other := by
  rcases h with _ | ⟨hpiece, _ | ⟨_, _⟩⟩
  · rfl
  · rw [literal?, literal?, hpiece]
  · rfl

theorem Alike.word?_eq (h : Alike run other) : word? run = word? other := by
  rcases h with _ | ⟨hpiece, _ | ⟨_, _⟩⟩
  · rfl
  · rw [word?, word?, hpiece]
  · rfl

theorem Alike.closesAtEnd_eq (h : Alike run other) (depth : Nat) :
    closesAtEnd depth run = closesAtEnd depth other := by
  induction h generalizing depth with
  | nil => rfl
  | @cons t u _ _ hpiece h ih =>
    have his : ∀ s, t.is s = u.is s := is_eq (congrArg Piece.lexeme hpiece)
    cases depth with
    | zero => simp only [closesAtEnd, his, ih, Alike.isEmpty_eq h]
    | succ depth => simp only [closesAtEnd, his, ih]

theorem Alike.arrayInterior?_eq (h : Alike run other) :
    arrayInterior? run = arrayInterior? other := by
  cases h with
  | nil => rfl
  | @cons t u ts us hpiece h =>
    have hlexeme : t.lexeme = u.lexeme := congrArg Piece.lexeme hpiece
    rw [arrayInterior?, arrayInterior?, after?, after?, is_eq hlexeme]
    split
    · show (if closesAtEnd 0 ts then _ else _) = if closesAtEnd 0 us then _ else _
      rw [closesAtEnd_eq h, written_eq h]
    · rfl

theorem forall₂_modifyHead {α β : Type} {R : α → β → Prop} {f : α → α} {g : β → β}
    (hfg : ∀ a b, R a b → R (f a) (g b)) {as : List α} {bs : List β} (h : List.Forall₂ R as bs) :
    List.Forall₂ R (as.modifyHead f) (bs.modifyHead g) := by
  cases h with
  | nil => exact .nil
  | cons hab h => exact .cons (hfg _ _ hab) h

/-- Alike runs are cut into alike pieces. -/
theorem Alike.cutAtCommas (h : Alike run other) (depth : Nat) :
    List.Forall₂ Alike (cutAtCommas depth run) (cutAtCommas depth other) := by
  induction h generalizing depth with
  | nil => exact .cons .nil .nil
  | @cons t u ts us hpiece _ ih =>
    have hlexeme : t.lexeme = u.lexeme := congrArg Piece.lexeme hpiece
    rw [Token.cutAtCommas, Token.cutAtCommas, is_eq hlexeme, hlexeme]
    split
    · exact .cons .nil (ih depth)
    · exact forall₂_modifyHead (fun _ _ => .cons hpiece) (ih _)

theorem any_isEmpty_eq {runs others : List (List Token)} (h : List.Forall₂ Alike runs others) :
    runs.any List.isEmpty = others.any List.isEmpty := by
  induction h with
  | nil => rfl
  | cons hrun _ ih => rw [List.any_cons, List.any_cons, hrun.isEmpty_eq, ih]

/-! ### Another layout -/

/-- The second list holds the tokens of the first one in another layout, and possibly further line
breaks behind them and between lines.  Layout counts between two tokens of one line only; the flag
says whether the first token has one before it there. -/
inductive Relaid : Bool → List Token → List Token → Prop
  | nil {beside : Bool} {us : List Token} (h : ∀ u ∈ us, u.isBreak = true) : Relaid beside [] us
  | cons {beside : Bool} {t u : Token} {ts us : List Token} (hlexeme : t.lexeme = u.lexeme)
      (hgap : beside = true → t.isBreak = false → t.gap = u.gap)
      (h : Relaid (!t.isBreak) ts us) : Relaid beside (t :: ts) (u :: us)
  | skip {u : Token} {ts us : List Token} (hbreak : u.isBreak = true) (h : Relaid false ts us) :
      Relaid false ts (u :: us)

variable {beside : Bool} {ts us : List Token}

namespace Relaid

theorem refl (beside : Bool) (ts : List Token) : Relaid beside ts ts := by
  induction ts generalizing beside with
  | nil => exact .nil (by simp)
  | cons t ts ih => exact .cons rfl (fun _ _ => rfl) (ih _)

/-- At the start of a line the layout before the first token does not count. -/
theorem weaken (h : Relaid beside ts us) : Relaid false ts us := by
  cases h with
  | nil h => exact .nil h
  | cons hlexeme _ h => exact .cons hlexeme nofun h
  | skip hbreak h => exact .skip hbreak h

theorem length_le (h : Relaid beside ts us) : ts.length ≤ us.length := by
  induction h with
  | nil _ => exact Nat.zero_le _
  | cons _ _ _ ih => exact Nat.succ_le_succ ih
  | skip _ _ ih => exact Nat.le_succ_of_le ih

/-- Where a list goes on with a token of the line, so does the other. -/
theorem of_cons {t : Token} (h : Relaid true (t :: ts) us) (ht : t.isBreak = false) :
    ∃ u rest, us = u :: rest ∧ t.lexeme = u.lexeme ∧ t.gap = u.gap ∧ Relaid true ts rest := by
  cases h with
  | cons hlexeme hgap h =>
    rw [ht] at h
    exact ⟨_, _, rfl, hlexeme, hgap rfl ht, h⟩

theorem next?_eq (h : Relaid true ts us) :
    next? us = next? ts ∨ next? ts = none ∧ next? us = some .lineBreak := by
  cases h with
  | nil h =>
    cases us with
    | nil => exact .inl rfl
    | cons u us =>
      have hbreak := h u (List.mem_cons_self ..)
      rw [isBreak, beq_iff_eq] at hbreak
      exact .inr ⟨rfl, congrArg some hbreak⟩
  | cons hlexeme _ _ => exact .inl (congrArg some hlexeme.symm)

theorem after? (h : Relaid true ts us) (s : Symbol) :
    Option.Rel (Relaid true) (after? s ts) (after? s us) := by
  cases h with
  | nil h =>
    cases us with
    | nil => exact .none
    | cons u us =>
      rw [Token.after?, Token.after?, not_is_of_isBreak (h u (List.mem_cons_self ..))]
      exact .none
  | cons hlexeme _ h =>
    rw [Token.after?, Token.after?, is_eq hlexeme]
    split
    · next his =>
      rw [← is_eq hlexeme] at his
      rw [not_isBreak_of_is his] at h
      exact .some h
    · exact .none

/-- Without the breaks in front of them, both lists go on with the same lexeme or are at their
end. -/
theorem skipBreaks_cases (h : Relaid beside ts us) :
    skipBreaks ts = [] ∧ skipBreaks us = [] ∨
      ∃ t ts' u us', skipBreaks ts = t :: ts' ∧ skipBreaks us = u :: us' ∧
        t.lexeme = u.lexeme ∧ Relaid true ts' us' := by
  induction h with
  | nil h => exact .inl ⟨rfl, List.dropWhile_eq_nil_iff.2 h⟩
  | @cons beside t u ts us hlexeme hgap h ih =>
    cases ht : t.isBreak with
    | true =>
      have hu : u.isBreak = true := by rw [← isBreak_eq hlexeme, ht]
      rwa [skipBreaks, skipBreaks, List.dropWhile_cons_of_pos ht, List.dropWhile_cons_of_pos hu]
    | false =>
      have hu : u.isBreak = false := by rw [← isBreak_eq hlexeme, ht]
      rw [ht] at h
      refine .inr ⟨t, ts, u, us, ?_, ?_, hlexeme, h⟩
      · exact List.dropWhile_cons_of_neg (by simp [ht])
      · exact List.dropWhile_cons_of_neg (by simp [hu])
  | skip hbreak _ ih => rwa [skipBreaks.eq_def (_ :: _), List.dropWhile_cons_of_pos hbreak]

/-! ### Runs between brackets -/

variable {nest : Nat → Lexeme → Nat} {stop : Symbol}

/-- Behind another token of the line, alike runs are taken. -/
theorem takeNested (h : Relaid true ts us) (nest : Nat → Lexeme → Nat) (stop : Symbol)
    (depth : Nat) :
    Alike (takeNested nest stop depth ts).1 (takeNested nest stop depth us).1 ∧
      Relaid true (takeNested nest stop depth ts).2 (takeNested nest stop depth us).2 := by
  induction ts generalizing us depth with
  | nil =>
    cases h with
    | nil h =>
      cases us with
      | nil => exact ⟨.nil, .nil h⟩
      | cons u us =>
        rw [Token.takeNested, Token.takeNested, h u (List.mem_cons_self ..)]
        exact ⟨.nil, .nil h⟩
  | cons t ts ih =>
    cases ht : t.isBreak with
    | true =>
      cases h with
      | cons hlexeme hgap h =>
        rw [Token.takeNested, Token.takeNested, ← isBreak_eq hlexeme, ht]
        exact ⟨.nil, .cons hlexeme hgap h⟩
    | false =>
      -- the token stands behind another one, so the layout before it counts
      obtain ⟨u, us, rfl, hlexeme, hgap, h'⟩ := h.of_cons ht
      have hpiece : t.toPiece = u.toPiece := by
        show (⟨t.gap, t.lexeme⟩ : Piece) = ⟨u.gap, u.lexeme⟩
        rw [hgap, hlexeme]
      rw [Token.takeNested, Token.takeNested, ← isBreak_eq hlexeme, ← is_eq hlexeme, ← hlexeme, ht]
      split
      · exact ⟨.nil, h⟩
      · obtain ⟨hrun, hrest⟩ := ih h' (nest depth t.lexeme)
        exact ⟨.cons hpiece hrun, hrest⟩

theorem runBefore?_eq (tokens : List Token) :
    Token.runBefore? nest stop tokens =
      (Token.after? stop (Token.takeNested nest stop 0 tokens).2).bind fun after =>
        some ((Token.takeNested nest stop 0 tokens).1, after) := by
  rw [Token.runBefore?]
  generalize Token.takeNested nest stop 0 tokens = taken
  obtain ⟨run, _ | ⟨t, after⟩⟩ := taken
  · rfl
  · dsimp only [Token.after?]
    split <;> rfl

theorem runBefore? (h : Relaid true ts us) :
    Option.Rel (fun x y => Alike x.1 y.1 ∧ Relaid true x.2 y.2)
      (runBefore? nest stop ts) (runBefore? nest stop us) := by
  obtain ⟨hrun, hrest⟩ := h.takeNested nest stop 0
  rw [runBefore?_eq, runBefore?_eq]
  exact Outcome.rel_bind (hrest.after? stop) fun _ _ hafter => .some ⟨hrun, hafter⟩

theorem arguments? (h : Relaid true ts us) :
    Option.Rel (fun x y => List.Forall₂ Alike x.1 y.1 ∧ Relaid true x.2 y.2)
      (arguments? ts) (arguments? us) := by
  refine Outcome.rel_bind (h.after? .openParen) fun _ _ hinner => ?_
  refine Outcome.rel_bind hinner.runBefore? ?_
  rintro ⟨run, rest⟩ ⟨other, rest'⟩ ⟨hrun, hrest⟩
  have hcut := hrun.cutAtCommas 0
  dsimp only
  rw [hrun.isEmpty_eq, any_isEmpty_eq hcut]
  split
  · exact .some ⟨.nil, hrest⟩
  · split
    · exact .none
    · exact .some ⟨hcut, hrest⟩

end Relaid

end Token

end Playbook
