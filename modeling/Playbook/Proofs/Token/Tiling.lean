import Playbook.Proofs.Token.Lines

/-!
# Tokens tile the source

Nothing of a source is lost when it is scanned: its tokens, each behind the layout in front of it,
and the layout after the last one are the whole text (`written_of_scan`).  So a place in the list of
tokens is a place in the source, and the number of a token is one more than the number of line
breaks in front of it there (`line_of_scan`).
-/

namespace Playbook

namespace Scan

/-- The text that was read. -/
def text (s : Scan) : List Char := Token.written s.tokens ++ s.trailing

theorem text_carry (layout : List Char) (s : Scan) : (s.carry layout).text = layout ++ s.text := by
  obtain ⟨_ | ⟨t, ts⟩, trailing⟩ := s <;> simp [carry, text]

theorem text_under (number : Nat) (pieces : List Piece) (trailing : List Char) (s : Scan) :
    (s.under number pieces trailing false).text =
      pieces.flatMap Piece.written ++ trailing ++ '\n' :: s.text := by
  unfold under
  rw [if_neg Bool.false_ne_true]
  split
  · rename_i hblank
    rw [Bool.and_eq_true, List.isEmpty_iff] at hblank
    rw [text_carry, hblank.1]
    simp
  · simp [after, text, Lexeme.text]

end Scan

theorem text_of_scanLines {number : Nat} {lines : List (List Char)} {s : Scan} (hne : lines ≠ [])
    (h : scanLines number lines = .ok s) : s.text = Text.joinWith ['\n'] lines := by
  induction lines generalizing number s with
  | nil => exact absurd rfl hne
  | cons line more ih =>
    cases hl : scanLine line with
    | none =>
      rw [scanLines, hl] at h
      cases h
    | some scanned =>
      obtain ⟨pieces, trailing⟩ := scanned
      have hline := written_of_scanLine hl
      rw [scanLines_cons hl] at h
      obtain ⟨below, hbelow, rfl⟩ := Outcome.map_eq_ok_iff.1 h
      cases more with
      | nil =>
        rw [Text.joinWith_singleton, ← hline, ← written_onLine number]
        rfl
      | cons next more =>
        rw [List.isEmpty_cons, Scan.text_under, hline, ih (List.cons_ne_nil next more) hbelow,
          Text.joinWith_cons _ _ (List.cons_ne_nil next more)]
        simp

/-- The tokens and the layout around them are the whole source. -/
theorem written_of_scan {source : List Char} {s : Scan} (h : scan source = .ok s) :
    Token.written s.tokens ++ s.trailing = source := by
  rw [← Text.joinWith_splitOn '\n' source]
  exact text_of_scanLines (Text.splitOn_ne_nil '\n' source) h

/-! ### Numbers of lines -/

namespace Token

/-- Every token bears the number of its line, if the first line has the given one. -/
def Numbered : Nat → List Token → Prop
  | _, [] => True
  | number, t :: rest =>
    t.line = number + t.gap.count '\n' ∧
      Numbered (number + t.gap.count '\n' + t.lexeme.text.count '\n') rest

theorem numbered_append {number : Nat} {tokens more : List Token} :
    Numbered number (tokens ++ more) ↔
      Numbered number tokens ∧ Numbered (number + (written tokens).count '\n') more := by
  induction tokens generalizing number with
  | nil => simp [Numbered]
  | cons t tokens ih => simp [Numbered, ih, and_assoc, Nat.add_assoc]

/-- The number of a token counts the breaks in front of it. -/
theorem Numbered.line_eq {number : Nat} {before after : List Token} {t : Token}
    (h : Numbered number (before ++ t :: after)) :
    t.line = number + (written before ++ t.gap).count '\n' := by
  rw [(numbered_append.1 h).2.1, List.count_append]
  omega

/-- Layout of further lines in front of the first token. -/
theorem Numbered.carry {number : Nat} {tokens : List Token} {layout : List Char}
    (h : Numbered (number + layout.count '\n') tokens) :
    Numbered number (tokens.modifyHead fun t => { t with gap := layout ++ t.gap }) := by
  cases tokens with
  | nil => trivial
  | cons t rest =>
    rw [Numbered] at h
    rw [List.modifyHead_cons, Numbered]
    simpa only [List.count_append, Nat.add_assoc] using h

theorem numbered_onLine {number : Nat} {pieces : List Piece}
    (h : '\n' ∉ pieces.flatMap Piece.written) : Numbered number (onLine number pieces) := by
  induction pieces with
  | nil => trivial
  | cons p pieces ih =>
    rw [List.flatMap_cons, Piece.written] at h
    simp only [List.mem_append, not_or] at h
    rw [onLine_cons, Numbered]
    dsimp only
    rw [List.count_eq_zero.2 h.1.1, List.count_eq_zero.2 h.1.2]
    exact ⟨rfl, ih h.2⟩

end Token

theorem numbered_of_scanLines {number : Nat} {lines : List (List Char)} {s : Scan}
    (hlines : ∀ line ∈ lines, '\n' ∉ line) (h : scanLines number lines = .ok s) :
    Token.Numbered number s.tokens := by
  induction lines generalizing number s with
  | nil =>
    cases h
    trivial
  | cons line more ih =>
    rw [List.forall_mem_cons] at hlines
    cases hl : scanLine line with
    | none =>
      rw [scanLines, hl] at h
      cases h
    | some scanned =>
      obtain ⟨pieces, trailing⟩ := scanned
      -- neither the pieces of the line nor the layout at its end hold a break
      have hline := hlines.1
      rw [← written_of_scanLine hl, List.mem_append, not_or] at hline
      have htrailing := List.count_eq_zero.2 hline.2
      have hpieces : Token.Numbered number (onLine number pieces) :=
        Token.numbered_onLine hline.1
      rw [scanLines_cons hl] at h
      obtain ⟨below, hbelow, rfl⟩ := Outcome.map_eq_ok_iff.1 h
      have hmore := ih hlines.2 hbelow
      cases more with
      | nil => exact hpieces
      | cons next more =>
        rw [List.isEmpty_cons]
        by_cases hblank : pieces = [] ∧ 1 < number
        · obtain ⟨rfl, hnumber⟩ := hblank
          rw [Scan.tokens_under_blank hnumber]
          refine Token.Numbered.carry ?_
          rwa [List.count_append, htrailing]
        · rw [Scan.tokens_under hblank, Token.numbered_append, written_onLine,
            List.count_eq_zero.2 hline.1, Token.Numbered]
          refine ⟨hpieces, by simp [htrailing], ?_⟩
          rw [htrailing]
          exact hmore

/-- The number of a token is one more than the number of breaks in front of it. -/
theorem line_of_scan {source : List Char} {s : Scan} (h : scan source = .ok s)
    {before after : List Token} {t : Token} (ht : s.tokens = before ++ t :: after) :
    t.line = 1 + (Token.written before ++ t.gap).count '\n' := by
  have hnumbered : Token.Numbered 1 s.tokens :=
    numbered_of_scanLines (fun _ => Text.not_mem_of_mem_splitOn) h
  rw [ht] at hnumbered
  exact hnumbered.line_eq

end Playbook
