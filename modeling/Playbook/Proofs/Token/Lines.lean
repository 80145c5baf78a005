import Playbook.Proofs.Text
import Playbook.Proofs.Token.Edits

/-!
# Tokens and the lines they stand on

A run of tokens without a line break among them stands on one line of the source.  All its tokens
bear the number of that line, and its text is part of the line (`StandsOn.exists_line`).  The layout
that is carried over from lines without lexemes does no harm: it goes in front of the first token of
a later line, and the text of a run starts behind the layout of its first token.

Where there are no tokens but breaks, every line is layout, and where there are no tokens at all,
because a string is not closed, the reported line is one that does not scan.
-/

namespace Playbook

/-! ### What a lexeme looks like -/

/-- What is known of a lexeme that was read: it starts and ends with characters that are not blank,
and a word is made of the characters of words. -/
structure Lexeme.IsRead (l : Lexeme) : Prop where
  isFirm : Text.IsFirm l.text
  isWord : ∀ letters, l = .word letters → letters.all isWordChar = true

theorem Lexeme.IsRead.ne_lineBreak {l : Lexeme} (h : l.IsRead) : l ≠ .lineBreak := by
  rintro rfl
  obtain ⟨c, rest, he, hc⟩ := h.isFirm.starts
  cases he
  exact absurd hc (by decide)

theorem not_isBlank_of_isQuote {c : Char} (h : isQuote c = true) : Text.isBlank c = false := by
  rcases Bool.or_eq_true_iff.1 h with h | h
  · rw [beq_iff_eq.1 h]
    decide
  · rw [beq_iff_eq.1 h]
    decide

theorem not_isBlank_of_isWordChar {c : Char} (h : isWordChar c = true) :
    Text.isBlank c = false := by
  rw [Bool.eq_false_iff]
  intro hb
  rw [not_isWordChar_of_isBlank hb] at h
  cases h

theorem not_isBlank_of_pairsUp {c d : Char} (h : pairsUp c d = true) : Text.isBlank d = false := by
  simp only [pairsUp, Bool.or_eq_true, Bool.and_eq_true, beq_iff_eq] at h
  rcases h with (⟨rfl, -⟩ | ⟨-, rfl⟩) | ⟨-, rfl⟩ <;> decide

theorem isRead_symbol (s : Symbol) : (Lexeme.symbol s).IsRead where
  isFirm := Text.isFirm_singleton (by cases s <;> decide)
  isWord := nofun

theorem isRead_operator {signs : List Char} (hne : signs ≠ [])
    (h : ∀ c ∈ signs, Text.isBlank c = false) : (Lexeme.operator signs).IsRead :=
  ⟨Text.isFirm_of_forall hne h, nofun⟩

theorem isRead_of_readSign {c : Char} {rest after : List Char} {l : Lexeme}
    (hb : Text.isBlank c = false) (h : readSign c rest = (l, after)) : l.IsRead := by
  -- the sign by itself
  have halone : (if c = '=' then Lexeme.symbol .assign else .operator [c]).IsRead := by
    split
    · exact isRead_symbol .assign
    · exact isRead_operator (List.cons_ne_nil c []) (List.forall_mem_singleton.2 hb)
  unfold readSign at h
  split at h
  · split at h
    · rename_i hpair
      cases h
      refine isRead_operator (List.cons_ne_nil _ _) (List.forall_mem_cons.2 ⟨hb, ?_⟩)
      exact List.forall_mem_singleton.2 (not_isBlank_of_pairsUp hpair)
    · cases h
      exact halone
  · cases h
    exact halone

theorem isRead_of_readLexeme {c : Char} {rest after : List Char} {l : Lexeme}
    (hb : Text.isBlank c = false) (h : readLexeme c rest = some (l, after)) : l.IsRead := by
  unfold readLexeme at h
  split at h
  · cases h
    exact isRead_symbol _
  · split at h
    · rename_i hquote
      obtain ⟨⟨content, after'⟩, -, he⟩ := Option.map_eq_some_iff.1 h
      cases he
      have hmark := Text.isFirm_singleton (not_isBlank_of_isQuote hquote)
      exact ⟨hmark.append content hmark, nofun⟩
    · split at h
      · rename_i hword
        cases h
        have hall : ∀ d ∈ c :: rest.takeWhile isWordChar, isWordChar d = true :=
          List.forall_mem_cons.2 ⟨hword, fun d hd => List.mem_takeWhile_imp hd⟩
        refine ⟨Text.isFirm_of_forall (List.cons_ne_nil _ _) fun d hd => ?_, ?_⟩
        · exact not_isBlank_of_isWordChar (hall d hd)
        · rintro letters ⟨⟩
          exact List.all_eq_true.2 hall
      · exact isRead_of_readSign hb (Option.some.inj h)

theorem isRead_of_scanLine {line trailing : List Char} {pieces : List Piece}
    (h : scanLine line = some (pieces, trailing)) : ∀ p ∈ pieces, p.lexeme.IsRead :=
  forall_lexeme_of_scanLine isRead_of_readLexeme h

theorem isLayout_of_scanLine {line trailing : List Char}
    (h : scanLine line = some ([], trailing)) : Text.IsLayout line := by
  have hblanks : ∀ c ∈ line.takeWhile Text.isBlank, Text.isBlank c = true :=
    fun c hc => List.mem_takeWhile_imp hc
  have hline := List.takeWhile_append_dropWhile (p := Text.isBlank) (l := line)
  rw [scanLine_eq] at h
  split at h
  · rename_i hrest
    rw [hrest, List.append_nil] at hline
    rw [← hline]
    exact .blanks hblanks
  · rename_i c rest hrest
    split at h
    · rename_i hcomment
      obtain ⟨rfl, hslash⟩ : c = '/' ∧ rest.head? = some '/' := by
        simpa [startsComment] using hcomment
      obtain ⟨text, rfl⟩ := List.head?_eq_some_iff.1 hslash
      rw [← hline, hrest]
      exact .comment hblanks text
    · -- a lexeme would be a piece
      obtain ⟨⟨l, after⟩, -, h⟩ := Option.bind_eq_some_iff.1 h
      obtain ⟨_, -, he⟩ := Option.map_eq_some_iff.1 h
      cases he

/-! ### Parts of lists -/

section Parts

variable {α : Type} {run before after : List α} {a : α}

/-- A part of a list that does not hold one of its elements lies on one side of it. -/
theorem infix_or_infix_of_not_mem (h : run <:+: before ++ a :: after) (ha : a ∉ run) :
    run <:+: before ∨ run <:+: after := by
  have hfront : ∀ front : List α, run <+: front ++ a :: after → run <+: front := by
    intro front hrun
    rcases List.prefix_or_prefix_of_prefix hrun (List.prefix_append front (a :: after)) with h | h
    · exact h
    · obtain ⟨more, rfl⟩ := h
      cases more with
      | nil => simp
      | cons b more =>
        obtain ⟨rfl, -⟩ := List.cons_prefix_cons.1 ((List.prefix_append_right_inj front).1 hrun)
        exact absurd (by simp) ha
  induction before with
  | nil =>
    rcases List.infix_cons_iff.1 h with h | h
    · exact .inl (hfront [] h).isInfix
    · exact .inr h
  | cons b before ih =>
    rcases List.infix_cons_iff.1 h with h | h
    · exact .inl (hfront (b :: before) h).isInfix
    · rcases ih h with h | h
      · exact .inl (List.infix_cons h)
      · exact .inr h

/-- A part of a list with a changed head is a part of the list, or starts with the changed head. -/
theorem infix_of_infix_modifyHead {f : α → α} {list : List α} (h : run <:+: list.modifyHead f) :
    run <:+: list ∨ ∃ first rest, run = f first :: rest ∧ first :: rest <:+: list := by
  cases list with
  | nil => exact .inl h
  | cons first list =>
    rcases List.infix_cons_iff.1 h with h | h
    · rcases List.prefix_cons_iff.1 h with rfl | ⟨rest, rfl, hrest⟩
      · exact .inl (List.nil_infix)
      · exact .inr ⟨first, rest, rfl, (List.cons_prefix_cons.2 ⟨rfl, hrest⟩).isInfix⟩
    · exact .inl (List.infix_cons h)

end Parts

/-! ### Runs on a line -/

namespace Token

/-- A run of tokens comes from pieces of the line with the given number. -/
structure ComesFrom (pieces : List Piece) (number : Nat) (run : List Token) : Prop where
  line_eq : ∀ t ∈ run, t.line = number
  lexeme_mem : ∀ t ∈ run, ∃ p ∈ pieces, p.lexeme = t.lexeme
  span_infix : span run <:+: pieces.flatMap Piece.written

theorem span_infix_written (run : List Token) : span run <:+: written run := by
  cases run with
  | nil => exact List.nil_infix
  | cons t rest =>
    rw [span_cons, written_cons, List.append_assoc]
    exact (List.suffix_append ..).isInfix

theorem infix_written {run tokens : List Token} (h : run <:+: tokens) :
    written run <:+: written tokens := by
  obtain ⟨before, after, rfl⟩ := h
  rw [written_append, written_append]
  exact List.infix_append ..

theorem comesFrom_onLine {pieces : List Piece} {number : Nat} {run : List Token}
    (h : run <:+: onLine number pieces) : ComesFrom pieces number run where
  line_eq := by
    intro t ht
    obtain ⟨p, -, rfl⟩ := List.mem_map.1 (h.subset ht)
    rfl
  lexeme_mem := by
    intro t ht
    obtain ⟨p, hp, rfl⟩ := List.mem_map.1 (h.subset ht)
    exact ⟨p, hp, rfl⟩
  span_infix := by
    rw [← written_onLine number]
    exact (span_infix_written run).trans (infix_written h)

/-- The layout in front of a run does not count. -/
theorem ComesFrom.of_gap {pieces : List Piece} {number : Nat} {t : Token} {rest : List Token}
    (h : ComesFrom pieces number (t :: rest)) (gap : List Char) :
    ComesFrom pieces number ({ t with gap } :: rest) where
  line_eq := List.forall_mem_cons.2 (List.forall_mem_cons.1 h.line_eq)
  lexeme_mem := List.forall_mem_cons.2 (List.forall_mem_cons.1 h.lexeme_mem)
  span_infix := h.span_infix

/-- A run of tokens stands on one of the given lines, the first of which has the given number. -/
def StandsOn (lines : List (List Char)) (number : Nat) (run : List Token) : Prop :=
  ∃ i line pieces trailing, lines[i]? = some line ∧ scanLine line = some (pieces, trailing) ∧
    ComesFrom pieces (number + i) run

variable {number : Nat} {line : List Char} {lines more : List (List Char)} {s : Scan}
  {run : List Token}

theorem StandsOn.below (h : StandsOn more (number + 1) run) (line : List Char) :
    StandsOn (line :: more) number run := by
  obtain ⟨i, found, pieces, trailing, hline, hscan, hfrom⟩ := h
  refine ⟨i + 1, found, pieces, trailing, hline, hscan, ?_⟩
  rwa [show number + (i + 1) = number + 1 + i by omega]

/-- A run without breaks stands on one of the lines that were scanned. -/
theorem standsOn_of_scanLines (h : scanLines number lines = .ok s) (hrun : run <:+: s.tokens)
    (hne : run ≠ []) (hb : ∀ t ∈ run, t.isBreak = false) : StandsOn lines number run := by
  induction lines generalizing number s run with
  | nil =>
    cases h
    exact absurd (List.infix_nil.1 hrun) hne
  | cons line more ih =>
    cases hl : scanLine line with
    | none =>
      rw [scanLines, hl] at h
      cases h
    | some scanned =>
      obtain ⟨pieces, trailing⟩ := scanned
      have hhere : run <:+: onLine number pieces → StandsOn (line :: more) number run :=
        fun hrun => ⟨0, line, pieces, trailing, rfl, hl, comesFrom_onLine hrun⟩
      rw [scanLines_cons hl] at h
      obtain ⟨below, hbelow, rfl⟩ := Outcome.map_eq_ok_iff.1 h
      cases more with
      | nil => exact hhere hrun
      | cons next more =>
        rw [List.isEmpty_cons] at hrun
        by_cases hblank : pieces = [] ∧ 1 < number
        · -- the line leaves no token, but its layout goes to the first one below
          obtain ⟨rfl, hnumber⟩ := hblank
          rw [Scan.tokens_under_blank hnumber] at hrun
          rcases infix_of_infix_modifyHead hrun with hpart | ⟨t, rest, rfl, hpart⟩
          · exact (ih hbelow hpart hne hb).below line
          · have hstands := ih hbelow hpart (List.cons_ne_nil t rest)
              (List.forall_mem_cons.2 (List.forall_mem_cons.1 hb))
            obtain ⟨i, found, pieces, trailing, hline, hscan, hfrom⟩ := hstands
            exact StandsOn.below ⟨i, found, pieces, trailing, hline, hscan, hfrom.of_gap _⟩ line
        · rw [Scan.tokens_under hblank] at hrun
          have hbreak : (⟨⟨trailing, .lineBreak⟩, number⟩ : Token) ∉ run := by
            intro hmem
            exact absurd (hb _ hmem) (by simp [isBreak])
          rcases infix_or_infix_of_not_mem hrun hbreak with hrun | hrun
          · exact hhere hrun
          · exact (ih hbelow hrun hne hb).below line

theorem StandsOn.isRead (h : StandsOn lines number run) : ∀ t ∈ run, t.lexeme.IsRead := by
  obtain ⟨i, line, pieces, trailing, -, hscan, hfrom⟩ := h
  intro t ht
  obtain ⟨p, hp, hlexeme⟩ := hfrom.lexeme_mem t ht
  rw [← hlexeme]
  exact isRead_of_scanLine hscan p hp

/-- The text of a run starts and ends with characters that are not blank. -/
theorem isFirm_span (hne : run ≠ []) (h : ∀ t ∈ run, t.lexeme.IsRead) :
    Text.IsFirm (span run) := by
  have hwritten : ∀ {rest : List Token} {text : List Char}, Text.IsFirm text →
      (∀ t ∈ rest, t.lexeme.IsRead) → Text.IsFirm (text ++ written rest) := by
    intro rest
    induction rest with
    | nil =>
      intro text ht _
      rwa [written_nil, List.append_nil]
    | cons t rest ih =>
      intro text ht hrest
      rw [List.forall_mem_cons] at hrest
      rw [written_cons, ← List.append_assoc, ← List.append_assoc]
      exact ih (ht.append t.gap hrest.1.isFirm) hrest.2
  obtain ⟨t, rest, rfl⟩ := List.exists_cons_of_ne_nil hne
  rw [List.forall_mem_cons] at h
  exact hwritten h.1.isFirm h.2

/-- The text of a run is part of a line of the source. -/
theorem StandsOn.exists_line {source : List Char} (hne : run ≠ [])
    (h : StandsOn (Text.splitOn '\n' source) 1 run) :
    ∃ line ∈ Text.lines source, span run <:+: line := by
  have hfirm := isFirm_span hne h.isRead
  obtain ⟨i, piece, pieces, trailing, hpiece, hscan, hfrom⟩ := h
  obtain ⟨before, after, hinside⟩ : span run <:+: piece := by
    rw [← written_of_scanLine hscan]
    exact hfrom.span_infix.trans (List.prefix_append ..).isInfix
  have hfilled : piece ≠ [] := by
    rintro rfl
    exact hfirm.ne_nil (by simp_all)
  -- the carriage return that a line may lose stands behind the run
  have hfront : before ++ span run <+: Text.dropReturn piece := by
    refine Text.prefix_dropReturn ⟨after, hinside⟩ fun hlast => ?_
    obtain ⟨c, init, he, hc⟩ := hfirm.ends
    rw [he, ← List.append_assoc, List.getLast?_concat] at hlast
    cases hlast
    exact absurd hc (by decide)
  obtain ⟨line, hline, rfl | rfl⟩ := Text.getElem?_endLines hpiece hfilled
  · exact ⟨line, List.mem_of_getElem? hline, before, after, hinside⟩
  · refine ⟨_, List.mem_of_getElem? hline, ?_⟩
    exact (List.suffix_append ..).isInfix.trans hfront.isInfix

end Token

/-! ### Lines of a source -/

namespace Text

/-- The line with the given number, counted from one, holds more than blanks. -/
def IsFilled (source : List Char) (number : Nat) : Prop :=
  1 ≤ number ∧ ∃ line, (splitOn '\n' source)[number - 1]? = some line ∧ trim line ≠ []

theorem IsFilled.exists_line {source : List Char} {number : Nat} (h : IsFilled source number) :
    ∃ line, (lines source)[number - 1]? = some line ∧ trim line = trimmedLine source number ∧
      trimmedLine source number ≠ [] := by
  obtain ⟨-, piece, hpiece, htrim⟩ := h
  have hquoted : trimmedLine source number = trim piece := by
    rw [trimmedLine, List.getD_eq_getElem?_getD, hpiece, Option.getD_some]
  have hne : piece ≠ [] := by
    rintro rfl
    exact htrim trim_nil
  rw [hquoted]
  obtain ⟨line, hline, rfl | rfl⟩ := getElem?_endLines hpiece hne
  · exact ⟨line, hline, rfl, htrim⟩
  · exact ⟨dropReturn piece, hline, trim_dropReturn piece, htrim⟩

theorem isFilled_add {source line : List Char} {i : Nat}
    (hline : (splitOn '\n' source)[i]? = some line) (h : trim line ≠ []) :
    IsFilled source (1 + i) := by
  refine ⟨by omega, line, ?_, h⟩
  rwa [show 1 + i - 1 = i by omega]

end Text

section Scanned

variable {source : List Char} {s : Scan}

/-- The line of a token that is no break is not blank. -/
theorem isFilled_of_mem (h : scan source = .ok s) {t : Token} (ht : t ∈ s.tokens)
    (hb : t.isBreak = false) : Text.IsFilled source t.line := by
  have hpart : [t] <:+: s.tokens := by
    obtain ⟨before, after, he⟩ := List.append_of_mem ht
    exact ⟨before, after, by simp [he]⟩
  obtain ⟨i, line, pieces, trailing, hline, hscan, hfrom⟩ := Token.standsOn_of_scanLines h hpart
    (List.cons_ne_nil t []) (List.forall_mem_singleton.2 hb)
  obtain ⟨p, hp, hlexeme⟩ := hfrom.lexeme_mem t (List.mem_singleton_self t)
  obtain ⟨c, rest, hc, hblank⟩ := (isRead_of_scanLine hscan p hp).isFirm.starts
  rw [hfrom.line_eq t (List.mem_singleton_self t)]
  refine Text.isFilled_add hline fun htrim => ?_
  -- the first character of the lexeme would be blank
  have hmem : c ∈ line := by
    have hspan : c ∈ Token.span [t] := by simp [← hlexeme, hc]
    rw [← written_of_scanLine hscan]
    exact List.mem_append_left _ (hfrom.span_infix.subset hspan)
  rw [Text.trim_eq_nil_iff.1 htrim c hmem] at hblank
  cases hblank

theorem scanLines_succeeds_iff {number : Nat} {lines : List (List Char)} :
    (∃ s, scanLines number lines = .ok s) ↔ ∀ line ∈ lines, scanLine line ≠ none := by
  induction lines generalizing number with
  | nil => exact iff_of_true ⟨_, rfl⟩ (List.forall_mem_nil _)
  | cons line more ih =>
    rw [List.forall_mem_cons]
    cases hl : scanLine line with
    | none =>
      refine iff_of_false ?_ fun h => h.1 rfl
      rintro ⟨s, h⟩
      rw [scanLines, hl] at h
      cases h
    | some scanned =>
      obtain ⟨pieces, trailing⟩ := scanned
      rw [scanLines_cons hl, Outcome.map_succeeds_iff, ih]
      exact (and_iff_right (Option.some_ne_none _)).symm

/-- The first line that does not scan is reported. -/
theorem scanLines_eq_error_iff {number n : Nat} {lines : List (List Char)} :
    scanLines number lines = .error n ↔
      ∃ before line after, lines = before ++ line :: after ∧
        (∀ other ∈ before, scanLine other ≠ none) ∧ scanLine line = none ∧
        n = number + before.length := by
  induction lines generalizing number with
  | nil =>
    refine iff_of_false nofun ?_
    rintro ⟨before, line, after, h, -⟩
    simp at h
  | cons line more ih =>
    cases hl : scanLine line with
    | none =>
      rw [scanLines, hl]
      constructor
      · rintro ⟨⟩
        exact ⟨[], line, more, rfl, List.forall_mem_nil _, hl, rfl⟩
      · rintro ⟨_ | ⟨other, before⟩, found, after, he, hbefore, -, rfl⟩
        · rfl
        · cases he
          exact absurd hl (hbefore line (List.mem_cons_self ..))
    | some scanned =>
      obtain ⟨pieces, trailing⟩ := scanned
      rw [scanLines_cons hl, Outcome.map_eq_error_iff, ih]
      constructor
      · rintro ⟨before, found, after, rfl, hbefore, hfound, rfl⟩
        refine ⟨line :: before, found, after, rfl, List.forall_mem_cons.2 ⟨?_, hbefore⟩, hfound, ?_⟩
        · simp [hl]
        · simp [Nat.add_assoc, Nat.add_comm 1]
      · rintro ⟨_ | ⟨other, before⟩, found, after, he, hbefore, hfound, rfl⟩
        · cases he
          rw [hl] at hfound
          cases hfound
        · cases he
          refine ⟨before, found, after, rfl, (List.forall_mem_cons.1 hbefore).2, hfound, ?_⟩
          simp [Nat.add_assoc, Nat.add_comm 1]

/-- The line with a string that is not closed is not blank. -/
theorem isFilled_of_scan_eq_error {n : Nat} (h : scan source = .error n) :
    Text.IsFilled source n := by
  obtain ⟨before, line, after, hlines, -, hnone, rfl⟩ := scanLines_eq_error_iff.1 h
  have hline : (Text.splitOn '\n' source)[before.length]? = some line := by simp [hlines]
  refine Text.isFilled_add hline fun htrim => ?_
  have hlayout : Text.IsLayout line := .blanks (Text.trim_eq_nil_iff.1 htrim)
  rw [scanLine_of_isLayout hlayout] at hnone
  cases hnone

/-- What holds of the lexemes of all tokens holds on the first line and below it. -/
theorem Scan.forall_lexeme_under {P : Lexeme → Prop} {number : Nat} {pieces : List Piece}
    {trailing : List Char} (h : ∀ t ∈ (s.under number pieces trailing false).tokens, P t.lexeme) :
    (∀ p ∈ pieces, P p.lexeme) ∧ ∀ t ∈ s.tokens, P t.lexeme := by
  by_cases hblank : pieces = [] ∧ 1 < number
  · obtain ⟨rfl, hnumber⟩ := hblank
    rw [tokens_under_blank hnumber] at h
    refine ⟨List.forall_mem_nil _, ?_⟩
    cases hs : s.tokens with
    | nil => exact List.forall_mem_nil _
    | cons t rest =>
      rw [hs] at h
      exact List.forall_mem_cons.2 (List.forall_mem_cons.1 h)
  · rw [tokens_under hblank, List.forall_mem_append, List.forall_mem_cons] at h
    exact ⟨fun p hp => h.1 _ (List.mem_map_of_mem hp), h.2.2⟩

/-- Without a token that is no break, every line is layout. -/
theorem isLayout_of_forall_isBreak {number : Nat} {lines : List (List Char)}
    (h : scanLines number lines = .ok s) (hb : ∀ t ∈ s.tokens, t.lexeme = .lineBreak) :
    ∀ line ∈ lines, Text.IsLayout line := by
  induction lines generalizing number s with
  | nil => exact List.forall_mem_nil _
  | cons line more ih =>
    cases hl : scanLine line with
    | none =>
      rw [scanLines, hl] at h
      cases h
    | some scanned =>
      obtain ⟨pieces, trailing⟩ := scanned
      rw [scanLines_cons hl] at h
      obtain ⟨below, hbelow, rfl⟩ := Outcome.map_eq_ok_iff.1 h
      have hline : (∀ p ∈ pieces, p.lexeme = .lineBreak) → Text.IsLayout line := by
        intro hpieces
        cases pieces with
        | nil => exact isLayout_of_scanLine hl
        | cons p pieces =>
          have hread := isRead_of_scanLine hl p (List.mem_cons_self ..)
          exact absurd (hpieces p (List.mem_cons_self ..)) hread.ne_lineBreak
      cases more with
      | nil =>
        exact List.forall_mem_singleton.2 (hline fun p hp => hb _ (List.mem_map_of_mem hp))
      | cons next more =>
        obtain ⟨hpieces, hmore⟩ := Scan.forall_lexeme_under (P := (· = .lineBreak)) hb
        exact List.forall_mem_cons.2 ⟨hline hpieces, ih hbelow hmore⟩

end Scanned

end Playbook
